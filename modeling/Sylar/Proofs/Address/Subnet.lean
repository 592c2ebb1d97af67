import Sylar.Lib.EState
import Sylar.Spec.Address

/-!
# `Sylar.Proofs.Address.Subnet`: the subnet functions

The functions are compared bit by bit. The bit `i` of the number of an IPv4 address is the bit
`place host i` of the integer that the host keeps, and the bit `i` of the number of an IPv6 address is
in the byte `15 - i / 8`.

`CreateMask` sets the bits behind the prefix. `broadcastAddress` needs these bits and `subnetMask` the
others, and both are right wherever `CreateMask` is defined. `networdAddress` needs the others too, but
takes the bits behind the prefix, so that it is right only where there are no bits to keep
(`subnet_exact_iff`).
-/

set_option autoImplicit false

namespace Sylar

open Lib

/-! ### The mask -/

/-- The mask of the bits behind a prefix of an IPv4 address. -/
theorem createMask_four {p : Nat} (hp : p ≤ 32) :
    createMask 4 p = if 2 ≤ p then .ok (2 ^ (32 - p) - 1)
      else .error (if p = 0 then .shift else .overflow) := by
  interval_cases p <;> rfl

/-- The mask of the bits behind a prefix in a byte. -/
theorem createMask_one {bits : Nat} (hbits : bits < 8) :
    createMask 1 bits = .ok (2 ^ (8 - bits) - 1) := by
  interval_cases bits <;> rfl

/-! ### The number of an IPv4 address -/

namespace IPv4Address

/-- The bit of the integer that is the bit `i` of the number. -/
def place (host : Endian) (i : Nat) : Nat :=
  match host with
  | .little => 8 * (3 - i / 8) + i % 8
  | .big => i

section
variable {host : Endian} {i : Nat}

theorem place_lt (host : Endian) (hi : i < 32) : place host i < 32 := by
  cases host with
  | little =>
      show 8 * (3 - i / 8) + i % 8 < 32
      omega
  | big => exact hi

theorem place_place (host : Endian) (hi : i < 32) : place host (place host i) = i := by
  cases host with
  | little =>
      show 8 * (3 - (8 * (3 - i / 8) + i % 8) / 8) + (8 * (3 - i / 8) + i % 8) % 8 = i
      omega
  | big => rfl

theorem testBit_byteswap (v : Nat) (hi : i < 32) :
    (ByteArray.byteswap 4 v).testBit i = v.testBit (8 * (3 - i / 8) + i % 8) := by
  have hbyte : i / 8 < (leBytes 4 v).length := by
    rw [length_leBytes]
    omega
  rw [ByteArray.byteswap, testBit_ofLE, List.getD_reverse _ hbyte, length_leBytes,
    getD_leBytes 4 v _ (by omega), UInt8.toNat_ofNat', Nat.testBit_mod_two_pow,
    show (256 : Nat) = 2 ^ 8 from rfl, ← Nat.pow_mul, Nat.testBit_div_two_pow,
    decide_eq_true (Nat.mod_lt i (by decide)), Bool.true_and, Nat.add_comm]

theorem testBit_byteswapOnLittleEndian (host : Endian) (v : Nat) (hi : i < 32) :
    (byteswapOnLittleEndian host 4 v).testBit i = v.testBit (place host i) := by
  cases host with
  | little => exact testBit_byteswap v hi
  | big => rfl

theorem getLsbD_number (addr : SockaddrIn) (hi : i < 32) :
    (number host addr).getLsbD i = addr.sAddr.getLsbD (place host i) := by
  rw [number, BitVec.getLsbD_ofNat, decide_eq_true hi, Bool.true_and,
    testBit_byteswapOnLittleEndian host _ hi]
  rfl

/-- A mask that is swapped has its bits at their places. -/
theorem getLsbD_swapped (host : Endian) (v : Nat) (hi : i < 32) :
    (BitVec.ofNat 32 (byteswapOnLittleEndian host 4 v)).getLsbD (place host i) = v.testBit i := by
  rw [BitVec.getLsbD_ofNat, decide_eq_true (place_lt host hi), Bool.true_and,
    testBit_byteswapOnLittleEndian host v (place_lt host hi), place_place host hi]

/-- The number tells the address. -/
theorem number_inj {x y : SockaddrIn} (h : number host x = number host y) : x.sAddr = y.sAddr := by
  refine BitVec.eq_of_getLsbD_eq fun i hi => ?_
  have hbit := congrArg (fun a => a.getLsbD (place host i)) h
  simp only [getLsbD_number _ (place_lt host hi), place_place host hi] at hbit
  exact hbit

end

/-! ### The IPv4 functions -/

section
variable {host : Endian} {p : Nat} {addr : SockaddrIn}

theorem maskExact_iff (hp : p ≤ 32) : MaskExact host p ↔ 2 ≤ p := by
  rw [MaskExact, subnetMask, createMask_four hp]
  split
  case isFalse h => exact iff_of_false (fun ⟨_, hrun, _⟩ => nomatch hrun) h
  case isTrue h =>
    refine iff_of_true ⟨_, rfl, BitVec.eq_of_getLsbD_eq fun i hi => ?_⟩ h
    rw [getLsbD_number _ hi, getLsbD_netmask]
    show (~~~BitVec.ofNat 32 (byteswapOnLittleEndian host 4 _)).getLsbD (place host i) = _
    rw [BitVec.getLsbD_not, decide_eq_true (place_lt host hi), Bool.true_and,
      getLsbD_swapped host _ hi, Nat.testBit_two_pow_sub_one]
    by_cases hbit : i < 32 - p
    · simp [hbit, Nat.not_le.mpr hbit]
    · simp [hbit, hi, Nat.le_of_not_lt hbit]

theorem broadcastAddress_eq (hp : p ≤ 32) (h : 2 ≤ p) : ∃ s,
    broadcastAddress host p addr = .ok (some s) ∧ number host s = broadcast (number host addr) p ∧
      s.sinPort = addr.sinPort ∧ s.sinFamily = addr.sinFamily := by
  rw [broadcastAddress, if_neg (Nat.not_lt.mpr hp), createMask_four hp, if_pos h]
  refine ⟨_, rfl, BitVec.eq_of_getLsbD_eq fun i hi => ?_, rfl, rfl⟩
  rw [getLsbD_number _ hi, getLsbD_broadcast _ _ hi, getLsbD_number _ hi]
  show (addr.sAddr ||| BitVec.ofNat 32 (byteswapOnLittleEndian host 4 _)).getLsbD (place host i) = _
  rw [BitVec.getLsbD_or, getLsbD_swapped host _ hi, Nat.testBit_two_pow_sub_one]

theorem broadcastExact_iff (hp : p ≤ 32) : BroadcastExact host p addr ↔ 2 ≤ p := by
  constructor
  · rintro ⟨s, hrun, -⟩
    by_contra h
    rw [broadcastAddress, if_neg (Nat.not_lt.mpr hp), createMask_four hp, if_neg h] at hrun
    cases hrun
  · exact broadcastAddress_eq hp

/-- `networdAddress` returns the bits behind the prefix. -/
theorem networdAddress_eq (host : Endian) (addr : SockaddrIn) (hp : p ≤ 32) (h : 2 ≤ p) : ∃ s,
    networdAddress host p addr = .ok (some s) ∧ number host s = hostPart (number host addr) p ∧
      s.sinPort = addr.sinPort ∧ s.sinFamily = addr.sinFamily := by
  rw [networdAddress, if_neg (Nat.not_lt.mpr hp), createMask_four hp, if_pos h]
  refine ⟨_, rfl, BitVec.eq_of_getLsbD_eq fun i hi => ?_, rfl, rfl⟩
  rw [getLsbD_number _ hi, getLsbD_hostPart, getLsbD_number _ hi]
  show (addr.sAddr &&& BitVec.ofNat 32 (byteswapOnLittleEndian host 4 _)).getLsbD (place host i) = _
  rw [BitVec.getLsbD_and, getLsbD_swapped host _ hi, Nat.testBit_two_pow_sub_one]

theorem networkExact_iff (hp : p ≤ 32) :
    NetworkExact host p addr ↔ 2 ≤ p ∧ number host addr = 0#32 := by
  by_cases h : 2 ≤ p
  · obtain ⟨s, hrun, hnumber, hport, hfamily⟩ := networdAddress_eq host addr hp h
    rw [and_iff_right h, ← hostPart_eq_network_iff (number host addr) p, ← hnumber]
    constructor
    · rintro ⟨s', hrun', hnumber', -⟩
      rw [hrun] at hrun'
      cases hrun'
      exact hnumber'
    · intro heq
      exact ⟨s, hrun, heq, hport, hfamily⟩
  · refine iff_of_false ?_ fun hcon => h hcon.1
    rintro ⟨s, hrun, -⟩
    rw [networdAddress, if_neg (Nat.not_lt.mpr hp), createMask_four hp, if_neg h] at hrun
    cases hrun

theorem ordered (host : Endian) (addr : SockaddrIn) (hp : p ≤ 32) : Ordered host p addr := by
  have hret : Function.Injective
      fun s : SockaddrIn => (.ok (some s) : Except Fault (Option SockaddrIn)) :=
    fun _ _ h => Option.some.inj (Except.ok.inj h)
  have hinj : ∀ x y : SockaddrIn, number host x = number host y →
      (x.sinPort, x.sinFamily) = (y.sinPort, y.sinFamily) → x = y := by
    rintro ⟨family, port, a⟩ ⟨family', port', a'⟩ hnumber hrest
    cases hrest
    cases number_inj hnumber
    rfl
  constructor
  · refine settles_of_exact (fun x => broadcast_broadcast x p) (fun _ _ => broadcast_congr)
      (fun x => le_broadcast x p) hret hinj fun a ha => ?_
    have hlow := (broadcastExact_iff hp).mp ha
    obtain ⟨s, hrun, hnumber, hport, hfamily⟩ := ha
    exact ⟨s, hrun, hnumber, by rw [hport, hfamily], (broadcastExact_iff hp).mpr hlow⟩
  · refine settles_of_exact (R := fun x y => y ≤ x) (fun x => network_network x p)
      (fun _ _ => network_congr) (fun x => network_le x p) hret hinj fun a ha => ?_
    obtain ⟨hlow, hzero⟩ := (networkExact_iff hp).mp ha
    obtain ⟨s, hrun, hnumber, hport, hfamily⟩ := ha
    refine ⟨s, hrun, hnumber, by rw [hport, hfamily], (networkExact_iff hp).mpr ⟨hlow, ?_⟩⟩
    rw [hnumber, hzero, network, BitVec.zero_and]

end

end IPv4Address

/-! ### The number of an IPv6 address -/

namespace IPv6Address

section
variable {addr : SockaddrIn6} {bs : Vector UInt8 16} {v : UInt8} {f : UInt8 → UInt8} {i k p : Nat}

theorem byteAt_eq (bs : Vector UInt8 16) (k : Nat) : byteAt bs k = bs[k]?.getD 0 := by
  rw [byteAt, List.getD_eq_getElem?_getD, Vector.getElem?_toList]

theorem getLsbD_number (addr : SockaddrIn6) (hi : i < 128) :
    (number addr).getLsbD i = (byteAt addr.s6Addr (15 - i / 8)).toNat.testBit (i % 8) := by
  have hlen : addr.s6Addr.toList.length = 16 := Vector.length_toList
  rw [number, BitVec.getLsbD_ofNat, decide_eq_true hi, Bool.true_and, testBit_ofLE,
    List.getD_reverse _ (by omega), hlen]
  rfl

/-- A byte is its eight bits. -/
theorem byte_eq_of_testBit {b c : UInt8} (h : ∀ j < 8, b.toNat.testBit j = c.toNat.testBit j) :
    b = c := by
  refine UInt8.toNat_inj.mp (Nat.eq_of_testBit_eq fun j => ?_)
  by_cases hj : j < 8
  · exact h j hj
  · have hpow : 2 ^ 8 ≤ 2 ^ j := Nat.pow_le_pow_right (by decide) (Nat.le_of_not_lt hj)
    rw [Nat.testBit_lt_two_pow (Nat.lt_of_lt_of_le b.toNat_lt hpow),
      Nat.testBit_lt_two_pow (Nat.lt_of_lt_of_le c.toNat_lt hpow)]

/-- Each bit of a byte is a bit of the number. -/
theorem exists_place {j : Nat} (hk : k < 16) (hj : j < 8) : ∃ i < 128, 15 - i / 8 = k ∧ i % 8 = j :=
  ⟨8 * (15 - k) + j, by omega, by omega, by omega⟩

/-- A byte is 0 when its bits in the number are. -/
theorem byteAt_eq_zero (hk : k < 16)
    (h : ∀ i < 128, 15 - i / 8 = k → (number addr).getLsbD i = false) :
    byteAt addr.s6Addr k = 0 := by
  refine byte_eq_of_testBit fun j hj => ?_
  obtain ⟨i, hi, rfl, rfl⟩ := exists_place hk hj
  rw [← getLsbD_number addr hi, h i hi rfl]
  exact (Nat.zero_testBit _).symm

/-- An address is its sixteen bytes. -/
theorem s6Addr_ext {x y : SockaddrIn6} (h : ∀ k < 16, byteAt x.s6Addr k = byteAt y.s6Addr k) :
    x.s6Addr = y.s6Addr := by
  refine Vector.ext fun k hk => ?_
  have hbyte := h k hk
  rw [byteAt_eq, byteAt_eq, Vector.getElem?_eq_getElem hk, Vector.getElem?_eq_getElem hk] at hbyte
  exact hbyte

/-- The number tells the address. -/
theorem number_inj {x y : SockaddrIn6} (h : number x = number y) : x.s6Addr = y.s6Addr := by
  refine s6Addr_ext fun k hk => byte_eq_of_testBit fun j hj => ?_
  obtain ⟨i, hi, rfl, rfl⟩ := exists_place hk hj
  rw [← getLsbD_number x hi, ← getLsbD_number y hi, h]

theorem byteAt_fill (v : UInt8) (hk : k < 16) : ∀ (count i : Nat) (bs : Vector UInt8 16),
    byteAt (fill v count i bs) k = if i ≤ k ∧ k < i + count then v else byteAt bs k := by
  intro count
  induction count with
  | zero =>
      intro i bs
      rw [if_neg (by omega)]
      rfl
  | succ count ih =>
      intro i bs
      have hset : byteAt (bs.setIfInBounds i v) k = if i = k then v else byteAt bs k := by
        rw [byteAt_eq, Vector.getElem?_setIfInBounds]
        by_cases hik : i = k
        · rw [if_pos hik, if_pos hik, if_pos (hik ▸ hk)]
          rfl
        · rw [if_neg hik, if_neg hik, byteAt_eq]
      rw [fill, ih, hset]
      by_cases hik : i = k
      · rw [if_neg (by omega), if_pos hik, if_pos (by omega)]
      · rw [if_neg hik]
        by_cases hlt : i + 1 ≤ k ∧ k < i + 1 + count
        · rw [if_pos hlt, if_pos (by omega)]
        · rw [if_neg hlt, if_neg (by omega)]

theorem update_ok (f : UInt8 → UInt8) (bs : Vector UInt8 16) (hi : i < 16) :
    ∃ bs', update i f bs = .ok bs' ∧
      ∀ k < 16, byteAt bs' k = if k = i then f (byteAt bs i) else byteAt bs k := by
  have hsome : bs[i]? = some bs[i] := Vector.getElem?_eq_getElem hi
  rw [update, hsome]
  refine ⟨_, rfl, fun k hk => ?_⟩
  rw [byteAt_eq, Vector.getElem?_setIfInBounds]
  by_cases hik : i = k
  · rw [if_pos hik, if_pos hi, if_pos hik.symm, byteAt_eq, hsome]
    rfl
  · rw [if_neg hik, if_neg (Ne.symm hik), byteAt_eq]

/-- Where the bit `i` of the number lies, for a prefix that ends in the byte `p / 8`. -/
theorem place_cases (p : Nat) (hi : i < 128) :
    (15 - i / 8 < p / 8 ∧ 128 - p ≤ i) ∨ (p / 8 < 15 - i / 8 ∧ i < 128 - p) ∨
      (15 - i / 8 = p / 8 ∧ (i < 128 - p ↔ i % 8 < 8 - p % 8)) := by
  omega

/-- The bits of the mask of a byte. -/
theorem testBit_mask {j : Nat} (hj : j < 8) (bits : Nat) :
    (UInt8.ofNat (2 ^ (8 - bits) - 1)).toNat.testBit j = decide (j < 8 - bits) := by
  rw [UInt8.toNat_ofNat', Nat.testBit_mod_two_pow, decide_eq_true hj, Bool.true_and,
    Nat.testBit_two_pow_sub_one]

/-! ### The IPv6 functions -/

/-- The byte `p / 8` changed by `f`, and `v` behind it. -/
theorem edit_ok (f : UInt8 → UInt8) (v : UInt8) (bs : Vector UInt8 16) (hp : p < 128) :
    ∃ bs', update (p / 8) f bs = .ok bs' ∧
      ∀ k < 16, byteAt (fill v (15 - p / 8) (p / 8 + 1) bs') k =
        if k < p / 8 then byteAt bs k else if k = p / 8 then f (byteAt bs k) else v := by
  obtain ⟨bs', hrun, hbytes⟩ := update_ok f bs (show p / 8 < 16 by omega)
  refine ⟨bs', hrun, fun k hk => ?_⟩
  rw [byteAt_fill v hk, hbytes k hk]
  by_cases hlt : k < p / 8
  · rw [if_neg (by omega), if_neg (by omega), if_pos hlt]
  · rw [if_neg hlt]
    by_cases heq : k = p / 8
    · rw [if_neg (by omega), if_pos heq, if_pos heq, heq]
    · rw [if_pos (by omega), if_neg heq]

theorem broadcastAddress_eq (addr : SockaddrIn6) (hp : p < 128) : ∃ s,
    broadcastAddress p addr = .ok s ∧ number s = broadcast (number addr) p ∧
      s.sin6Port = addr.sin6Port ∧ s.sin6Family = addr.sin6Family := by
  rw [broadcastAddress, createMask_one (Nat.mod_lt p (by decide)), except_ok_bind]
  obtain ⟨bs', hrun, hbytes⟩ :=
    edit_ok (fun b => b ||| UInt8.ofNat (2 ^ (8 - p % 8) - 1)) 0xff addr.s6Addr hp
  rw [hrun]
  refine ⟨_, rfl, BitVec.eq_of_getLsbD_eq fun i hi => ?_, rfl, rfl⟩
  have hmod : i % 8 < 8 := Nat.mod_lt i (by decide)
  rw [getLsbD_number _ hi, getLsbD_broadcast _ _ hi, getLsbD_number _ hi]
  show (byteAt (fill _ _ _ bs') (15 - i / 8)).toNat.testBit (i % 8) = _
  rw [hbytes _ (by omega)]
  rcases place_cases p hi with ⟨hbyte, hbit⟩ | ⟨hbyte, hbit⟩ | ⟨hbyte, hbit⟩
  · rw [if_pos hbyte, decide_eq_false (Nat.not_lt.mpr hbit), Bool.or_false]
  · rw [if_neg (by omega), if_neg (by omega), decide_eq_true hbit, Bool.or_true]
    exact (Nat.testBit_two_pow_sub_one 8 (i % 8)).trans (decide_eq_true hmod)
  · rw [if_neg (by omega), if_pos hbyte, UInt8.toNat_or, Nat.testBit_or, testBit_mask hmod,
      decide_eq_decide.mpr hbit]

/-- The byte `p / 8` of what `networdAddress` returns has the bits behind the prefix. -/
theorem networdAddress_eq (addr : SockaddrIn6) (hp : p < 128) : ∃ s,
    networdAddress p addr = .ok s ∧
      (∀ i < 128, (number s).getLsbD i =
        if 15 - i / 8 = p / 8 then (number addr).getLsbD i && decide (i < 128 - p)
        else (network (number addr) p).getLsbD i) ∧
      s.sin6Port = addr.sin6Port ∧ s.sin6Family = addr.sin6Family := by
  rw [networdAddress, createMask_one (Nat.mod_lt p (by decide)), except_ok_bind]
  obtain ⟨bs', hrun, hbytes⟩ :=
    edit_ok (fun b => b &&& UInt8.ofNat (2 ^ (8 - p % 8) - 1)) 0x00 addr.s6Addr hp
  rw [hrun]
  refine ⟨_, rfl, fun i hi => ?_, rfl, rfl⟩
  have hmod : i % 8 < 8 := Nat.mod_lt i (by decide)
  rw [getLsbD_number _ hi, getLsbD_network, getLsbD_number _ hi]
  show (byteAt (fill _ _ _ bs') (15 - i / 8)).toNat.testBit (i % 8) = _
  rw [hbytes _ (by omega)]
  rcases place_cases p hi with ⟨hbyte, hbit⟩ | ⟨hbyte, hbit⟩ | ⟨hbyte, hbit⟩
  · rw [if_pos hbyte, if_neg (by omega), decide_eq_true hbit, Bool.and_true]
  · rw [if_neg (by omega), if_neg (by omega), if_neg (by omega),
      decide_eq_false (Nat.not_le.mpr hbit), Bool.and_false]
    exact Nat.zero_testBit _
  · rw [if_neg (by omega), if_pos hbyte, if_pos hbyte, UInt8.toNat_and, Nat.testBit_and,
      testBit_mask hmod, decide_eq_decide.mpr hbit]

theorem subnetMask_eq (hp : p < 128) : ∃ s, subnetMask p = .ok s ∧ number s = netmask 128 p := by
  rw [subnetMask, createMask_one (Nat.mod_lt p (by decide)), except_ok_bind]
  obtain ⟨bs', hrun, hbytes⟩ := update_ok (fun _ => ~~~UInt8.ofNat (2 ^ (8 - p % 8) - 1))
    (Vector.replicate 16 0) (show p / 8 < 16 by omega)
  rw [hrun]
  refine ⟨_, rfl, BitVec.eq_of_getLsbD_eq fun i hi => ?_⟩
  have hmod : i % 8 < 8 := Nat.mod_lt i (by decide)
  have hk : 15 - i / 8 < 16 := by omega
  have hzero : byteAt (Vector.replicate 16 0) (15 - i / 8) = 0 := by
    rw [byteAt_eq, Vector.getElem?_replicate, if_pos hk]
    rfl
  rw [getLsbD_number _ hi, getLsbD_netmask]
  show (byteAt (fill 0xff _ _ bs') (15 - i / 8)).toNat.testBit (i % 8) = _
  rw [byteAt_fill _ hk, hbytes _ hk, hzero]
  rcases place_cases p hi with ⟨hbyte, hbit⟩ | ⟨hbyte, hbit⟩ | ⟨hbyte, hbit⟩
  · rw [if_pos (by omega), decide_eq_true ⟨hbit, hi⟩]
    exact (Nat.testBit_two_pow_sub_one 8 (i % 8)).trans (decide_eq_true hmod)
  · rw [if_neg (by omega), if_neg (by omega), decide_eq_false (by omega)]
    exact Nat.zero_testBit _
  · have hnot : (~~~UInt8.ofNat (2 ^ (8 - p % 8) - 1)).toNat.testBit (i % 8)
        = !(UInt8.ofNat (2 ^ (8 - p % 8) - 1)).toNat.testBit (i % 8) := by
      have h := BitVec.getLsbD_not (x := (UInt8.ofNat (2 ^ (8 - p % 8) - 1)).toBitVec) (i := i % 8)
      rw [decide_eq_true hmod, Bool.true_and] at h
      exact h
    rw [if_neg (by omega), if_pos hbyte, hnot, testBit_mask hmod, ← decide_not]
    exact decide_eq_decide.mpr (by omega)

theorem maskExact_iff (hp : p ≤ 128) : MaskExact p ↔ p < 128 := by
  rcases Nat.lt_or_eq_of_le hp with h | rfl
  · exact iff_of_true (subnetMask_eq h) h
  · exact iff_of_false (fun ⟨_, hrun, _⟩ => nomatch hrun) (Nat.lt_irrefl _)

theorem broadcastExact_iff (hp : p ≤ 128) : BroadcastExact p addr ↔ p < 128 := by
  rcases Nat.lt_or_eq_of_le hp with h | rfl
  · exact iff_of_true (broadcastAddress_eq addr h) h
  · exact iff_of_false (fun ⟨_, hrun, _⟩ => nomatch hrun) (Nat.lt_irrefl _)

theorem networkExact_iff (hp : p ≤ 128) :
    NetworkExact p addr ↔ p < 128 ∧ byteAt addr.s6Addr (p / 8) = 0 := by
  rcases Nat.lt_or_eq_of_le hp with h | rfl
  · obtain ⟨s, hrun, hbits, hport, hfamily⟩ := networdAddress_eq addr h
    rw [and_iff_right h]
    constructor
    · rintro ⟨s', hrun', hnumber, -⟩
      rw [hrun] at hrun'
      cases hrun'
      -- the network has the bits of the prefix, and the result the others
      refine byteAt_eq_zero (by omega) fun i hi hbyte => ?_
      have hbit := hbits i hi
      rw [hnumber, if_pos hbyte, getLsbD_network] at hbit
      by_cases hlow : i < 128 - p
      · simpa [hlow, Nat.not_le.mpr hlow] using hbit.symm
      · simpa [hlow, Nat.le_of_not_lt hlow] using hbit
    · intro hzero
      refine ⟨s, hrun, BitVec.eq_of_getLsbD_eq fun i hi => ?_, hport, hfamily⟩
      rw [hbits i hi, getLsbD_network]
      split
      case isFalse => rfl
      case isTrue hbyte =>
        have hbit : (number addr).getLsbD i = false := by
          rw [getLsbD_number _ hi, hbyte, hzero]
          exact Nat.zero_testBit _
        rw [hbit, Bool.false_and, Bool.false_and]
  · exact iff_of_false (fun ⟨_, hrun, _⟩ => nomatch hrun) fun hcon => Nat.lt_irrefl _ hcon.1

theorem ordered (addr : SockaddrIn6) (hp : p ≤ 128) : Ordered p addr := by
  have hret : Function.Injective fun s : SockaddrIn6 => (.ok s : Except Fault SockaddrIn6) :=
    fun _ _ h => Except.ok.inj h
  have hinj : ∀ x y : SockaddrIn6, number x = number y →
      (x.sin6Port, x.sin6Family) = (y.sin6Port, y.sin6Family) → x = y := by
    rintro ⟨family, port, a⟩ ⟨family', port', a'⟩ hnumber hrest
    cases hrest
    cases number_inj hnumber
    rfl
  constructor
  · refine settles_of_exact (fun x => broadcast_broadcast x p) (fun _ _ => broadcast_congr)
      (fun x => le_broadcast x p) hret hinj fun a ha => ?_
    have hlow := (broadcastExact_iff hp).mp ha
    obtain ⟨s, hrun, hnumber, hport, hfamily⟩ := ha
    exact ⟨s, hrun, hnumber, by rw [hport, hfamily], (broadcastExact_iff hp).mpr hlow⟩
  · refine settles_of_exact (R := fun x y => y ≤ x) (fun x => network_network x p)
      (fun _ _ => network_congr) (fun x => network_le x p) hret hinj fun a ha => ?_
    obtain ⟨hlow, hzero⟩ := (networkExact_iff hp).mp ha
    obtain ⟨s, hrun, hnumber, hport, hfamily⟩ := ha
    refine ⟨s, hrun, hnumber, by rw [hport, hfamily], (networkExact_iff hp).mpr ⟨hlow, ?_⟩⟩
    -- a byte without bits keeps none
    refine byteAt_eq_zero (by omega) fun i hi hbyte => ?_
    rw [hnumber, getLsbD_network, getLsbD_number a hi, hbyte, hzero]
    exact (congrArg (· && _) (Nat.zero_testBit _)).trans (Bool.false_and _)

end

end IPv6Address

/-! ### Both families -/

/-- For IPv4, `subnetMask` and `broadcastAddress` are exact from a prefix of 2 bits on, since
`CreateMask` is undefined for 0 and 1. For IPv6 they are exact below 128 bits, where there is a byte
for the end of the prefix. `networdAddress` is exact if moreover the address, or this byte, is 0. The
order and the other consequences hold where the functions are exact. -/
theorem subnet_exact_iff (host : Endian) :
    (∀ (p : Nat) (addr : SockaddrIn), p ≤ 32 →
      (IPv4Address.MaskExact host p ↔ 2 ≤ p) ∧ (IPv4Address.BroadcastExact host p addr ↔ 2 ≤ p) ∧
      (IPv4Address.NetworkExact host p addr ↔ 2 ≤ p ∧ IPv4Address.number host addr = 0#32) ∧
      IPv4Address.Ordered host p addr) ∧
    ∀ (p : Nat) (addr : SockaddrIn6), p ≤ 128 →
      (IPv6Address.MaskExact p ↔ p < 128) ∧ (IPv6Address.BroadcastExact p addr ↔ p < 128) ∧
      (IPv6Address.NetworkExact p addr ↔
        p < 128 ∧ IPv6Address.byteAt addr.s6Addr (p / 8) = 0) ∧
      IPv6Address.Ordered p addr :=
  ⟨fun _ addr hp => ⟨IPv4Address.maskExact_iff hp, IPv4Address.broadcastExact_iff hp,
      IPv4Address.networkExact_iff hp, IPv4Address.ordered host addr hp⟩,
    fun _ addr hp => ⟨IPv6Address.maskExact_iff hp, IPv6Address.broadcastExact_iff hp,
      IPv6Address.networkExact_iff hp, IPv6Address.ordered addr hp⟩⟩

/-- The broadcast address of `192.168.1.5/24`, on a host with the lowest byte first, and of the IPv6
address with the single bit 1, for a prefix of 64 bits. -/
theorem subnet_exact_broadcast :
    IPv4Address.BroadcastExact .little 24 ⟨2, 0, 0x0501a8c0#32⟩ ∧
      IPv6Address.BroadcastExact 64 ⟨10, 0, (Vector.replicate 16 0).setIfInBounds 15 1⟩ :=
  ⟨((subnet_exact_iff .little).1 24 _ (by decide)).2.1.mpr (by decide),
    ((subnet_exact_iff .little).2 64 _ (by decide)).2.1.mpr (by decide)⟩

/-- The network of `192.168.1.5/24` comes out as `0.0.0.5`. A prefix of no bits is a shift by 32, and
a prefix of 128 bits an index of 16. -/
theorem network_inverted :
    IPv4Address.number .little ⟨2, 0, 0x0501a8c0#32⟩ = 0xc0a80105#32 ∧
      IPv4Address.networdAddress .little 24 ⟨2, 0, 0x0501a8c0#32⟩ =
        .ok (some ⟨2, 0, 0x05000000#32⟩) ∧
      IPv4Address.number .little ⟨2, 0, 0x05000000#32⟩ = 5#32 ∧
      network 0xc0a80105#32 24 = 0xc0a80100#32 ∧
      ¬ IPv4Address.NetworkExact .little 24 ⟨2, 0, 0x0501a8c0#32⟩ ∧
      IPv4Address.subnetMask .little 0 = .error .shift ∧
      IPv6Address.subnetMask 128 = .error .index := by
  refine ⟨by decide, rfl, by decide, by decide, ?_, rfl, rfl⟩
  rintro ⟨s, hrun, hnumber, -⟩
  cases hrun
  exact absurd hnumber (by decide)

end Sylar
