import Sylar.Proofs.ByteArray.Stream
import Sylar.Spec.ByteArrayCodec

/-!
# `Sylar.Proofs.ByteArray.Codec`: typed writes and reads round-trip

Each operation writes some byte string under the byte order that is set, and the read of the same
kind consumes this string and returns the value. `kind_codec` says so for every operation, with the
string left open. It does not depend on the host. A mixed sequence is then an induction over its
items (`entries_codec`).

The fixed-width part rests on one fact: a byte swap turns the bytes of one host into those of
the other. The variable-width part is an induction over the groups of seven bits.
-/

set_option autoImplicit false

namespace Sylar.ByteArray

open Lib (leBytes ofLE ofLE_leBytes leBytes_ofLE length_leBytes)

/-! ### Objects in memory -/

@[simp] theorem length_objectBytes (host : Endian) (n v : Nat) :
    (objectBytes host n v).length = n := by
  cases host with
  | little => exact length_leBytes n v
  | big =>
      show (leBytes n v).reverse.length = n
      rw [List.length_reverse, length_leBytes]

/-- The bytes of a swapped value are the bytes in the other order. -/
theorem leBytes_byteswap (n v : Nat) : leBytes n (byteswap n v) = (leBytes n v).reverse := by
  have h := leBytes_ofLE (leBytes n v).reverse
  rwa [List.length_reverse, length_leBytes] at h

/-- Swapping when the orders differ gives the bytes in the order asked for, on every host. -/
theorem objectBytes_swap (host e : Endian) (n v : Nat) :
    objectBytes host n (if e ≠ host then byteswap n v else v) = objectBytes e n v := by
  cases host <;> cases e <;> simp [objectBytes, leBytes_byteswap]

/-- Reading the bytes back, and swapping when the orders differ, gives the value. -/
theorem ofObjectBytes_swap (host e : Endian) {n v : Nat} (hv : v < 256 ^ n) :
    (if e = host then ofObjectBytes host (objectBytes e n v)
      else byteswap n (ofObjectBytes host (objectBytes e n v))) = v := by
  have hback : ofLE (leBytes n v) = v := (ofLE_leBytes n v).trans (Nat.mod_eq_of_lt hv)
  -- The value that the wrong order shows is the swapped one.
  have hswap : byteswap n (ofLE (leBytes n v).reverse) = v := by
    show ofLE (leBytes n (byteswap n v)).reverse = v
    rw [leBytes_byteswap, List.reverse_reverse, hback]
  cases host <;> cases e <;> simp [objectBytes, ofObjectBytes, hback, hswap]

/-! ### Fixed width -/

section
variable (mem : Nat → Nat → UInt8) (host e : Endian)

/-- One byte has one order. -/
theorem objectBytes_one (v : Nat) : objectBytes host 1 v = [UInt8.ofNat v] := by
  cases host <;> rfl

theorem writes_byte (v : Nat) :
    Writes e e (write mem (objectBytes host 1 v)) [UInt8.ofNat v] := by
  rw [objectBytes_one]
  exact Writes.write mem _

theorem writes_fixed (n v : Nat) : Writes e e (writeFixed mem host n v) (objectBytes e n v) := by
  refine Writes.get ?_
  intro ba he
  subst he
  rw [← objectBytes_swap host ba.endian n v]
  exact Writes.write mem _

/-- The one-byte reads, with the conversion to their type. -/
theorem reads_byte {α : Type} (g : UInt8 → α) (b : UInt8) :
    Reads e e (read 1 >>= fun bs => pure (g (UInt8.ofNat (ofObjectBytes host bs)))) [b] (g b) := by
  have h := (Reads.read (e := e) (show [b].length = 1 from rfl) Nat.one_pos).map
    fun bs => g (UInt8.ofNat (ofObjectBytes host bs))
  have hback : UInt8.ofNat (ofObjectBytes host [b]) = b := by
    cases host <;> simp [ofObjectBytes, ofLE]
  rwa [hback] at h

theorem reads_readFuint8 (b : UInt8) : Reads e e (readFuint8 host) [b] b :=
  reads_byte host e id b

theorem reads_fixed {n v : Nat} (hn : 0 < n) (hv : v < 256 ^ n) :
    Reads e e (readFixed host n) (objectBytes e n v) v := by
  have h : Reads e e (readFixed host n) (objectBytes e n v ++ []) v := by
    refine (Reads.read (length_objectBytes e n v) hn).bind (Reads.get ?_)
    intro ba he
    subst he
    rw [ofObjectBytes_swap host ba.endian hv]
    exact Reads.pure v
  rwa [List.append_nil] at h

end

/-! ### Variable width -/

/-- Setting the continuation bit of a group. -/
theorem group_or (v : Nat) : (v &&& 0x7F) ||| 0x80 = v % 128 + 128 := by
  have hlow : v &&& 0x7F = v % 128 := Nat.and_two_pow_sub_one_eq_mod v 7
  have hor := Nat.two_pow_add_eq_or_of_lt (show v % 128 < 2 ^ 7 by omega) 1
  rw [hlow, Nat.or_comm, Nat.add_comm]
  exact hor.symm

/-- Adding a group above the bits that are set. -/
theorem or_shiftLeft {r i : Nat} (g : Nat) (hr : r < 2 ^ i) : r ||| g <<< i = r + g * 2 ^ i := by
  have h := Nat.two_pow_add_eq_or_of_lt hr g
  rw [Nat.shiftLeft_eq, Nat.or_comm, Nat.mul_comm g, ← h, Nat.add_comm]

/-- The continuation bit and the group of a byte of the code. -/
theorem group_byte (v : Nat) :
    ¬ UInt8.ofNat (v % 128 + 128) < 0x80 ∧
      (UInt8.ofNat (v % 128 + 128) &&& 0x7f).toNat = v % 128 := by
  have hnat : (UInt8.ofNat (v % 128 + 128)).toNat = v % 128 + 128 := by
    rw [UInt8.toNat_ofNat']
    omega
  refine ⟨?_, ?_⟩
  · rw [UInt8.lt_iff_toNat_lt, hnat]
    show ¬ v % 128 + 128 < 128
    omega
  · rw [UInt8.toNat_and, hnat]
    show (v % 128 + 128) &&& 2 ^ 7 - 1 = v % 128
    rw [Nat.and_two_pow_sub_one_eq_mod]
    omega

/-- The last group is a byte without the continuation bit. -/
theorem last_byte {v : Nat} (hv : v < 128) :
    (UInt8.ofNat v).toNat = v ∧ UInt8.ofNat v < 0x80 := by
  have hnat : (UInt8.ofNat v).toNat = v := UInt8.toNat_ofNat_of_lt' (Nat.lt_trans hv (by decide))
  exact ⟨hnat, UInt8.lt_iff_toNat_lt.mpr (hnat.symm ▸ hv)⟩

theorem varintLoop_last (slots : Nat) {v : Nat} (hv : v < 128) :
    varintLoop (slots + 1) v = .ok [UInt8.ofNat v] := by
  rw [varintLoop, if_neg (Nat.not_le.mpr hv)]
  rfl

/-- A group with more behind it takes a byte, and the value that is left has seven bits less. -/
theorem varintLoop_more {slots v : Nat} {rest : List UInt8} (hv : ¬ v < 128)
    (hrest : varintLoop slots (v / 128) = .ok rest) :
    varintLoop (slots + 1) v = .ok (UInt8.ofNat (v % 128 + 128) :: rest) := by
  rw [varintLoop, if_pos (Nat.le_of_not_lt hv), Nat.shiftRight_eq_div_pow, group_or]
  show (varintLoop slots (v / 128) >>= _) = _
  rw [hrest]
  rfl

/-- The last group ends both loops. -/
theorem varintLoop_reads_last (host e : Endian) (w slots : Nat) {v rounds i result : Nat}
    (hv : v < 128) (hr : result < 2 ^ i) (hw : result + v * 2 ^ i < 2 ^ w) :
    ∃ bs, varintLoop (slots + 1) v = .ok bs ∧
      Reads e e (readVarintLoop host w (rounds + 1) i result) bs (result + v * 2 ^ i) := by
  obtain ⟨hnat, hend⟩ := last_byte hv
  refine ⟨[UInt8.ofNat v], varintLoop_last slots hv, ?_⟩
  refine (reads_readFuint8 host e (UInt8.ofNat v)).bind (b := []) ?_
  rw [if_pos hend, hnat, or_shiftLeft _ hr, Nat.mod_eq_of_lt hw]
  exact Reads.pure _

/-- The loops of the variable-width write and read, from the same group on. `result` holds the
groups below, and the value that is left fits in the slots and above `result`. -/
theorem varintLoop_reads (host e : Endian) (w : Nat) : ∀ (slots v rounds i result : Nat),
    v < 128 ^ (slots + 1) → slots < rounds → result < 2 ^ i → result + v * 2 ^ i < 2 ^ w →
    ∃ bs, varintLoop (slots + 1) v = .ok bs ∧
      Reads e e (readVarintLoop host w rounds i result) bs (result + v * 2 ^ i) := by
  intro slots
  -- The induction is on the slots of `tmp`: each group but the last takes one.
  induction slots with
  | zero =>
      intro v rounds i result hv hrounds hr hw
      obtain ⟨rounds, rfl⟩ := Nat.exists_eq_succ_of_ne_zero (Nat.ne_zero_of_lt hrounds)
      exact varintLoop_reads_last host e w 0 (by omega) hr hw
  | succ slots ih =>
      intro v rounds i result hv hrounds hr hw
      obtain ⟨rounds, rfl⟩ := Nat.exists_eq_succ_of_ne_zero (Nat.ne_zero_of_lt hrounds)
      by_cases hlast : v < 128
      · exact varintLoop_reads_last host e w (slots + 1) hlast hr hw
      · -- The low group joins `result`, and the value that is left moves up by seven bits.
        have hsplit : result + v * 2 ^ i
            = result + v % 128 * 2 ^ i + v / 128 * 2 ^ (i + 7) := by
          have hv := Nat.div_add_mod v 128
          calc result + v * 2 ^ i = result + (128 * (v / 128) + v % 128) * 2 ^ i := by rw [hv]
            _ = result + v % 128 * 2 ^ i + v / 128 * 2 ^ (i + 7) := by ring
        have hacc : result + v % 128 * 2 ^ i < 2 ^ (i + 7) := by
          have hg : v % 128 ≤ 127 := by omega
          have hmul := Nat.mul_le_mul_right (2 ^ i) hg
          rw [Nat.pow_add]
          omega
        have hdiv : v / 128 < 128 ^ (slots + 1) := by
          rw [Nat.div_lt_iff_lt_mul (by decide), ← Nat.pow_succ]
          exact hv
        rw [hsplit] at hw ⊢
        obtain ⟨bs, hbs, hreads⟩ := ih (v / 128) rounds (i + 7) _ hdiv (by omega) hacc hw
        obtain ⟨hcont, hgroup⟩ := group_byte v
        refine ⟨UInt8.ofNat (v % 128 + 128) :: bs, varintLoop_more hlast hbs, ?_⟩
        refine (reads_readFuint8 host e (UInt8.ofNat (v % 128 + 128))).bind ?_
        rw [if_neg hcont, hgroup, or_shiftLeft _ hr,
          Nat.mod_eq_of_lt (show result + v % 128 * 2 ^ i < 2 ^ w by omega)]
        exact hreads

theorem writeVarint_eq {mem : Nat → Nat → UInt8} {slots v : Nat} {bs : List UInt8}
    (h : varintLoop slots v = .ok bs) (ba : ByteArray) :
    writeVarint mem slots v ba = write mem bs ba := by
  rw [writeVarint, h]

/-- `tmp` is long enough for every word of `w` bits, and the reader makes enough rounds. -/
theorem varint_codec (mem : Nat → Nat → UInt8) (host e : Endian) (w slots : Nat) {v : Nat}
    (hv : v < 2 ^ w) (hslots : 2 ^ w ≤ 128 ^ (slots + 1)) (hrounds : slots < (w + 6) / 7) :
    ∃ bs, Writes e e (writeVarint mem (slots + 1) v) bs ∧ Reads e e (readVarint host w) bs v := by
  obtain ⟨bs, hbs, hreads⟩ := varintLoop_reads host e w slots v ((w + 6) / 7) 0 0
    (Nat.lt_of_lt_of_le hv hslots) hrounds (by decide) (by omega)
  refine ⟨bs, ?_, ?_⟩
  · have hop : writeVarint mem (slots + 1) v = write mem bs := funext (writeVarint_eq hbs)
    rw [hop]
    exact Writes.write mem bs
  · rwa [Nat.pow_zero, Nat.mul_one, Nat.zero_add] at hreads

theorem uint32_codec (mem : Nat → Nat → UInt8) (host e : Endian) (v : UInt32) :
    ∃ bs, Writes e e (writeUint32 mem v) bs ∧ Reads e e (readUint32 host) bs v := by
  obtain ⟨bs, hw, hr⟩ := varint_codec mem host e 32 4 v.toNat_lt
    (by decide) (by decide)
  refine ⟨bs, hw, ?_⟩
  have h := hr.map UInt32.ofNat
  rwa [UInt32.ofNat_toNat] at h

theorem uint64_codec (mem : Nat → Nat → UInt8) (host e : Endian) (v : UInt64) :
    ∃ bs, Writes e e (writeUint64 mem v) bs ∧ Reads e e (readUint64 host) bs v := by
  obtain ⟨bs, hw, hr⟩ := varint_codec mem host e 64 9 v.toNat_lt
    (by decide) (by decide)
  refine ⟨bs, hw, ?_⟩
  have h := hr.map UInt64.ofNat
  rwa [UInt64.ofNat_toNat] at h

/-- The source's zigzag code is the one on words, at `INT_MIN` too. -/
theorem toBitVec_encodeZigzag32 (v : Int32) :
    (encodeZigzag32 v).toBitVec = Lib.zigzag v.toBitVec := by
  unfold encodeZigzag32 Lib.zigzag
  have hneg : v < 0 ↔ v.toBitVec.msb = true := by
    rw [Int32.lt_iff_toInt_lt, BitVec.msb_eq_toInt]
    simp
  by_cases h : v < 0
  · rw [if_pos h, if_pos (hneg.mp h)]
    rfl
  · rw [if_neg h, if_neg (fun hm => h (hneg.mpr hm))]
    rfl

theorem decodeZigzag32_encodeZigzag32 (v : Int32) : decodeZigzag32 (encodeZigzag32 v) = v := by
  apply Int32.toBitVec_inj.mp
  show Lib.unzigzag (encodeZigzag32 v).toBitVec = v.toBitVec
  rw [toBitVec_encodeZigzag32, Lib.unzigzag_zigzag]

theorem toBitVec_encodeZigzag64 (v : Int64) :
    (encodeZigzag64 v).toBitVec = Lib.zigzag v.toBitVec := by
  unfold encodeZigzag64 Lib.zigzag
  have hneg : v < 0 ↔ v.toBitVec.msb = true := by
    rw [Int64.lt_iff_toInt_lt, BitVec.msb_eq_toInt]
    simp
  by_cases h : v < 0
  · rw [if_pos h, if_pos (hneg.mp h)]
    rfl
  · rw [if_neg h, if_neg (fun hm => h (hneg.mpr hm))]
    rfl

theorem decodeZigzag64_encodeZigzag64 (v : Int64) : decodeZigzag64 (encodeZigzag64 v) = v := by
  apply Int64.toBitVec_inj.mp
  show Lib.unzigzag (encodeZigzag64 v).toBitVec = v.toBitVec
  rw [toBitVec_encodeZigzag64, Lib.unzigzag_zigzag]

/-! ### Every operation -/

/-- The two's-complement bytes of `x`, in the order `e`. -/
def twosComplement (e : Endian) (n : Nat) (x : Int) : List UInt8 :=
  objectBytes e n (x % 2 ^ (8 * n)).toNat

/-- The bits of a word are its two's complement. -/
theorem toNat_emod_toInt {w : Nat} (x : BitVec w) : (x.toInt % 2 ^ w).toNat = x.toNat := by
  have hlt := x.isLt
  have hpow : (2 : Int) ^ w = ((2 ^ w : Nat) : Int) := by push_cast; rfl
  rw [BitVec.toInt_eq_toNat_bmod, hpow, Int.bmod_emod, ← Int.natCast_emod, Int.toNat_natCast,
    Nat.mod_eq_of_lt hlt]

theorem toNat_emod_natCast {w v : Nat} (hv : v < 2 ^ w) : ((v : Int) % 2 ^ w).toNat = v := by
  have hpow : (2 : Int) ^ w = ((2 ^ w : Nat) : Int) := by push_cast; rfl
  rw [hpow, ← Int.natCast_emod, Int.toNat_natCast, Nat.mod_eq_of_lt hv]

/-- A fixed-width write stores the two's-complement bytes in the order asked for. -/
theorem writes_twosComplement (mem : Nat → Nat → UInt8) (host e : Endian) (k : Kind)
    (v : k.Value) {n : Nat} {x : Int} (h : k.fixed v = some (n, x)) :
    Writes e e (k.write mem host v) (twosComplement e n x) := by
  unfold twosComplement
  cases k with
  | fint8 =>
      cases h
      rw [objectBytes_one]
      exact toNat_emod_toInt v.toBitVec ▸ writes_byte mem host e _
  | fuint8 =>
      cases h
      rw [objectBytes_one, toNat_emod_natCast v.toNat_lt]
      exact writes_byte mem host e _
  | fint16 => cases h; exact toNat_emod_toInt v.toBitVec ▸ writes_fixed mem host e 2 _
  | fuint16 => cases h; rw [toNat_emod_natCast v.toNat_lt]; exact writes_fixed mem host e 2 _
  | fint32 => cases h; exact toNat_emod_toInt v.toBitVec ▸ writes_fixed mem host e 4 _
  | fuint32 => cases h; rw [toNat_emod_natCast v.toNat_lt]; exact writes_fixed mem host e 4 _
  | fint64 => cases h; exact toNat_emod_toInt v.toBitVec ▸ writes_fixed mem host e 8 _
  | fuint64 => cases h; rw [toNat_emod_natCast v.toNat_lt]; exact writes_fixed mem host e 8 _
  | int32 => cases h
  | uint32 => cases h
  | int64 => cases h
  | uint64 => cases h
  | float => cases h; rw [toNat_emod_natCast v.toNat_lt]; exact writes_fixed mem host e 4 _
  | double => cases h; rw [toNat_emod_natCast v.toNat_lt]; exact writes_fixed mem host e 8 _

/-- The fixed-width pair for a value that is converted on its way, and back by `g`. -/
theorem fixed_codec {α : Type} (mem : Nat → Nat → UInt8) (host e : Endian) {n v : Nat} (hn : 0 < n)
    (hv : v < 256 ^ n) {g : Nat → α} {x : α} (hg : g v = x) :
    ∃ bs, Writes e e (writeFixed mem host n v) bs ∧
      Reads e e (readFixed host n >>= fun y => pure (g y)) bs x :=
  ⟨_, writes_fixed mem host e n v, hg ▸ (reads_fixed host e hn hv).map g⟩

/-- What a typed operation writes, its read consumes, and returns the value. -/
theorem kind_codec (mem : Nat → Nat → UInt8) (host e : Endian) (k : Kind) (v : k.Value) :
    ∃ bs, Writes e e (k.write mem host v) bs ∧ Reads e e (k.read host) bs v := by
  cases k with
  | fint8 =>
      refine ⟨[v.toUInt8], ?_, reads_byte host e UInt8.toInt8 v.toUInt8⟩
      have hw := writes_byte mem host e v.toUInt8.toNat
      rwa [UInt8.ofNat_toNat] at hw
  | fuint8 =>
      refine ⟨[v], ?_, reads_readFuint8 host e v⟩
      have hw := writes_byte mem host e v.toNat
      rwa [UInt8.ofNat_toNat] at hw
  | fint16 =>
      exact fixed_codec mem host e (n := 2) (by decide) v.toUInt16.toNat_lt
        (congrArg UInt16.toInt16 UInt16.ofNat_toNat)
  | fuint16 =>
      exact fixed_codec mem host e (n := 2) (by decide) v.toNat_lt UInt16.ofNat_toNat
  | fint32 =>
      exact fixed_codec mem host e (n := 4) (by decide) v.toUInt32.toNat_lt
        (congrArg UInt32.toInt32 UInt32.ofNat_toNat)
  | fuint32 =>
      exact fixed_codec mem host e (n := 4) (by decide) v.toNat_lt UInt32.ofNat_toNat
  | fint64 =>
      exact fixed_codec mem host e (n := 8) (by decide) v.toUInt64.toNat_lt
        (congrArg UInt64.toInt64 UInt64.ofNat_toNat)
  | fuint64 =>
      exact fixed_codec mem host e (n := 8) (by decide) v.toNat_lt UInt64.ofNat_toNat
  | int32 =>
      obtain ⟨bs, hw, hr⟩ := uint32_codec mem host e (encodeZigzag32 v)
      have h := hr.map decodeZigzag32
      rw [decodeZigzag32_encodeZigzag32] at h
      exact ⟨bs, hw, h⟩
  | uint32 => exact uint32_codec mem host e v
  | int64 =>
      obtain ⟨bs, hw, hr⟩ := uint64_codec mem host e (encodeZigzag64 v)
      have h := hr.map decodeZigzag64
      rw [decodeZigzag64_encodeZigzag64] at h
      exact ⟨bs, hw, h⟩
  | uint64 => exact uint64_codec mem host e v
  | float =>
      exact fixed_codec mem host e (n := 4) (by decide) v.toNat_lt UInt32.ofNat_toNat
  | double =>
      exact fixed_codec mem host e (n := 8) (by decide) v.toNat_lt UInt64.ofNat_toNat

/-! ### Mixed sequences -/

/-- The values of the items. -/
def Entry.values (es : List Entry) : List ((k : Kind) × k.Value) :=
  es.map fun e => ⟨e.kind, e.value⟩

/-- A mixed sequence: what the writes produce, the reads consume. The reads may start under any
byte order, since each item sets the one it needs. -/
theorem entries_codec (mem : Nat → Nat → UInt8) (host : Endian) :
    ∀ (es : List Entry) (e : Endian), ∃ bs e', Writes e e' (writeEntries mem host es) bs ∧
      ∀ e₁, ∃ e₁', Reads e₁ e₁' (readEntries host es) bs (Entry.values es) := by
  intro es
  induction es with
  | nil => intro e; exact ⟨[], e, Writes.pure, fun e₁ => ⟨e₁, Reads.pure []⟩⟩
  | cons x xs ih =>
      intro e
      obtain ⟨bs, hw, hr⟩ := kind_codec mem host (endianOf x.little) x.kind x.value
      obtain ⟨bss, e', hws, hrs⟩ := ih (endianOf x.little)
      refine ⟨[] ++ (bs ++ bss), e', ?_, ?_⟩
      · exact (Writes.setIsLittleEndian x.little).seq (hw.seq hws)
      · intro e₁
        -- Whatever order the reads start under, the first item sets its own.
        obtain ⟨e₁', hrs⟩ := hrs (endianOf x.little)
        refine ⟨e₁', (Reads.setIsLittleEndian x.little).bind (hr.bind ?_)⟩
        exact hrs.map fun vs => (⟨x.kind, x.value⟩ : (k : Kind) × k.Value) :: vs

/-- What was written stands in the chain at the old position. -/
theorem Refines.bytes_write {ba : ByteArray} {fb : FlatBuffer} {buf : List UInt8}
    (h : Refines ba (fb.write buf)) : (ba.bytes.drop fb.pos).take buf.length = buf := by
  have hdata := fb.drop_write buf
  rw [h.data_eq, List.drop_take] at hdata
  have hlen := congrArg List.length hdata
  rw [List.length_take, List.length_append] at hlen
  have htake := congrArg (List.take buf.length) hdata
  rwa [List.take_take, Nat.min_eq_left (by omega), List.take_left] at htake

/-- The typed operations round-trip. From every reachable array, writing any mixed sequence, each
item under its own byte order, seeking back and reading it returns the values and ends where the
writing ended. A fixed-width write stores the two's-complement bytes in the order asked for,
whatever the byte order of the host. -/
theorem typed_round_trip (mem : Nat → Nat → UInt8) (host : Endian) (b : Nat) (hb : 1 ≤ b)
    (ba : ByteArray) (hreach : Reachable mem b ba) :
    (∀ es : List Entry, ∃ ba₁ ba₂ ba₃, writeEntries mem host es ba = .ok () ba₁ ∧
      setPosition ba.position ba₁ = .ok () ba₂ ∧
      readEntries host es ba₂ = .ok (Entry.values es) ba₃ ∧ ba₃.position = ba₁.position) ∧
    ∀ (k : Kind) (v : k.Value) (n : Nat) (x : Int) (little : Bool), k.fixed v = some (n, x) →
      ∃ ba', (do setIsLittleEndian little; k.write mem host v) ba = .ok () ba' ∧
        (ba'.bytes.drop ba.position).take n =
          (if little then leBytes n (x % 2 ^ (8 * n)).toNat
            else (leBytes n (x % 2 ^ (8 * n)).toNat).reverse) ∧
        ba'.position = ba.position + n := by
  obtain ⟨hwf, -⟩ := hreach.wf hb
  obtain ⟨fb, hfb⟩ := hwf.refines
  have hpos := hfb.pos_eq
  refine ⟨?_, ?_⟩
  · intro es
    obtain ⟨bs, e', hw, hr⟩ := entries_codec mem host es ba.endian
    obtain ⟨ba₁, hrun₁, h₁, -⟩ := hw ba fb hfb rfl
    -- The old position lies in the data, because the writes only extend it.
    have hle : fb.pos ≤ (fb.write bs).data.length :=
      Nat.le_trans (Nat.le_add_right _ _) (fb.write bs).pos_le
    obtain ⟨fb₂, ba₂, hset, hrun₂, h₂⟩ := refines_setPosition h₁ (h₁.length_data ▸ hle)
    rw [FlatBuffer.setPosition, dif_pos hle] at hset
    cases hset
    obtain ⟨e₂, hr⟩ := hr ba₂.endian
    obtain ⟨ba₃, fb₃, hrun₃, h₃, -, -, hpos₃⟩ := hr ba₂ _ _ h₂ rfl (fb.drop_write bs)
    refine ⟨ba₁, ba₂, ba₃, hrun₁, hpos ▸ hrun₂, hrun₃, ?_⟩
    rw [← h₃.pos_eq, hpos₃, ← h₁.pos_eq]
    rfl
  · intro k v n x little hk
    have hw := (Writes.setIsLittleEndian (e := ba.endian) little).seq
      (f := fun _ => k.write mem host v)
      (writes_twosComplement mem host (endianOf little) k v hk)
    obtain ⟨ba', hrun, h', -⟩ := hw ba fb hfb rfl
    rw [List.nil_append] at h'
    have hlen : (twosComplement (endianOf little) n x).length = n := length_objectBytes _ _ _
    have hbytes := h'.bytes_write
    rw [hlen, hpos] at hbytes
    refine ⟨ba', hrun, ?_, ?_⟩
    · rw [hbytes]
      cases little <;> rfl
    · rw [← h'.pos_eq, ← hpos]
      show fb.pos + (twosComplement (endianOf little) n x).length = _
      rw [hlen]

/-- A mixed sequence in blocks of three on a big-endian host, with the least `int32_t` as a
zigzag code, and the bytes of a negative `int16_t` in both orders. -/
theorem typed_round_trip_mixed :
    (∃ ba₁ ba₂ ba₃,
      writeEntries (fun _ _ => 0) .big
          [⟨.fint16, -2, true⟩, ⟨.int32, -2147483648, false⟩, ⟨.uint64, 300, false⟩,
            ⟨.double, 7, true⟩] (new (fun _ _ => 0) 3) = .ok () ba₁ ∧
      setPosition 0 ba₁ = .ok () ba₂ ∧
      readEntries .big
          [⟨.fint16, -2, true⟩, ⟨.int32, -2147483648, false⟩, ⟨.uint64, 300, false⟩,
            ⟨.double, 7, true⟩] ba₂
        = .ok [⟨.fint16, -2⟩, ⟨.int32, -2147483648⟩, ⟨.uint64, 300⟩, ⟨.double, 7⟩] ba₃ ∧
      ba₃.position = ba₁.position) ∧
    ∃ ba', (do setIsLittleEndian true; Kind.write (fun _ _ => 0) .big .fint16 (-2))
        (new (fun _ _ => 0) 3) = .ok () ba' ∧
      (ba'.bytes.drop 0).take 2 = [254, 255] ∧ ba'.position = 0 + 2 :=
  have h := typed_round_trip (fun _ _ => 0) .big 3 (by decide) (new (fun _ _ => 0) 3) ⟨[], rfl⟩
  have hbytes := h.2 .fint16 (-2) 2 (-2) true (by decide)
  ⟨h.1 _, hbytes.imp fun _ hba => ⟨hba.1, hba.2.1.trans (by decide), hba.2.2⟩⟩

end Sylar.ByteArray
