import Sylar.Proofs.ByteArray.Failures

/-!
# `Sylar.Proofs.ByteArray.Varint`: varints of any bytes

`decodeVarint` follows the loop of the reader. `decodeVarint_eq` says in numbers what it finds: the
bytes up to the first one without the continuation bit, and the sum of their groups. The last round
ends a varint whatever its byte is, so this also covers bytes that no writer has made.

The writer stops at the first group that is all that is left. So a value below `2 ^ (7 * n)` takes
at most `n` bytes (`varintLoop_ok`), and the bytes do not depend on the length of `tmp`
(`varintLoop_mono`). That makes the two widths agree, and no varint of the value is shorter.
-/

set_option autoImplicit false

namespace Sylar.ByteArray

open Lib

/-! ### The value of bytes -/

section
variable {b : UInt8} {bs : List UInt8} {n v : Nat}

theorem varintSum_succ (n : Nat) (b : UInt8) (bs : List UInt8) :
    varintSum (n + 1) (b :: bs) = b.toNat % 128 + 128 * varintSum n bs := by
  have hstep : ∀ i, ((b :: bs).getD (i + 1) 0 &&& 0x7f).toNat * 2 ^ (7 * (i + 1))
      = 128 * ((bs.getD i 0 &&& 0x7f).toNat * 2 ^ (7 * i)) := by
    intro i
    rw [List.getD_cons_succ]
    ring
  rw [varintSum, Finset.sum_range_succ', Finset.sum_congr rfl fun i _ => hstep i, ← Finset.mul_sum,
    List.getD_cons_zero, toNat_and_low]
  show 128 * varintSum n bs + b.toNat % 128 * 2 ^ 0 = _
  omega

/-- `n` groups have `7 n` bits. -/
theorem varintSum_lt (n : Nat) (bs : List UInt8) : varintSum n bs < 2 ^ (7 * n) := by
  induction n generalizing bs with
  | zero => exact Nat.one_pos
  | succ n ih =>
      cases bs with
      | nil =>
          have hzero : varintSum (n + 1) [] = 0 := by simp [varintSum]
          rw [hzero]
          exact Nat.two_pow_pos _
      | cons b bs =>
          have hrest := ih bs
          have hpow : 2 ^ (7 * (n + 1)) = 128 * 2 ^ (7 * n) := by ring
          rw [varintSum_succ, hpow]
          omega

theorem varintSize_cons (rounds : Nat) (hb : ¬ b < 0x80) :
    varintSize (rounds + 1) (b :: bs) = varintSize rounds bs + 1 := by
  rw [varintSize, varintSize, List.findIdx_cons, decide_eq_false hb, cond_false]
  omega

theorem varintSize_last (rounds : Nat) (hb : b < 0x80) :
    varintSize (rounds + 1) (b :: bs) = 1 := by
  rw [varintSize, List.findIdx_cons, decide_eq_true hb, cond_true]
  omega

theorem decodeVarint_eq : ∀ (rounds : Nat) (bs : List UInt8), decodeVarint rounds bs =
    if varintSize rounds bs ≤ bs.length then
      some (varintSize rounds bs, varintSum (varintSize rounds bs) bs)
    else none := by
  intro rounds
  induction rounds with
  | zero =>
      intro bs
      have hsize : varintSize 0 bs = 0 := Nat.zero_min _
      rw [hsize, if_pos (Nat.zero_le _)]
      rfl
  | succ rounds ih =>
      intro bs
      cases bs with
      | nil =>
          have hsize : varintSize (rounds + 1) [] = 1 := Nat.min_eq_right (Nat.le_add_left 1 rounds)
          rw [hsize]
          rfl
      | cons b bs =>
          rw [decodeVarint]
          by_cases hb : b < 0x80
          · have hlow : b.toNat % 128 = b.toNat := Nat.mod_eq_of_lt hb
            have hsum : varintSum 1 (b :: bs) = b.toNat := by
              rw [varintSum_succ, hlow]
              rfl
            rw [if_pos hb, varintSize_last rounds hb, hsum, List.length_cons,
              if_pos (Nat.le_add_left 1 bs.length)]
          · rw [if_neg hb, varintSize_cons rounds hb, ih bs, varintSum_succ, List.length_cons]
            by_cases hle : varintSize rounds bs ≤ bs.length
            · rw [if_pos hle, if_pos (Nat.succ_le_succ hle)]
            · rw [if_neg hle, if_neg fun h => hle (Nat.le_of_succ_le_succ h)]

end

/-! ### Reads -/

section
variable {α : Type} {ba : ByteArray} {g : Nat → α} {toNat : α → Nat} {op : Op α} {w : Nat}

/-- A read of a varint, whatever its bytes are. -/
theorem HeadRead.readsVarint (hop : HeadRead (.varint w) op g)
    (hg : ∀ v < 2 ^ w, toNat (g v) = v) (hwf : Wf ba) :
    ReadsVarint ((w + 6) / 7) w toNat op ba := by
  intro hle
  have hdecode : (Head.varint w).decode ba.endian ba.available =
      some (varintSize ((w + 6) / 7) ba.available,
        varintSum (varintSize ((w + 6) / 7) ba.available) ba.available % 2 ^ w) := by
    rw [Head.decode, decodeVarint_eq, if_pos hle]
    rfl
  obtain ⟨-, -, -, ba', hrun, hs⟩ := hop.ok hwf hdecode
  obtain ⟨cur, rfl⟩ := hs.eq
  exact ⟨_, cur, hrun, hg _ (Nat.mod_lt _ (Nat.two_pow_pos w))⟩

theorem readsVarint_readUint32 (host : Endian) (hwf : Wf ba) :
    ReadsVarint 5 32 UInt32.toNat (readUint32 host) ba :=
  ((headRead_readVarint host (show 0 < 32 by decide)).map UInt32.ofNat).readsVarint
    (fun _ hv => UInt32.toNat_ofNat_of_lt' hv) hwf

theorem readsVarint_readUint64 (host : Endian) (hwf : Wf ba) :
    ReadsVarint 10 64 UInt64.toNat (readUint64 host) ba :=
  ((headRead_readVarint host (show 0 < 64 by decide)).map UInt64.ofNat).readsVarint
    (fun _ hv => UInt64.toNat_ofNat_of_lt' hv) hwf

end

/-! ### Writes -/

/-- A value of up to `7 (k + 1)` bits. The last byte is the first without the continuation bit. -/
theorem varintLoop_ok : ∀ (slots v k : Nat), v < 2 ^ (7 * (k + 1)) → k < slots →
    ∃ tmp, varintLoop slots v = .ok tmp ∧ tmp.length ≤ k + 1 ∧
      1 + tmp.findIdx (· < 0x80) = tmp.length ∧ varintSum tmp.length tmp = v := by
  intro slots
  induction slots with
  | zero =>
      intro v k _ hk
      exact absurd hk (Nat.not_lt_zero k)
  | succ slots ih =>
      intro v k hv hk
      by_cases hlast : v < 128
      · obtain ⟨hbyte, hend⟩ := last_byte hlast
        refine ⟨[UInt8.ofNat v], varintLoop_last slots hlast, ?_, ?_, ?_⟩
        · exact Nat.succ_le_succ (Nat.zero_le k)
        · rw [List.findIdx_cons, decide_eq_true hend]
          rfl
        · show varintSum 1 _ = v
          rw [varintSum_succ, hbyte]
          show v % 128 + 128 * 0 = v
          omega
      · -- the low group takes a byte, and the value that is left has seven bits less
        have hk' : k ≠ 0 := by
          rintro rfl
          exact hlast hv
        obtain ⟨k, rfl⟩ := Nat.exists_eq_succ_of_ne_zero hk'
        have hdiv : v / 128 < 2 ^ (7 * (k + 1)) := by
          have hpow : 2 ^ (7 * (k + 1 + 1)) = 2 ^ (7 * (k + 1)) * 128 := by ring
          rw [Nat.div_lt_iff_lt_mul (by decide), ← hpow]
          exact hv
        obtain ⟨tmp, hrun, hlen, hidx, hsum⟩ := ih (v / 128) k hdiv (by omega)
        obtain ⟨hcont, hgroup⟩ := group_byte v
        refine ⟨UInt8.ofNat (v % 128 + 128) :: tmp, varintLoop_more hlast hrun,
          Nat.succ_le_succ hlen, ?_, ?_⟩
        · rw [List.findIdx_cons, decide_eq_false hcont, cond_false, List.length_cons]
          omega
        · rw [List.length_cons, varintSum_succ, hsum, ← toNat_and_low, hgroup]
          omega

/-- A longer `tmp` gets the same bytes. -/
theorem varintLoop_mono {tmp : List UInt8} : ∀ (slots slots' v : Nat), slots ≤ slots' →
    varintLoop slots v = .ok tmp → varintLoop slots' v = .ok tmp := by
  intro slots
  induction slots generalizing tmp with
  | zero =>
      intro slots' v _ hrun
      cases hrun
  | succ slots ih =>
      intro slots' v hle hrun
      obtain ⟨slots', rfl⟩ := Nat.exists_eq_succ_of_ne_zero (Nat.ne_zero_of_lt hle)
      rw [varintLoop] at hrun ⊢
      split at hrun
      case isFalse h =>
        rw [if_neg h]
        exact hrun
      case isTrue h =>
        rw [if_pos h]
        cases hrest : varintLoop slots (v >>> 7) with
        | error e =>
            rw [hrest] at hrun
            cases hrun
        | ok rest =>
            rw [hrest] at hrun
            rw [ih slots' _ (Nat.le_of_succ_le_succ hle) hrest]
            exact hrun

section
variable (mem : Nat → Nat → UInt8) {slots w v : Nat}

/-- No varint of `v` is shorter, since fewer than `slots` groups have at most `w` bits. -/
theorem writesShortest_writeVarint (hw : w ≤ 7 * (slots + 1)) (hslots : 7 * slots ≤ w)
    (hv : v < 2 ^ w) :
    WritesShortest mem (slots + 1) w v (writeVarint mem (slots + 1) v) := by
  obtain ⟨tmp, hrun, hlen, hidx, hsum⟩ := varintLoop_ok (slots + 1) v slots
    (Nat.lt_of_lt_of_le hv (Nat.pow_le_pow_right (by decide) hw)) (Nat.lt_succ_self slots)
  refine ⟨tmp, hrun, funext (writeVarint_eq hrun), hlen, ⟨?_, ?_⟩, ?_⟩
  · rw [varintSize, hidx]
    exact Nat.min_eq_right hlen
  · rw [hsum, Nat.mod_eq_of_lt hv]
  · rintro bs ⟨hsize, hvalue⟩
    by_cases hfull : slots + 1 ≤ bs.length
    · exact Nat.le_trans hlen hfull
    · -- the sum of `bs` is `v` itself, so that the loop ends behind as many bytes
      have hpos : bs.length ≠ 0 := by
        rw [← hsize, varintSize]
        omega
      obtain ⟨k, hk⟩ := Nat.exists_eq_succ_of_ne_zero hpos
      have hbits : varintSum bs.length bs < 2 ^ w :=
        Nat.lt_of_lt_of_le (varintSum_lt _ bs) (Nat.pow_le_pow_right (by decide) (by omega))
      rw [Nat.mod_eq_of_lt hbits] at hvalue
      have hsmall : v < 2 ^ (7 * (k + 1)) := by
        rw [← hvalue, hk]
        exact varintSum_lt _ bs
      obtain ⟨tmp', hrun', hlen', -⟩ := varintLoop_ok (slots + 1) v k hsmall (by omega)
      rw [hrun] at hrun'
      cases hrun'
      omega

/-- The bytes of a value that fits in the shorter `tmp`. -/
theorem writeVarint_congr {slots' : Nat} (hv : v < 2 ^ (7 * (slots + 1)))
    (hle : slots + 1 ≤ slots') :
    writeVarint mem slots' v = writeVarint mem (slots + 1) v := by
  obtain ⟨tmp, hrun, -⟩ := varintLoop_ok (slots + 1) v slots hv (Nat.lt_succ_self slots)
  funext ba
  rw [writeVarint_eq hrun, writeVarint_eq (varintLoop_mono _ _ _ hle hrun)]

theorem writeUint64_toUInt64 (v : UInt32) : writeUint64 mem v.toUInt64 = writeUint32 mem v := by
  rw [writeUint64, writeUint32, UInt32.toNat_toUInt64]
  exact writeVarint_congr mem (Nat.lt_trans v.toNat_lt (by decide)) (by decide)

end

/-! ### The zigzag codes -/

theorem encodeZigzag32_decodeZigzag32 (v : UInt32) : encodeZigzag32 (decodeZigzag32 v) = v := by
  apply UInt32.toBitVec_inj.mp
  rw [toBitVec_encodeZigzag32]
  exact zigzag_unzigzag v.toBitVec

theorem encodeZigzag64_decodeZigzag64 (v : UInt64) : encodeZigzag64 (decodeZigzag64 v) = v := by
  apply UInt64.toBitVec_inj.mp
  rw [toBitVec_encodeZigzag64]
  exact zigzag_unzigzag v.toBitVec

/-- The code of a number does not depend on the width. -/
theorem encodeZigzag64_toInt64 (v : Int32) :
    encodeZigzag64 v.toInt64 = (encodeZigzag32 v).toUInt64 := by
  have hsame : v.toInt64.toBitVec.toInt = v.toBitVec.toInt := Int32.toInt_toInt64 v
  have h64 := toNat_zigzag v.toInt64.toBitVec
  have h32 := toNat_zigzag v.toBitVec
  rw [hsame, ← h32, ← toBitVec_encodeZigzag64, ← toBitVec_encodeZigzag32] at h64
  apply UInt64.toNat_inj.mp
  rw [UInt32.toNat_toUInt64]
  exact_mod_cast h64

/-- Both widths read every varint that is there as the sum of its groups, and write the shortest
one. They write the same bytes for the same number, and the zigzag codes are inverse to each other.
-/
theorem varint_exact (mem : Nat → Nat → UInt8) (b : Nat) (hb : 1 ≤ b) (ba : ByteArray)
    (hreach : Reachable mem b ba) (host : Endian) :
    (ReadsVarint 5 32 UInt32.toNat (readUint32 host) ba ∧
      ReadsVarint 10 64 UInt64.toNat (readUint64 host) ba) ∧
    ((∀ v : UInt32, WritesShortest mem 5 32 v.toNat (writeUint32 mem v)) ∧
      (∀ v : UInt64, WritesShortest mem 10 64 v.toNat (writeUint64 mem v)) ∧
      ∀ v : UInt32, writeUint64 mem v.toUInt64 = writeUint32 mem v) ∧
    (∀ v : Int32, encodeZigzag64 v.toInt64 = (encodeZigzag32 v).toUInt64 ∧
      writeInt64 mem v.toInt64 = writeInt32 mem v) ∧
    ((∀ v, decodeZigzag32 (encodeZigzag32 v) = v) ∧ ∀ v, encodeZigzag32 (decodeZigzag32 v) = v) ∧
    (∀ v, decodeZigzag64 (encodeZigzag64 v) = v) ∧ ∀ v, encodeZigzag64 (decodeZigzag64 v) = v := by
  obtain ⟨hwf, -⟩ := hreach.wf hb
  refine ⟨⟨readsVarint_readUint32 host hwf, readsVarint_readUint64 host hwf⟩,
    ⟨fun v => ?_, fun v => ?_, writeUint64_toUInt64 mem⟩, fun v => ⟨encodeZigzag64_toInt64 v, ?_⟩,
    ⟨decodeZigzag32_encodeZigzag32, encodeZigzag32_decodeZigzag32⟩,
    decodeZigzag64_encodeZigzag64, encodeZigzag64_decodeZigzag64⟩
  · exact writesShortest_writeVarint mem (by decide) (by decide) v.toNat_lt
  · exact writesShortest_writeVarint mem (by decide) (by decide) v.toNat_lt
  · rw [writeInt64, encodeZigzag64_toInt64, writeUint64_toUInt64]
    rfl

/-- Six bytes that all have the continuation bit: five are taken, and the bits of the fifth above
the word are lost. -/
theorem varint_exact_overlong :
    ∃ ba, Reachable (fun _ _ => 0) 2 ba ∧ ba.available = [0xff, 0xff, 0xff, 0xff, 0xff, 0xff] ∧
      ∃ v cur, readUint32 .little ba = .ok v { ba with position := 5, cur := cur } ∧
        v.toNat = 4294967295 := by
  have hreach : Reachable (fun _ _ => 0) 2 _ :=
    ⟨[.write [0xff, 0xff, 0xff, 0xff, 0xff, 0xff], .setPosition 0], rfl⟩
  obtain ⟨⟨hread, -⟩, -⟩ := varint_exact (fun _ _ => 0) 2 (by decide) _ hreach .little
  exact ⟨_, hreach, rfl, hread (by decide)⟩

end Sylar.ByteArray
