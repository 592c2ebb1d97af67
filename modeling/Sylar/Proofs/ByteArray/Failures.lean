import Sylar.Proofs.ByteArray.Strings
import Sylar.Spec.ByteArrayReads

/-!
# `Sylar.Proofs.ByteArray.Failures`: reads that throw

A typed read first takes the bytes of a number (`HeadRead`). A number of fixed width is taken in one
step, so that it is there or nothing is taken. A varint is taken byte by byte, and when the bytes end
inside it all of them are gone. A string takes its length before it asks for its bytes, so that the
position stays behind the length when they are missing.

So a read that throws changes nothing exactly when the first step fails (`failsCleanly_iff`).
-/

set_option autoImplicit false

namespace Sylar.ByteArray

open Lib

section
variable {ba ba' : ByteArray} {n : Nat}

/-! ### The position moved over some bytes -/

/-- `ba'` is `ba` with the position behind the next `n` bytes. -/
structure Skipped (ba : ByteArray) (n : Nat) (ba' : ByteArray) : Prop where
  wf : Wf ba'
  eq : ∃ cur, ba' = { ba with position := ba.position + n, cur := cur }

theorem Skipped.refl (h : Wf ba) : Skipped ba 0 ba := ⟨h, ba.cur, rfl⟩

/-- The cursor is that of the position, so no byte is no change. -/
theorem Skipped.eq_of_zero (h : Wf ba) (hs : Skipped ba 0 ba') : ba' = ba := by
  obtain ⟨hwf, cur, rfl⟩ := hs
  have hcur : cur = ba.cur := hwf.cur_eq.trans h.cur_eq.symm
  rw [hcur]
  rfl

theorem Skipped.ne_of_pos (hs : Skipped ba n ba') (hn : 0 < n) : ba' ≠ ba := by
  obtain ⟨-, cur, rfl⟩ := hs
  intro heq
  have hpos : ba.position + n = ba.position := congrArg ByteArray.position heq
  omega

theorem Skipped.trans {ba'' : ByteArray} {m : Nat} (hs : Skipped ba n ba')
    (hs' : Skipped ba' m ba'') :
    Skipped ba (n + m) ba'' := by
  obtain ⟨-, cur, rfl⟩ := hs
  obtain ⟨hwf, cur', rfl⟩ := hs'
  exact ⟨hwf, cur', by simp only [Nat.add_assoc]⟩

theorem Skipped.available_eq (hs : Skipped ba n ba') : ba'.available = ba.available.drop n := by
  obtain ⟨-, cur, rfl⟩ := hs
  show (ba.bytes.take ba.size).drop (ba.position + n) = _
  rw [available, List.drop_drop]

theorem Skipped.position_eq (hs : Skipped ba n ba') : ba'.position = ba.position + n := by
  obtain ⟨-, cur, rfl⟩ := hs
  rfl

theorem Skipped.capacity_eq (hs : Skipped ba n ba') : ba'.capacity = ba.capacity := by
  obtain ⟨-, cur, rfl⟩ := hs
  rfl

theorem Skipped.endian_eq (hs : Skipped ba n ba') : ba'.endian = ba.endian := by
  obtain ⟨-, cur, rfl⟩ := hs
  rfl

theorem Wf.length_available (h : Wf ba) : ba.available.length = ba.getReadSize := by
  have hsize := h.size_le
  rw [available, List.length_drop, List.length_take, h.length_bytes, h.getReadSize_eq]
  omega

/-- Readable bytes, at least one of them. -/
theorem read_available (h : Wf ba) (hn : 0 < n) (hle : n ≤ ba.available.length) :
    ∃ ba', read n ba = .ok (ba.available.take n) ba' ∧ Skipped ba n ba' := by
  have hread := h.getReadSize_eq
  have hpos := h.pos_le
  have hsize := h.size_le
  rw [h.length_available] at hle
  obtain ⟨cur, hrun, hwf⟩ := read_ok h hle (by omega)
  refine ⟨_, ?_, hwf, cur, rfl⟩
  rw [hrun, available, List.drop_take, List.take_take, Nat.min_eq_left (by omega)]

end

/-! ### The number -/

/-- `op` reads the number `h` and returns `g` of it. When the readable bytes end inside it, `op`
throws, and has taken no byte exactly when the first step failed. -/
structure HeadRead {α : Type} (h : Head) (op : Op α) (g : Nat → α) : Prop where
  ok {ba : ByteArray} {n v : Nat} (hwf : Wf ba)
    (hdecode : h.decode ba.endian ba.available = some (n, v)) :
    0 < n ∧ h.first ≤ n ∧ n ≤ ba.available.length ∧ ∃ ba', op ba = .ok (g v) ba' ∧ Skipped ba n ba'
  error {ba : ByteArray} (hwf : Wf ba) (hdecode : h.decode ba.endian ba.available = none) :
    ∃ n ba', op ba = .error .outOfRange ba' ∧ Skipped ba n ba' ∧
      (n = 0 ↔ ba.available.length < h.first)

section
variable {α β : Type} {h : Head} {op : Op α} {g g' : Nat → α}

/-- A function of the number. -/
theorem HeadRead.map (hop : HeadRead h op g) (f : α → β) :
    HeadRead h (do let v ← op; pure (f v)) (fun v => f (g v)) where
  ok hwf hdecode := by
    obtain ⟨hpos, hfirst, hle, ba', hrun, hs⟩ := hop.ok hwf hdecode
    exact ⟨hpos, hfirst, hle, ba', estate_bind_ok hrun, hs⟩
  error hwf hdecode := by
    obtain ⟨n, ba', hrun, hrest⟩ := hop.error hwf hdecode
    exact ⟨n, ba', estate_bind_error hrun, hrest⟩

/-- Only the values that the decoder returns matter. -/
theorem HeadRead.congr (hop : HeadRead h op g)
    (hg : ∀ e bs n v, h.decode e bs = some (n, v) → g v = g' v) : HeadRead h op g' where
  ok hwf hdecode := by
    rw [← hg _ _ _ _ hdecode]
    exact hop.ok hwf hdecode
  error := hop.error

end

/-! ### Fixed width -/

section
variable {e : Endian} {bs : List UInt8} {n m v : Nat}

theorem decode_fixed_eq_some (h : (Head.fixed n).decode e bs = some (m, v)) :
    m = n ∧ n ≤ bs.length ∧ v = ofObjectBytes e (bs.take n) := by
  rw [Head.decode] at h
  split at h
  case isTrue hle =>
    cases h
    exact ⟨rfl, hle, rfl⟩
  case isFalse => cases h

theorem decode_fixed_eq_none (h : (Head.fixed n).decode e bs = none) : bs.length < n := by
  rw [Head.decode] at h
  split at h
  case isTrue => cases h
  case isFalse hle => exact Nat.lt_of_not_le hle

theorem ofObjectBytes_lt (e : Endian) (bs : List UInt8) : ofObjectBytes e bs < 256 ^ bs.length := by
  cases e with
  | little => exact ofLE_lt bs
  | big => simpa [ofObjectBytes] using ofLE_lt bs.reverse

/-- The swap of the read gives the value in the order of the array. -/
theorem ofObjectBytes_read (host e : Endian) (hlen : bs.length = n) :
    (if e = host then ofObjectBytes host bs else byteswap n (ofObjectBytes host bs))
      = ofObjectBytes e bs := by
  subst hlen
  have hsame := leBytes_ofLE bs
  have hreverse := leBytes_ofLE bs.reverse
  rw [List.length_reverse] at hreverse
  cases host <;> cases e <;> simp [ofObjectBytes, byteswap, hsame, hreverse]

/-- Bytes that are taken at once. -/
theorem headRead_fixed {α : Type} (hn : 0 < n) {f : List UInt8 → Op α} {g : Nat → α}
    (hf : ∀ ba bs, bs.length = n → f bs ba = .ok (g (ofObjectBytes ba.endian bs)) ba) :
    HeadRead (.fixed n) (read n >>= f) g where
  ok {ba m v} hwf hdecode := by
    obtain ⟨rfl, hle, rfl⟩ := decode_fixed_eq_some hdecode
    obtain ⟨ba', hrun, hs⟩ := read_available hwf hn hle
    refine ⟨hn, Nat.le_refl _, hle, ba', ?_, hs⟩
    rw [estate_bind_ok hrun, hf, hs.endian_eq]
    rw [List.length_take, Nat.min_eq_left hle]
  error {ba} hwf hdecode := by
    have hlt := decode_fixed_eq_none hdecode
    have hshort : ba.getReadSize < n := by rwa [← hwf.length_available]
    exact ⟨0, ba, estate_bind_error (read_outOfRange hshort), .refl hwf, iff_of_true rfl hlt⟩

theorem headRead_readFixed (host : Endian) (hn : 0 < n) :
    HeadRead (.fixed n) (readFixed host n) fun v => v := by
  refine headRead_fixed hn fun ba bs hlen => ?_
  rw [estate_bind_ok (estate_get ba), ofObjectBytes_read host ba.endian hlen]
  rfl

/-- One byte has one order. -/
theorem headRead_byte {α : Type} (host : Endian) (f : Nat → α) :
    HeadRead (.fixed 1) (do let bs ← read 1; pure (f (ofObjectBytes host bs))) f := by
  refine headRead_fixed Nat.one_pos fun ba bs hlen => ?_
  obtain ⟨b, rfl⟩ := List.length_eq_one_iff.mp hlen
  have hone : ofObjectBytes host [b] = ofObjectBytes ba.endian [b] := by
    cases host <;> cases ba.endian <;> rfl
  rw [hone]
  rfl

end

/-! ### Varints -/

section
variable {ba : ByteArray} {bs : List UInt8} {b : UInt8}

theorem decodeVarint_size : ∀ (rounds : Nat) (bs : List UInt8) (n v : Nat),
    decodeVarint rounds bs = some (n, v) → n ≤ bs.length ∧ (0 < rounds → 0 < n) := by
  intro rounds
  induction rounds with
  | zero =>
      intro bs n v h
      cases h
      exact ⟨Nat.zero_le _, id⟩
  | succ rounds ih =>
      intro bs n v h
      cases bs with
      | nil => cases h
      | cons b bs =>
          rw [decodeVarint] at h
          split at h
          · cases h
            exact ⟨Nat.succ_le_succ (Nat.zero_le _), fun _ => Nat.one_pos⟩
          · split at h
            · cases h
            · next m u hrest =>
              cases h
              exact ⟨Nat.succ_le_succ (ih bs m u hrest).1, fun _ => Nat.succ_pos m⟩

theorem readFuint8_cons (host : Endian) (h : Wf ba) (havail : ba.available = b :: bs) :
    ∃ ba', readFuint8 host ba = .ok b ba' ∧ Skipped ba 1 ba' ∧ ba'.available = bs := by
  obtain ⟨ba', hrun, hs⟩ := read_available h Nat.one_pos (by rw [havail]; exact Nat.succ_pos _)
  refine ⟨ba', ?_, hs, by rw [hs.available_eq, havail]; rfl⟩
  rw [readFuint8, estate_bind_ok hrun, havail]
  have hvalue : UInt8.ofNat (ofObjectBytes host [b]) = b := by
    have hnat : ofObjectBytes host [b] = b.toNat := by cases host <;> simp [ofObjectBytes, ofLE]
    rw [hnat, UInt8.ofNat_toNat]
  exact congrArg (fun c => EStateM.Result.ok c ba') hvalue

theorem readFuint8_nil (host : Endian) (h : Wf ba) (havail : ba.available = []) :
    readFuint8 host ba = .error .outOfRange ba := by
  refine estate_bind_error (read_outOfRange ?_)
  rw [← h.length_available, havail]
  exact Nat.one_pos

/-- The bits of a group. -/
theorem toNat_and_low (b : UInt8) : (b &&& 0x7f).toNat = b.toNat % 128 := by
  rw [UInt8.toNat_and]
  exact Nat.and_two_pow_sub_one_eq_mod b.toNat 7

/-- The loop on a complete varint. The bits below `i` are set. -/
theorem readVarintLoop_ok (host : Endian) (w : Nat) : ∀ (rounds i result n v : Nat) (ba : ByteArray),
    Wf ba → decodeVarint rounds ba.available = some (n, v) → result < 2 ^ i → result < 2 ^ w →
    ∃ ba', readVarintLoop host w rounds i result ba = .ok ((result + v * 2 ^ i) % 2 ^ w) ba' ∧
      Skipped ba n ba' := by
  intro rounds
  induction rounds with
  | zero =>
      intro i result n v ba hwf hdecode _ hw
      cases hdecode
      refine ⟨ba, ?_, .refl hwf⟩
      rw [Nat.zero_mul, Nat.add_zero, Nat.mod_eq_of_lt hw]
      rfl
  | succ rounds ih =>
      intro i result n v ba hwf hdecode hi hw
      cases havail : ba.available with
      | nil =>
          rw [havail] at hdecode
          cases hdecode
      | cons b bs =>
          rw [havail, decodeVarint] at hdecode
          obtain ⟨ba₁, hbyte, hs₁, havail₁⟩ := readFuint8_cons host hwf havail
          rw [readVarintLoop, estate_bind_ok hbyte]
          by_cases hb : b < 0x80
          · rw [if_pos hb] at hdecode ⊢
            cases hdecode
            refine ⟨ba₁, ?_, hs₁⟩
            rw [or_shiftLeft b.toNat hi]
            rfl
          · rw [if_neg hb] at hdecode ⊢
            split at hdecode
            · cases hdecode
            · next m u hrest =>
              cases hdecode
              -- the bits of this group lie below `i + 7`, where the next round sets its own
              have hgroup : (result + b.toNat % 128 * 2 ^ i) % 2 ^ w < 2 ^ (i + 7) := by
                have hle : (b.toNat % 128 + 1) * 2 ^ i ≤ 128 * 2 ^ i :=
                  Nat.mul_le_mul_right _ (by omega)
                have hmod := Nat.mod_le (result + b.toNat % 128 * 2 ^ i) (2 ^ w)
                rw [Nat.pow_add]
                rw [Nat.add_mul] at hle
                omega
              rw [toNat_and_low, or_shiftLeft _ hi]
              obtain ⟨ba', hrun, hs'⟩ := ih (i + 7) _ m u ba₁ hs₁.wf (by rw [havail₁, hrest])
                hgroup (Nat.mod_lt _ (Nat.two_pow_pos w))
              refine ⟨ba', ?_, Nat.add_comm 1 m ▸ hs₁.trans hs'⟩
              rw [hrun, Nat.mod_add_mod]
              congr 2
              rw [Nat.pow_add]
              ring

/-- The loop on a varint that is not complete takes all bytes there are. -/
theorem readVarintLoop_error (host : Endian) (w : Nat) : ∀ (rounds i result : Nat) (ba : ByteArray),
    Wf ba → decodeVarint rounds ba.available = none →
    ∃ ba', readVarintLoop host w rounds i result ba = .error .outOfRange ba' ∧
      Skipped ba ba.available.length ba' := by
  intro rounds
  induction rounds with
  | zero =>
      intro i result ba _ hdecode
      cases hdecode
  | succ rounds ih =>
      intro i result ba hwf hdecode
      cases havail : ba.available with
      | nil => exact ⟨ba, estate_bind_error (readFuint8_nil host hwf havail), .refl hwf⟩
      | cons b bs =>
          rw [havail, decodeVarint] at hdecode
          split at hdecode
          case isTrue => cases hdecode
          case isFalse hb =>
            obtain ⟨ba₁, hbyte, hs₁, havail₁⟩ := readFuint8_cons host hwf havail
            have hrest : decodeVarint rounds ba₁.available = none := by
              rw [havail₁]
              split at hdecode
              · assumption
              · cases hdecode
            obtain ⟨ba', hrun, hs'⟩ := ih (i + 7) _ ba₁ hs₁.wf hrest
            refine ⟨ba', ?_, ?_⟩
            · rw [readVarintLoop, estate_bind_ok hbyte, if_neg hb]
              exact hrun
            · rw [List.length_cons, Nat.add_comm, ← havail₁]
              exact hs₁.trans hs'

theorem headRead_readVarint (host : Endian) {w : Nat} (hw : 0 < w) :
    HeadRead (.varint w) (readVarint host w) fun v => v where
  ok {ba n v} hwf hdecode := by
    obtain ⟨⟨n', u⟩, hvarint, heq⟩ := Option.map_eq_some_iff.mp hdecode
    cases heq
    obtain ⟨hle, hpos⟩ := decodeVarint_size _ _ _ _ hvarint
    have hn : 0 < n' := hpos (by omega)
    obtain ⟨ba', hrun, hs⟩ := readVarintLoop_ok host w _ 0 0 n' u ba hwf hvarint Nat.one_pos
      (Nat.two_pow_pos w)
    rw [Nat.zero_add, Nat.pow_zero, Nat.mul_one] at hrun
    exact ⟨hn, hn, hle, ba', hrun, hs⟩
  error {ba} hwf hdecode := by
    obtain ⟨ba', hrun, hs⟩ :=
      readVarintLoop_error host w _ 0 0 ba hwf (Option.map_eq_none_iff.mp hdecode)
    exact ⟨_, ba', hrun, hs, Nat.lt_one_iff.symm⟩

end

/-! ### The operations -/

section
variable (host : Endian)

theorem headRead_kind (k : Kind) : ∃ g, HeadRead k.head (k.read host) g := by
  cases k with
  | fint8 => exact ⟨_, headRead_byte host fun v => (UInt8.ofNat v).toInt8⟩
  | fuint8 => exact ⟨_, headRead_byte host fun v => UInt8.ofNat v⟩
  | fint16 => exact ⟨_, (headRead_readFixed host (by decide)).map _⟩
  | fuint16 => exact ⟨_, (headRead_readFixed host (by decide)).map _⟩
  | fint32 => exact ⟨_, (headRead_readFixed host (by decide)).map _⟩
  | fuint32 => exact ⟨_, (headRead_readFixed host (by decide)).map _⟩
  | fint64 => exact ⟨_, (headRead_readFixed host (by decide)).map _⟩
  | fuint64 => exact ⟨_, (headRead_readFixed host (by decide)).map _⟩
  | int32 => exact ⟨_, ((headRead_readVarint host (by decide)).map _).map _⟩
  | uint32 => exact ⟨_, (headRead_readVarint host (by decide)).map _⟩
  | int64 => exact ⟨_, ((headRead_readVarint host (by decide)).map _).map _⟩
  | uint64 => exact ⟨_, (headRead_readVarint host (by decide)).map _⟩
  | float => exact ⟨_, (headRead_readFixed host (by decide)).map _⟩
  | double => exact ⟨_, (headRead_readFixed host (by decide)).map _⟩

/-- The number of a length is below the modulus of its type. -/
theorem decode_lt_modulus {k : LengthKind} {e : Endian} {bs : List UInt8} {n v : Nat}
    (h : k.head.decode e bs = some (n, v)) : v < k.modulus := by
  have hfixed : ∀ m, (Head.fixed m).decode e bs = some (n, v) → v < 256 ^ m := by
    intro m h
    obtain ⟨-, hle, rfl⟩ := decode_fixed_eq_some h
    have hlt := ofObjectBytes_lt e (bs.take m)
    rwa [List.length_take, Nat.min_eq_left hle] at hlt
  cases k with
  | f16 => exact hfixed 2 h
  | f32 => exact hfixed 4 h
  | f64 => exact hfixed 8 h
  | vint =>
      obtain ⟨r, -, heq⟩ := Option.map_eq_some_iff.mp h
      cases heq
      exact Nat.mod_lt _ (Nat.two_pow_pos 64)

theorem headRead_length (k : LengthKind) : HeadRead k.head (k.readLength host) fun v => v := by
  cases k with
  | f16 =>
      refine (((headRead_readFixed host (by decide)).map _).map _).congr fun e bs n v h => ?_
      exact UInt16.toNat_ofNat_of_lt' (decode_lt_modulus (k := .f16) h)
  | f32 =>
      refine (((headRead_readFixed host (by decide)).map _).map _).congr fun e bs n v h => ?_
      exact UInt32.toNat_ofNat_of_lt' (decode_lt_modulus (k := .f32) h)
  | f64 =>
      refine (((headRead_readFixed host (by decide)).map _).map _).congr fun e bs n v h => ?_
      exact UInt64.toNat_ofNat_of_lt' (decode_lt_modulus (k := .f64) h)
  | vint =>
      refine (((headRead_readVarint host (by decide)).map _).map _).congr fun e bs n v h => ?_
      exact UInt64.toNat_ofNat_of_lt' (decode_lt_modulus (k := .vint) h)

/-! ### The condition -/

variable {host} {ba : ByteArray} {op : ReadOp} {n v : Nat}

/-- A read that throws behind `n` bytes has changed nothing if there are none. -/
theorem error_eq_iff {α : Type} {x : Op α} {ba' : ByteArray} (hwf : Wf ba)
    (hrun : x ba = .error .outOfRange ba') (hs : Skipped ba n ba') :
    x ba = .error .outOfRange ba ↔ n = 0 := by
  rw [hrun]
  constructor
  · intro heq
    by_contra hn
    cases heq
    exact hs.ne_of_pos (Nat.pos_of_ne_zero hn) rfl
  · rintro rfl
    rw [hs.eq_of_zero hwf]

/-- A read whose number is not complete. -/
theorem run_error_iff (hwf : Wf ba) (hdecode : op.head.decode ba.endian ba.available = none) :
    op.run host ba = .error .outOfRange ba ↔ ba.available.length < op.head.first := by
  cases op with
  | value k =>
      obtain ⟨g, hread⟩ := headRead_kind host k
      obtain ⟨n, ba', hrun, hs, hzero⟩ := hread.error hwf hdecode
      exact (error_eq_iff hwf hrun hs).trans hzero
  | string k =>
      obtain ⟨n, ba', hrun, hs, hzero⟩ := (headRead_length host k).error hwf hdecode
      have hstring : readString host k ba = .error .outOfRange ba' := estate_bind_error hrun
      exact (error_eq_iff hwf hstring hs).trans hzero

theorem complete_iff_of_decode (hdecode : op.head.decode ba.endian ba.available = some (n, v)) :
    op.Complete ba.endian ba.available ↔ n + op.body v ≤ ba.available.length := by
  constructor
  · rintro ⟨n', v', hdecode', hle⟩
    rw [hdecode] at hdecode'
    cases hdecode'
    exact hle
  · intro hle
    exact ⟨n, v, hdecode, hle⟩

/-- A string whose length is complete. -/
theorem string_failsCleanly_iff {k : LengthKind} (hwf : Wf ba)
    (hdecode : k.head.decode ba.endian ba.available = some (n, v)) :
    (ReadOp.string k).FailsCleanly host ba ↔
      n + v ≤ ba.available.length ∧ ¬ (v = 0 ∧ ba.position + n = ba.capacity) := by
  obtain ⟨hpos, -, hle, ba', hrun, hs⟩ := (headRead_length host k).ok hwf hdecode
  have hstring : (ReadOp.string k).run host ba = read v ba' := estate_bind_ok hrun
  have hleft : ba'.getReadSize = ba.available.length - n := by
    rw [← hs.wf.length_available, hs.available_eq, List.length_drop]
  have hcomplete : (ReadOp.string k).Complete ba.endian ba.available ↔
      n + v ≤ ba.available.length := complete_iff_of_decode hdecode
  rw [ReadOp.FailsCleanly, hcomplete, hstring]
  by_cases hbody : n + v ≤ ba.available.length
  · -- the bytes of the string are there, and none of them may be asked for at a null node
    have hthere : v ≤ ba'.getReadSize := by omega
    have hcompletes := read_completes_iff hs.wf hthere
    have hposition := hs.position_eq
    have hcapacity := hs.capacity_eq
    constructor
    · intro hclean
      have hreturns := hcompletes.mp (hclean.1 hbody)
      exact ⟨hbody, by omega⟩
    · rintro ⟨-, hnull⟩
      exact ⟨fun _ => hcompletes.mpr (by omega), fun hnot => absurd hbody hnot⟩
  · -- the length has been taken when the bytes are missing
    have hthrow : read v ba' = .error .outOfRange ba' := read_outOfRange (by omega)
    refine iff_of_false (fun hclean => ?_) (fun hcon => hbody hcon.1)
    have hsame := hclean.2 hbody
    rw [hthrow] at hsame
    cases hsame
    exact hs.ne_of_pos hpos rfl

/-- A value that is complete. -/
theorem value_failsCleanly (host : Endian) {k : Kind} (hwf : Wf ba)
    (hdecode : k.head.decode ba.endian ba.available = some (n, v)) :
    (ReadOp.value k).FailsCleanly host ba ∧ n ≤ ba.available.length := by
  obtain ⟨g, hread⟩ := headRead_kind host k
  obtain ⟨-, -, hle, ba', hrun, -⟩ := hread.ok hwf hdecode
  have hcomplete : (ReadOp.value k).Complete ba.endian ba.available := ⟨n, v, hdecode, hle⟩
  exact ⟨⟨fun _ => ⟨_, ba', hrun⟩, fun hnot => absurd hcomplete hnot⟩, hle⟩

theorem first_le_of_decode (hwf : Wf ba)
    (hdecode : op.head.decode ba.endian ba.available = some (n, v)) :
    op.head.first ≤ ba.available.length := by
  cases op with
  | value k =>
      obtain ⟨g, hread⟩ := headRead_kind .little k
      obtain ⟨-, hfirst, hle, -⟩ := hread.ok hwf hdecode
      exact Nat.le_trans hfirst hle
  | string k =>
      obtain ⟨-, hfirst, hle, -⟩ := (headRead_length .little k).ok hwf hdecode
      exact Nat.le_trans hfirst hle

theorem failsCleanly_iff_of_wf (hwf : Wf ba) :
    op.FailsCleanly host ba ↔
      (∃ n v, op.head.decode ba.endian ba.available = some (n, v) ∧
        n + op.body v ≤ ba.available.length ∧ ¬ op.AtNull ba n v) ∨
      ba.available.length < op.head.first := by
  cases hdecode : op.head.decode ba.endian ba.available with
  | none =>
      have hnone : ¬ op.Complete ba.endian ba.available := by
        rintro ⟨n, v, hsome, -⟩
        rw [hdecode] at hsome
        cases hsome
      rw [ReadOp.FailsCleanly, and_iff_right fun hcomplete => absurd hcomplete hnone,
        forall_prop_of_true hnone, run_error_iff hwf hdecode, or_iff_right]
      rintro ⟨n, v, hsome, -⟩
      cases hsome
  | some r =>
      obtain ⟨n, v⟩ := r
      have hfirst := first_le_of_decode hwf hdecode
      rw [or_iff_left (Nat.not_lt.mpr hfirst)]
      have hone : (∃ n' v', some (n, v) = some (n', v') ∧ n' + op.body v' ≤ ba.available.length ∧
          ¬ op.AtNull ba n' v') ↔ n + op.body v ≤ ba.available.length ∧ ¬ op.AtNull ba n v := by
        constructor
        · rintro ⟨n', v', hsome, h⟩
          cases hsome
          exact h
        · intro h
          exact ⟨n, v, rfl, h⟩
      rw [hone]
      cases op with
      | value k =>
          obtain ⟨hclean, hle⟩ := value_failsCleanly host hwf hdecode
          exact iff_of_true hclean ⟨hle, id⟩
      | string k => exact string_failsCleanly_iff hwf hdecode

/-- A read returns on a complete encoding, and otherwise throws and changes nothing, if and only if
the encoding is complete and not that of an empty string at the end of the capacity, or not even the
first step of the read finds its bytes. -/
theorem failsCleanly_iff (mem : Nat → Nat → UInt8) (b : Nat) (hb : 1 ≤ b) (ba : ByteArray)
    (hreach : Reachable mem b ba) (host : Endian) (op : ReadOp) :
    op.FailsCleanly host ba ↔
      (∃ n v, op.head.decode ba.endian ba.available = some (n, v) ∧
        n + op.body v ≤ ba.available.length ∧ ¬ op.AtNull ba n v) ∨
      ba.available.length < op.head.first :=
  failsCleanly_iff_of_wf (hreach.wf hb).1

end

/-- Three bytes are too few for an `int32_t`, and the read leaves them. -/
theorem failsCleanly_fixed : ∃ ba, Reachable (fun _ _ => 0) 2 ba ∧ ba.available = [1, 2, 3] ∧
    (ReadOp.value .fint32).FailsCleanly .little ba :=
  have hreach : Reachable (fun _ _ => 0) 2 _ := ⟨[.write [1, 2, 3], .setPosition 0], rfl⟩
  ⟨_, hreach, rfl, (failsCleanly_iff (fun _ _ => 0) 2 (by decide) _ hreach .little _).mpr
    (.inr (by decide))⟩

/-- A varint without its last byte loses its first one. A string without its bytes loses its
length. -/
theorem failed_read_moves :
    (∃ ba ba', Reachable (fun _ _ => 0) 4 ba ∧ ba.available = [0x80] ∧
      readUint32 .little ba = .error .outOfRange ba' ∧ ba.position = 0 ∧ ba'.position = 1 ∧
      ¬ (ReadOp.value .uint32).FailsCleanly .little ba) ∧
    ∃ ba ba', Reachable (fun _ _ => 0) 4 ba ∧ ba.available = [0, 5] ∧
      readStringF16 .little ba = .error .outOfRange ba' ∧ ba.position = 0 ∧ ba'.position = 2 ∧
      ¬ (ReadOp.string .f16).FailsCleanly .little ba := by
  have hreach₁ : Reachable (fun _ _ => 0) 4 _ := ⟨[.write [0x80], .setPosition 0], rfl⟩
  have hreach₂ : Reachable (fun _ _ => 0) 4 _ := ⟨[.write [0, 5], .setPosition 0], rfl⟩
  refine ⟨⟨_, _, hreach₁, rfl, rfl, rfl, rfl, ?_⟩, ⟨_, _, hreach₂, rfl, rfl, rfl, rfl, ?_⟩⟩
  · obtain ⟨hwf, -⟩ := hreach₁.wf (by decide)
    -- the byte announces another one, so there is a first step and no end
    intro hclean
    rcases (failsCleanly_iff_of_wf hwf).mp hclean with ⟨n, v, hdecode, -⟩ | hlt
    · cases hdecode
    · exact absurd hlt (by decide)
  · obtain ⟨hwf, -⟩ := hreach₂.wf (by decide)
    intro hclean
    rcases (failsCleanly_iff_of_wf hwf).mp hclean with ⟨n, v, hdecode, hle, -⟩ | hlt
    · cases hdecode
      exact absurd hle (by decide)
    · exact absurd hlt (by decide)

end Sylar.ByteArray
