import Sylar.Proofs.ByteArray.Codec

/-!
# `Sylar.Proofs.ByteArray.Strings`: strings with a length in front

`read` looks at `m_cur->size` before it looks at the number of bytes it is asked for. At the end of
the capacity `m_cur` is null, so that a read of no bytes there does not complete
(`readsAvailable_iff`). The read of an empty string is such a read when the length ends with the
last block, and a length that does not fit in its type is narrowed. Every other string comes back
(`string_round_trip_iff`).
-/

set_option autoImplicit false

namespace Sylar.ByteArray

/-! ### Reads of available bytes -/

section
variable {ba ba' : ByteArray} {size : Nat} {out : List UInt8}

/-- A read of available bytes completes unless it asks for none at the end of the capacity. -/
theorem read_completes_iff (h : Wf ba) (hsize : size ≤ ba.getReadSize) :
    (∃ out ba', read size ba = .ok out ba') ↔ 0 < size ∨ ba.position ≠ ba.capacity := by
  have hread := h.getReadSize_eq
  have hpos := h.pos_le
  have hle := h.size_le
  constructor
  · rintro ⟨out, ba', hrun⟩
    by_contra hcon
    rw [not_or, not_ne_iff, Nat.not_lt, Nat.le_zero] at hcon
    obtain ⟨rfl, hend⟩ := hcon
    rw [read_zero_at_end h hend] at hrun
    cases hrun
  · intro hne
    obtain ⟨cur, hrun, -⟩ := read_ok h hsize (by omega)
    exact ⟨_, _, hrun⟩

/-- What a read that completes returns and where it ends. -/
theorem read_of_ok (h : Wf ba) (hrun : read size ba = .ok out ba') :
    Wf ba' ∧ out = (ba.bytes.drop ba.position).take size ∧ out.length = size ∧
      ba'.position = ba.position + size ∧ ba'.capacity = ba.capacity := by
  have hread := h.getReadSize_eq
  have hpos := h.pos_le
  have hle := h.size_le
  have hlen := h.length_bytes
  by_cases hsize : size ≤ ba.getReadSize
  · have hne := (read_completes_iff h hsize).mp ⟨out, ba', hrun⟩
    obtain ⟨cur, hrun', hwf⟩ := read_ok h hsize (by omega)
    rw [hrun'] at hrun
    cases hrun
    refine ⟨hwf, rfl, ?_, rfl, rfl⟩
    rw [List.length_take, List.length_drop]
    omega
  · rw [read_outOfRange (Nat.lt_of_not_le hsize)] at hrun
    cases hrun

/-- `read` completes on the available bytes and throws on more, in every reachable state, if and
only if it is asked for a byte or the position is not the end of the capacity. -/
theorem readsAvailable_iff (mem : Nat → Nat → UInt8) (b : Nat) (hb : 1 ≤ b)
    (hreach : Reachable mem b ba) :
    ReadsAvailable ba size ↔ 0 < size ∨ ba.position ≠ ba.capacity := by
  obtain ⟨hwf, -⟩ := hreach.wf hb
  unfold ReadsAvailable
  split
  case isTrue hsize => exact read_completes_iff hwf hsize
  case isFalse hsize =>
    -- more bytes than there are is at least one
    exact iff_of_true (read_outOfRange (Nat.lt_of_not_le hsize)) (.inl (by omega))

/-- All bytes of a block of two are written and none is asked for in front of the second. -/
theorem readsAvailable_inside : ∃ ba, Reachable (fun _ _ => 0) 2 ba ∧ ba.position = 1 ∧
    ba.capacity = 2 ∧ ReadsAvailable ba 0 :=
  ⟨_, ⟨[.write [1, 2], .setPosition 1], rfl⟩, rfl, rfl,
    (readsAvailable_iff (fun _ _ => 0) 2 (by decide)
      ⟨[.write [1, 2], .setPosition 1], rfl⟩).mpr (.inr (by decide))⟩

/-- A read of no bytes behind a full block reads a member of a null node. -/
theorem read_zero_null : ∃ ba, Reachable (fun _ _ => 0) 2 ba ∧ ba.getReadSize = 0 ∧
    read 0 ba = .error .nullNode ba ∧ ¬ ReadsAvailable ba 0 := by
  refine ⟨_, ⟨[.write [1, 2]], rfl⟩, rfl, rfl, ?_⟩
  rintro ⟨out, ba', hrun⟩
  cases hrun

end

/-! ### The length -/

/-- An operation that returns has not appended a block. -/
def KeepsCapacity {α : Type} (op : Op α) : Prop :=
  ∀ ba v ba', Wf ba → op ba = .ok v ba' → Wf ba' ∧ ba'.capacity = ba.capacity

section
variable {α β : Type}

theorem KeepsCapacity.pure (v : α) : KeepsCapacity (Pure.pure v) := by
  intro ba v ba' h hrun
  cases hrun
  exact ⟨h, rfl⟩

theorem KeepsCapacity.get : KeepsCapacity MonadState.get := by
  intro ba v ba' h hrun
  cases hrun
  exact ⟨h, rfl⟩

theorem KeepsCapacity.read (size : Nat) : KeepsCapacity (read size) := by
  intro ba v ba' h hrun
  obtain ⟨h', -, -, -, hcap⟩ := read_of_ok h hrun
  exact ⟨h', hcap⟩

theorem KeepsCapacity.bind {op : Op α} {f : α → Op β} (hop : KeepsCapacity op)
    (hf : ∀ v, KeepsCapacity (f v)) : KeepsCapacity (op >>= f) := by
  intro ba u ba'' h hrun
  obtain ⟨v, ba', hrun₁, hrun₂⟩ := Lib.estate_of_bind_ok hrun
  obtain ⟨h', hcap⟩ := hop ba v ba' h hrun₁
  obtain ⟨h'', hcap'⟩ := hf v ba' u ba'' h' hrun₂
  exact ⟨h'', hcap'.trans hcap⟩

end

section
variable (mem : Nat → Nat → UInt8) (host e : Endian)

theorem keepsCapacity_readFixed (n : Nat) : KeepsCapacity (readFixed host n) :=
  (KeepsCapacity.read n).bind fun _ => KeepsCapacity.get.bind fun _ => .pure _

theorem keepsCapacity_readVarintLoop (w : Nat) :
    ∀ rounds i result, KeepsCapacity (readVarintLoop host w rounds i result) := by
  intro rounds
  induction rounds with
  | zero => exact fun i result => .pure result
  | succ rounds ih =>
      intro i result
      refine KeepsCapacity.bind ((KeepsCapacity.read 1).bind fun _ => .pure _) fun b => ?_
      split
      · exact .pure _
      · exact ih _ _

theorem keepsCapacity_readLength (k : LengthKind) : KeepsCapacity (k.readLength host) := by
  have hfixed : ∀ n, KeepsCapacity (readFixed host n) := keepsCapacity_readFixed host
  cases k with
  | f16 => exact ((hfixed 2).bind fun _ => .pure _).bind fun _ => .pure _
  | f32 => exact ((hfixed 4).bind fun _ => .pure _).bind fun _ => .pure _
  | f64 => exact ((hfixed 8).bind fun _ => .pure _).bind fun _ => .pure _
  | vint =>
      exact ((keepsCapacity_readVarintLoop host 64 _ 0 0).bind fun _ => .pure _).bind fun _ => .pure _

/-- A fixed-width write is a write of its bytes. -/
theorem writeFixed_eq (n v : Nat) (ba : ByteArray) :
    writeFixed mem host n v ba = write mem (objectBytes ba.endian n v) ba := by
  rw [← objectBytes_swap host ba.endian n v]
  rfl

/-- The bytes of a length: they are what is written, and the read of them returns the length as it
was narrowed. -/
theorem length_codec (k : LengthKind) (size : Nat) : ∃ bs,
    (∀ ba, ba.endian = e → k.writeLength mem host size ba = write mem bs ba) ∧
    Reads e e (k.readLength host) bs (size % k.modulus) ∧ (size = 0 → bs.length = k.zeroSize) := by
  cases k with
  | f16 =>
      refine ⟨objectBytes e 2 (UInt16.ofNat size).toNat, ?_, ?_, fun _ => length_objectBytes ..⟩
      · rintro ba rfl
        exact writeFixed_eq mem host 2 _ ba
      · have h := ((reads_fixed host e (n := 2) (by decide) (UInt16.ofNat size).toNat_lt).map
          UInt16.ofNat).map UInt16.toNat
        rwa [UInt16.ofNat_toNat, UInt16.toNat_ofNat'] at h
  | f32 =>
      refine ⟨objectBytes e 4 (UInt32.ofNat size).toNat, ?_, ?_, fun _ => length_objectBytes ..⟩
      · rintro ba rfl
        exact writeFixed_eq mem host 4 _ ba
      · have h := ((reads_fixed host e (n := 4) (by decide) (UInt32.ofNat size).toNat_lt).map
          UInt32.ofNat).map UInt32.toNat
        rwa [UInt32.ofNat_toNat, UInt32.toNat_ofNat'] at h
  | f64 =>
      refine ⟨objectBytes e 8 (UInt64.ofNat size).toNat, ?_, ?_, fun _ => length_objectBytes ..⟩
      · rintro ba rfl
        exact writeFixed_eq mem host 8 _ ba
      · have h := ((reads_fixed host e (n := 8) (by decide) (UInt64.ofNat size).toNat_lt).map
          UInt64.ofNat).map UInt64.toNat
        rwa [UInt64.ofNat_toNat, UInt64.toNat_ofNat'] at h
  | vint =>
      have hlt := (UInt64.ofNat size).toNat_lt
      obtain ⟨bs, hbs, hreads⟩ := varintLoop_reads host e 64 9 (UInt64.ofNat size).toNat 10 0 0
        (Nat.lt_of_lt_of_le hlt (by decide)) (by decide) (by decide) (by omega)
      rw [Nat.pow_zero, Nat.mul_one, Nat.zero_add] at hreads
      refine ⟨bs, ?_, ?_, ?_⟩
      · rintro ba -
        exact writeVarint_eq hbs ba
      · have h := (hreads.map UInt64.ofNat).map UInt64.toNat
        rwa [UInt64.ofNat_toNat, UInt64.toNat_ofNat'] at h
      · rintro rfl
        cases hbs
        rfl

end

/-! ### The string -/

/-- Bytes end with the last block if they reach beyond the capacity and fill a block. -/
theorem ends_with_block_iff {ba : ByteArray} (h : Wf ba) (n : Nat) :
    ba.position + n = ba.capacity + ba.baseSize * missing ba n ↔
      ba.capacity ≤ ba.position + n ∧ ba.baseSize ∣ ba.position + n := by
  have hb := h.base_pos
  have hcap : ba.baseSize ∣ ba.capacity := ⟨_, h.cap_eq⟩
  constructor
  · intro heq
    exact ⟨heq ▸ Nat.le_add_right .., heq ▸ Nat.dvd_add hcap (Nat.dvd_mul_right ..)⟩
  · rintro ⟨hle, hdvd⟩
    -- the bytes behind the capacity are whole blocks, so that none is appended in vain
    obtain ⟨count, hcount⟩ := (Nat.dvd_add_right hcap).mp
      (show ba.baseSize ∣ ba.capacity + (ba.position + n - ba.capacity) by
        rwa [Nat.add_sub_cancel' hle])
    have hmissing : missing ba n = count := by
      rw [missing, hcount, Nat.add_sub_assoc hb, Nat.mul_add_div hb,
        Nat.div_eq_of_lt (Nat.sub_lt hb Nat.one_pos), Nat.add_zero]
    rw [hmissing, ← hcount, Nat.add_sub_cancel' hle]

section
variable (mem : Nat → Nat → UInt8) (host : Endian) (k : LengthKind)

/-- The states of a round trip up to the read of the bytes: `ba₁` behind the string, `ba₂` in front
of its length and `ba₃` in front of its bytes. -/
structure LengthRead (ba : ByteArray) (s : List UInt8) (ba₁ ba₂ ba₃ : ByteArray) : Prop where
  write_eq : writeString mem host k s ba = .ok () ba₁
  seek_eq : setPosition ba.position ba₁ = .ok () ba₂
  length_eq : k.readLength host ba₂ = .ok (s.length % k.modulus) ba₃
  wf : Wf ba₃
  bytes_eq : (ba₃.bytes.drop ba₃.position).take s.length = s
  available : s.length ≤ ba₃.getReadSize
  position_eq : ba₃.position + s.length = ba₁.position
  atEnd_iff : s = [] → (ba₃.position = ba₃.capacity ↔
    ba.capacity ≤ ba.position + k.zeroSize ∧ ba.baseSize ∣ ba.position + k.zeroSize)

variable {ba : ByteArray} {s : List UInt8}

theorem lengthRead_of_wf (h : Wf ba) : ∃ ba₁ ba₂ ba₃, LengthRead mem host k ba s ba₁ ba₂ ba₃ := by
  obtain ⟨fb, hfb⟩ := h.refines
  obtain ⟨bs, hwrite, hread, hzero⟩ := length_codec mem host ba.endian k s.length
  have hw : Writes ba.endian ba.endian (writeString mem host k s) (bs ++ s) := by
    refine Writes.seq (fun ba' fb' h' he => ?_) (Writes.write mem s)
    rw [hwrite ba' he]
    exact Writes.write mem bs ba' fb' h' he
  obtain ⟨ba₁, hrun₁, h₁, he₁⟩ := hw ba fb hfb rfl
  have hle : fb.pos ≤ (fb.write (bs ++ s)).data.length :=
    Nat.le_trans (Nat.le_add_right _ _) (fb.write (bs ++ s)).pos_le
  obtain ⟨fb₂, ba₂, hset, hrun₂, h₂⟩ := refines_setPosition h₁ (h₁.length_data ▸ hle)
  rw [FlatBuffer.setPosition, dif_pos hle] at hset
  cases hset
  obtain ⟨hend, hcap⟩ : ba₂.endian = ba.endian ∧ ba₂.capacity = ba₁.capacity := by
    obtain ⟨cur, hrun, -⟩ := setPosition_ok h₁.wf
      (Nat.le_trans (h₁.length_data ▸ hle) h₁.wf.size_le)
    cases hrun₂.symm.trans hrun
    exact ⟨he₁, rfl⟩
  have hdata := fb.drop_write (bs ++ s)
  rw [List.append_assoc] at hdata
  obtain ⟨ba₃, fb₃, hrun₃, h₃, -, hdata₃, hpos₃⟩ := hread ba₂ _ _ h₂ hend hdata
  obtain ⟨-, hcap₃⟩ := keepsCapacity_readLength host k ba₂ _ ba₃ h₂.wf hrun₃
  replace hpos₃ : ba₃.position = ba.position + bs.length := by
    rw [← h₃.pos_eq, hpos₃, ← hfb.pos_eq]
  -- the bytes of the string stand in front of `ba₃`
  have hahead : (ba₃.bytes.take ba₃.size).drop ba₃.position
      = s ++ fb.data.drop (fb.pos + (bs ++ s).length) := by
    rw [← h₃.data_eq, hdata₃, hpos₃, ← hfb.pos_eq, ← List.drop_drop, hdata, List.drop_left]
  have hlen := congrArg List.length hahead
  rw [List.length_drop, List.length_take, List.length_append] at hlen
  refine ⟨ba₁, ba₂, ba₃, ⟨hrun₁, hfb.pos_eq ▸ hrun₂, hrun₃, h₃.wf, ?_, ?_, ?_, ?_⟩⟩
  · have htake := congrArg (List.take s.length) hahead
    rwa [List.drop_take, List.take_take, Nat.min_eq_left (by omega), List.take_left] at htake
  · rw [h₃.wf.getReadSize_eq]
    omega
  · rw [hpos₃, ← h₁.pos_eq, ← hfb.pos_eq]
    show _ = fb.pos + (bs ++ s).length
    rw [List.length_append, Nat.add_assoc]
  · rintro rfl
    have hsize := hzero rfl
    obtain ⟨ba₁', hrun, -, -, -, hgrown, -, -⟩ := write_bytes h mem bs
    have hsame : ba₁' = ba₁ := by
      have hstring : writeString mem host k [] ba = write mem [] ba₁' :=
        Lib.estate_bind_ok ((hwrite ba rfl).trans hrun)
      cases (hstring.symm.trans hrun₁)
      rfl
    rw [hcap₃, hcap, ← hsame, hgrown, hpos₃, hsize]
    exact ends_with_block_iff h k.zeroSize

/-- The read of the bytes decides whether the string comes back. -/
theorem roundTrips_iff (hwf : Wf ba) :
    RoundTrips mem host k ba s ↔ s.length < k.modulus ∧ (s ≠ [] ∨
      ba.position + k.zeroSize < ba.capacity ∨ ¬ ba.baseSize ∣ ba.position + k.zeroSize) := by
  obtain ⟨ba₁, ba₂, ba₃, h⟩ := lengthRead_of_wf mem host k (s := s) hwf
  have hmod : 0 < k.modulus := by cases k <;> decide
  have hstring : readString host k ba₂ = read (s.length % k.modulus) ba₃ :=
    Lib.estate_bind_ok h.length_eq
  constructor
  · rintro ⟨ba₁', ba₂', ba₄, hrun₁, hrun₂, hrun₃, hpos⟩
    cases h.write_eq.symm.trans hrun₁
    cases h.seek_eq.symm.trans hrun₂
    rw [hstring] at hrun₃
    obtain ⟨-, -, hlen, -, -⟩ := read_of_ok h.wf hrun₃
    refine ⟨hlen ▸ Nat.mod_lt _ hmod, ?_⟩
    by_cases hs : s = []
    · have hne := (read_completes_iff h.wf (by rw [← hlen]; exact h.available)).mp ⟨_, _, hrun₃⟩
      rw [← hlen, hs, List.length_nil, Ne, h.atEnd_iff hs, not_and_or, Nat.not_le] at hne
      exact .inr (hne.resolve_left (Nat.lt_irrefl 0))
    · exact .inl hs
  · rintro ⟨hlt, hne⟩
    rw [Nat.mod_eq_of_lt hlt] at hstring
    have hne' : 0 < s.length ∨ ba₃.position ≠ ba₃.capacity := by
      by_cases hs : s = []
      · rw [Ne, h.atEnd_iff hs, not_and_or, Nat.not_le]
        exact .inr (hne.resolve_left (not_not.mpr hs))
      · exact .inl (List.length_pos_iff.mpr hs)
    obtain ⟨out, ba₄, hrun⟩ := (read_completes_iff h.wf h.available).mpr hne'
    obtain ⟨-, hout, -, hpos, -⟩ := read_of_ok h.wf hrun
    rw [h.bytes_eq] at hout
    subst hout
    exact ⟨ba₁, ba₂, ba₄, h.write_eq, h.seek_eq, hstring.trans hrun, hpos.trans h.position_eq⟩

/-- A string comes back if and only if its length fits in the type of the length and, when it is
empty, the length does not end with the last block. -/
theorem string_round_trip_iff (b : Nat) (hb : 1 ≤ b) (hreach : Reachable mem b ba) :
    RoundTrips mem host k ba s ↔ s.length < k.modulus ∧
      (s ≠ [] ∨ ba.position + k.zeroSize < ba.capacity ∨ ¬ b ∣ ba.position + k.zeroSize) := by
  obtain ⟨hwf, rfl⟩ := hreach.wf hb
  exact roundTrips_iff mem host k hwf

/-- A string of three bytes in blocks of two, and an empty one whose length leaves a byte. -/
theorem string_round_trip_blocks :
    RoundTrips (fun _ _ => 0) .little .f16 (new (fun _ _ => 0) 2) [7, 8, 9] ∧
    RoundTrips (fun _ _ => 0) .little .vint (new (fun _ _ => 0) 2) [] :=
  ⟨(string_round_trip_iff (fun _ _ => 0) .little .f16 2 (by decide) ⟨[], rfl⟩).mpr
      ⟨by decide, .inl (by decide)⟩,
    (string_round_trip_iff (fun _ _ => 0) .little .vint 2 (by decide) ⟨[], rfl⟩).mpr
      ⟨by decide, .inr (.inl (by decide))⟩⟩

/-- An empty string whose length fills the only block is not read back: a member of a null node is
read. Nor is a string whose length is narrowed to 0. -/
theorem string_not_read_back :
    (∃ ba₁ ba₂ ba₃, writeStringF16 (fun _ _ => 0) .little [] (new (fun _ _ => 0) 2) = .ok () ba₁ ∧
      setPosition 0 ba₁ = .ok () ba₂ ∧ readStringF16 .little ba₂ = .error .nullNode ba₃) ∧
    ¬ RoundTrips (fun _ _ => 0) .little .f16 (new (fun _ _ => 0) 2) [] ∧
    ¬ RoundTrips (fun _ _ => 0) .little .f16 (new (fun _ _ => 0) 2) (List.replicate 65536 0) := by
  have hwf := wf_new (fun _ _ => 0) (show 0 < 2 by decide)
  refine ⟨⟨_, _, _, rfl, rfl, rfl⟩, ?_, ?_⟩
  · rw [roundTrips_iff _ _ _ hwf]
    decide
  · rw [roundTrips_iff _ _ _ hwf, List.length_replicate]
    exact fun h => absurd h.1 (by decide)

end

end Sylar.ByteArray
