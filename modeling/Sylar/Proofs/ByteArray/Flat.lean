import Sylar.Proofs.ByteArray.Invariant
import Sylar.Spec.FlatBuffer

/-!
# `Sylar.Proofs.ByteArray.Flat`: a `ByteArray` is a flat buffer

`Refines ba fb` says that `ba` holds the data of the flat buffer `fb` in its first `m_size`
bytes, at the same position. `refines_run` is the step of the simulation: a plain call on `ba`
gives the caller what the same call on `fb` gives, and `Refines` holds again. `trace_eq` is its
run form.

The flat buffer has no block size. So two arrays with different block sizes and different fresh
memory give the same trace (`flat_buffer_refinement`, which also states what one `write` and one
`read` do to the bytes of the chain).
-/

set_option autoImplicit false

namespace Sylar.ByteArray

open Lib (splice)

/-- `ba` holds the data of `fb`. -/
structure Refines (ba : ByteArray) (fb : FlatBuffer) : Prop where
  wf : Wf ba
  data_eq : fb.data = ba.bytes.take ba.size
  pos_eq : fb.pos = ba.position

theorem refines_new (mem : Nat → Nat → UInt8) {b : Nat} (hb : 0 < b) :
    Refines (new mem b) FlatBuffer.empty := ⟨wf_new mem hb, rfl, rfl⟩

/-- Every well-formed array refines the flat buffer of its data. -/
theorem Wf.refines {ba : ByteArray} (h : Wf ba) : ∃ fb, Refines ba fb := by
  have hpos := h.pos_le
  have hsize := h.size_le
  have hlen := h.length_bytes
  refine ⟨⟨ba.bytes.take ba.size, ba.position, ?_⟩, h, rfl, rfl⟩
  rw [List.length_take]
  omega

section
variable {ba : ByteArray} {fb : FlatBuffer}

theorem Refines.length_data (h : Refines ba fb) : fb.data.length = ba.size := by
  have hsize := h.wf.size_le
  have hlen := h.wf.length_bytes
  rw [h.data_eq, List.length_take]
  omega

/-- The bytes after `write`, one by one: `buf` at the position, and the old bytes elsewhere. -/
theorem write_bytes (h : Wf ba) (mem : Nat → Nat → UInt8) (buf : List UInt8) :
    ∃ ba', write mem buf ba = .ok () ba' ∧ Wf ba' ∧
      ba'.position = ba.position + buf.length ∧
      ba'.size = max ba.size (ba.position + buf.length) ∧
      ba'.capacity = ba.capacity + ba.baseSize * missing ba buf.length ∧
      (∀ i < buf.length, ba'.bytes[ba.position + i]? = buf[i]?) ∧
      ∀ i < ba.bytes.length, i < ba.position ∨ ba.position + buf.length ≤ i →
        ba'.bytes[i]? = ba.bytes[i]? := by
  rcases Nat.eq_zero_or_pos buf.length with h0 | hpos
  · -- No byte is written and no block appended.
    have hnil : buf = [] := List.length_eq_zero_iff.mp h0
    subst hnil
    have hle := h.pos_le
    have hsize := h.size_le
    have hmissing : missing ba 0 = 0 := Nat.div_eq_of_lt (by have := h.base_pos; omega)
    refine ⟨ba, write_nil mem ba, h, rfl, ?_, ?_, ?_, ?_⟩
    · rw [List.length_nil, Nat.add_zero, Nat.max_eq_left hle]
    · rw [List.length_nil, hmissing, Nat.mul_zero, Nat.add_zero]
    · intro i hi
      exact absurd hi (Nat.not_lt_zero i)
    · intro i _ _
      rfl
  · obtain ⟨fresh, ba', hrun, hwf, hbase, -, hpos', hsize', hfresh, hchain, hroom, hbytes⟩ :=
      write_ok h mem hpos
    have hcap' : ba'.capacity = ba.capacity + ba.baseSize * missing ba buf.length := by
      rw [hwf.cap_eq, hbase, hchain, hfresh, h.cap_eq, Nat.mul_add]
    refine ⟨ba', hrun, hwf, hpos', hsize', hcap', ?_, ?_⟩
    · intro i hi
      rw [hbytes, Lib.getElem?_splice_inside hroom hi]
    · intro i hi hout
      rw [hbytes, Lib.getElem?_splice_outside hroom hout, List.getElem?_append_left hi]

/-- `write` refines the write of the flat buffer. -/
theorem refines_write (h : Refines ba fb) (mem : Nat → Nat → UInt8) (buf : List UInt8) :
    ∃ ba', write mem buf ba = .ok () ba' ∧ Refines ba' (fb.write buf) ∧
      ba'.endian = ba.endian := by
  rcases Nat.eq_zero_or_pos buf.length with h0 | hpos
  · have hnil : buf = [] := List.length_eq_zero_iff.mp h0
    subst hnil
    refine ⟨ba, write_nil mem ba, ⟨h.wf, ?_, h.pos_eq⟩, rfl⟩
    show splice fb.data fb.pos [] = _
    rw [Lib.splice_nil, h.data_eq]
  · obtain ⟨fresh, ba', hrun, hwf, -, hend, hpos', hsize', -, -, hroom, hbytes⟩ :=
      write_ok h.wf mem hpos
    have hpos := h.wf.pos_le
    have hsize := h.wf.size_le
    have hlen := h.wf.length_bytes
    refine ⟨ba', hrun, ⟨hwf, ?_, ?_⟩, hend⟩
    · -- The fresh blocks lie behind the data, so cutting at `m_size` removes them.
      show splice fb.data fb.pos buf = ba'.bytes.take ba'.size
      rw [hbytes, hsize', h.data_eq, h.pos_eq, Lib.take_splice hpos hroom,
        List.take_append_of_le_length (by omega)]
    · show fb.pos + buf.length = ba'.position
      rw [h.pos_eq, hpos']

/-- `read` of at least one byte refines the read of the flat buffer. -/
theorem refines_read (h : Refines ba fb) {n : Nat} (hn : 0 < n) :
    (fb.read n = .error .outOfRange ∧ read n ba = .error .outOfRange ba) ∨
    ∃ out fb' ba', fb.read n = .ok (out, fb') ∧ read n ba = .ok out ba' ∧
      Refines ba' fb' ∧ ba'.endian = ba.endian := by
  have hlen := h.length_data
  have hpos := h.wf.pos_le
  have hsize := h.wf.size_le
  have hread := h.wf.getReadSize_eq
  have hfb := h.pos_eq
  by_cases hfit : fb.pos + n ≤ fb.data.length
  · have hle : n ≤ ba.getReadSize := by omega
    obtain ⟨cur, hrun, hwf⟩ := read_ok h.wf hle (by omega)
    refine Or.inr ⟨_, _, _, dif_pos hfit, ?_, ⟨hwf, h.data_eq, ?_⟩, rfl⟩
    · -- The bytes that are read lie in the data, so the cut at `m_size` does not matter.
      rw [hrun, h.data_eq, h.pos_eq, List.drop_take, List.take_take, Nat.min_eq_left (by omega)]
    · show fb.pos + n = ba.position + n
      rw [h.pos_eq]
  · exact Or.inl ⟨dif_neg hfit, read_outOfRange (by omega)⟩

/-- `setPosition` inside the data refines the seek of the flat buffer. -/
theorem refines_setPosition (h : Refines ba fb) {v : Nat} (hv : v ≤ ba.size) :
    ∃ fb' ba', fb.setPosition v = .ok fb' ∧ setPosition v ba = .ok () ba' ∧ Refines ba' fb' := by
  have hsize := h.wf.size_le
  obtain ⟨cur, hrun, hwf⟩ := setPosition_ok h.wf (Nat.le_trans hv hsize)
  refine ⟨_, _, dif_pos (by rw [h.length_data]; exact hv), hrun, hwf, ?_, rfl⟩
  show fb.data = ba.bytes.take (max ba.size v)
  rw [h.data_eq, Nat.max_eq_left hv]

/-- One plain call: the caller gets the same from `ba` and from `fb`, and `Refines` holds again
in the state the call leaves. -/
theorem refines_run (h : Refines ba fb) (mem : Nat → Nat → UInt8) (c : Call)
    (hc : Plain ba c) :
    (∃ out ba', c.run mem ba = .ok out ba' ∧ (fb.call c).1 = .ok out ∧
        Refines ba' (fb.call c).2) ∨
    (c.run mem ba = .error .outOfRange ba ∧ (fb.call c).1 = .error .outOfRange ∧
        Refines ba (fb.call c).2) := by
  cases c with
  | write buf =>
      obtain ⟨ba', hrun, h', -⟩ := refines_write h mem buf
      exact Or.inl ⟨[], ba', Lib.estate_bind_ok hrun, rfl, h'⟩
  | read n =>
      rcases refines_read h hc with ⟨hfb, hrun⟩ | ⟨out, fb', ba', hfb, hrun, h', -⟩
      · refine Or.inr ⟨hrun, ?_, ?_⟩
        · simp only [FlatBuffer.call, hfb]
        · simp only [FlatBuffer.call, hfb]
          exact h
      · refine Or.inl ⟨out, ba', hrun, ?_, ?_⟩
        · simp only [FlatBuffer.call, hfb]
        · simp only [FlatBuffer.call, hfb]
          exact h'
  | setPosition v =>
      obtain ⟨fb', ba', hfb, hrun, h'⟩ := refines_setPosition h hc
      refine Or.inl ⟨[], ba', Lib.estate_bind_ok hrun, ?_, ?_⟩
      · simp only [FlatBuffer.call, hfb]
      · simp only [FlatBuffer.call, hfb]
        exact h'
  | clear => exact hc.elim
  | getWriteBuffers len => exact hc.elim
  | readFromFile contents => exact hc.elim
  | setIsLittleEndian val => exact hc.elim

/-- Plain calls give the caller of `ba` what they give the caller of `fb`. -/
theorem trace_eq (mem : Nat → Nat → UInt8) : ∀ (calls : List Call) (ba : ByteArray)
    (fb : FlatBuffer), Refines ba fb → Lib.Guarded (step mem) Plain ba calls →
    trace mem ba calls = fb.trace calls := by
  intro calls
  induction calls with
  | nil => intro ba fb _ _; rfl
  | cons c cs ih =>
      intro ba fb h hg
      obtain ⟨hc, hrest⟩ := hg
      rcases refines_run h mem c hc with ⟨out, ba', hrun, hfb, h'⟩ | ⟨hrun, hfb, h'⟩
      · simp only [step, hrun] at hrest
        simp only [trace, FlatBuffer.trace, hrun, hfb, ih ba' _ h' hrest]
      · simp only [step, hrun] at hrest
        simp only [trace, FlatBuffer.trace, hrun, hfb, ih ba _ h' hrest]

/-- Whether calls are plain depends on the size of the data only, so it is the same for every
array that refines one flat buffer. -/
theorem guarded_transfer (mem₁ mem₂ : Nat → Nat → UInt8) : ∀ (calls : List Call)
    (ba₁ ba₂ : ByteArray) (fb : FlatBuffer), Refines ba₁ fb → Refines ba₂ fb →
    Lib.Guarded (step mem₁) Plain ba₁ calls → Lib.Guarded (step mem₂) Plain ba₂ calls := by
  intro calls
  induction calls with
  | nil => intro ba₁ ba₂ fb _ _ _; trivial
  | cons c cs ih =>
      intro ba₁ ba₂ fb h₁ h₂ hg
      obtain ⟨hc, hrest⟩ := hg
      have hsize : ba₁.size = ba₂.size := h₁.length_data.symm.trans h₂.length_data
      have hc₂ : Plain ba₂ c := by
        cases c with
        | setPosition v =>
            show v ≤ ba₂.size
            rw [← hsize]
            exact hc
        | write buf => trivial
        | read n => exact hc
        | clear => exact hc.elim
        | getWriteBuffers len => exact hc.elim
        | readFromFile contents => exact hc.elim
        | setIsLittleEndian val => exact hc.elim
      refine ⟨hc₂, ?_⟩
      rcases refines_run h₁ mem₁ c hc with ⟨_, ba₁', hrun₁, hfb₁, h₁'⟩ | ⟨hrun₁, hfb₁, h₁'⟩
      · rcases refines_run h₂ mem₂ c hc₂ with ⟨_, ba₂', hrun₂, -, h₂'⟩ | ⟨-, hfb₂, -⟩
        · simp only [step, hrun₁] at hrest
          simp only [step, hrun₂]
          exact ih ba₁' ba₂' _ h₁' h₂' hrest
        · rw [hfb₁] at hfb₂
          cases hfb₂
      · rcases refines_run h₂ mem₂ c hc₂ with ⟨_, _, _, hfb₂, _⟩ | ⟨hrun₂, -, h₂'⟩
        · rw [hfb₁] at hfb₂
          cases hfb₂
        · simp only [step, hrun₁] at hrest
          simp only [step, hrun₂]
          exact ih ba₁ ba₂ _ h₁' h₂' hrest

end

/-- `missing` counts no block exactly when the bytes fit. -/
theorem missing_eq_zero_iff {ba : ByteArray} (h : Wf ba) (size : Nat) :
    missing ba size = 0 ↔ ba.position + size ≤ ba.capacity := by
  have hb := h.base_pos
  rw [missing, Nat.div_eq_zero_iff]
  omega

/-- A `ByteArray` is a flat buffer. In every reachable state `write` replaces the bytes
`[p, p + n)` and no other byte, after it appended whole blocks if the bytes did not fit. `read`
yields the bytes `[p, p + n)` and moves the position and the cursor. So the block size and the
content of fresh memory cannot be seen through plain calls. -/
theorem flat_buffer_refinement (mem₁ mem₂ : Nat → Nat → UInt8) (b₁ b₂ : Nat) (hb₁ : 1 ≤ b₁)
    (hb₂ : 1 ≤ b₂) :
    (∀ ba, Reachable mem₁ b₁ ba →
      (∀ buf : List UInt8, ∃ ba' blocks, write mem₁ buf ba = .ok () ba' ∧
        ba'.bytes.length = ba.bytes.length + b₁ * blocks ∧
        (blocks = 0 ↔ ba.position + buf.length ≤ ba.capacity) ∧
        ba'.bytes.length = ba'.capacity ∧
        (∀ i < buf.length, ba'.bytes[ba.position + i]? = buf[i]?) ∧
        (∀ i < ba.bytes.length, i < ba.position ∨ ba.position + buf.length ≤ i →
          ba'.bytes[i]? = ba.bytes[i]?) ∧
        ba'.position = ba.position + buf.length ∧
        ba'.size = max ba.size (ba.position + buf.length)) ∧
      ∀ n, 0 < n → n ≤ ba.getReadSize → ∃ cur,
        read n ba = .ok ((ba.bytes.drop ba.position).take n)
          { ba with cur := cur, position := ba.position + n }) ∧
    ∀ calls, Lib.Guarded (step mem₁) Plain (new mem₁ b₁) calls →
      trace mem₁ (new mem₁ b₁) calls = trace mem₂ (new mem₂ b₂) calls := by
  refine ⟨?_, ?_⟩
  · intro ba hreach
    obtain ⟨hwf, hbase⟩ := hreach.wf hb₁
    refine ⟨?_, ?_⟩
    · intro buf
      obtain ⟨ba', hrun, hwf', hpos, hsize, hcap, hin, hout⟩ := write_bytes hwf mem₁ buf
      refine ⟨ba', missing ba buf.length, hrun, ?_, missing_eq_zero_iff hwf _,
        hwf'.length_bytes, hin, hout, hpos, hsize⟩
      rw [hwf'.length_bytes, hwf.length_bytes, hcap, hbase]
    · intro n hn hle
      have hread := hwf.getReadSize_eq
      have hsize := hwf.size_le
      obtain ⟨cur, hrun, -⟩ := read_ok hwf hle (by omega)
      exact ⟨cur, hrun⟩
  · -- Both arrays refine the flat buffer, which has no block size.
    intro calls hg
    have h₁ := refines_new mem₁ hb₁
    have h₂ := refines_new mem₂ hb₂
    have hg₂ := guarded_transfer mem₁ mem₂ calls _ _ _ h₁ h₂ hg
    rw [trace_eq mem₁ calls _ _ h₁ hg, trace_eq mem₂ calls _ _ h₂ hg₂]

/-- Blocks of two and blocks of five, with different fresh memory: an overwrite across the
blocks of two, a read across them and a read past the end give the same trace. -/
theorem flat_buffer_refinement_two_five :
    trace (fun _ _ => 0) (new (fun _ _ => 0) 2)
        [.write [1, 2, 3, 4, 5], .setPosition 1, .write [7, 8], .read 2, .read 1] =
      [.ok [], .ok [], .ok [], .ok [4, 5], .error .outOfRange] ∧
    trace (fun _ _ => 0) (new (fun _ _ => 0) 2)
        [.write [1, 2, 3, 4, 5], .setPosition 1, .write [7, 8], .read 2, .read 1] =
      trace (fun _ _ => 255) (new (fun _ _ => 255) 5)
        [.write [1, 2, 3, 4, 5], .setPosition 1, .write [7, 8], .read 2, .read 1] :=
  ⟨rfl, (flat_buffer_refinement (fun _ _ => 0) (fun _ _ => 255) 2 5 (by decide) (by decide)).2 _
    ⟨trivial, by decide, trivial, by decide, by decide, trivial⟩⟩

end Sylar.ByteArray
