import Sylar.Proofs.ByteArray.Flat

/-!
# `Sylar.Proofs.ByteArray.Stream`: operations as what they write and what they read

`Writes e e' op bytes` says that `op`, started under the byte order `e`, writes exactly `bytes`
at the position and leaves the byte order `e'`. `Reads e e' op bytes v` says that `op` consumes
exactly `bytes` and returns `v`, whatever comes after them.

There is one rule for each construct the typed operations are made of. A codec is proved with
these rules, and never looks at blocks or positions.
-/

set_option autoImplicit false

namespace Sylar

namespace FlatBuffer

/-- Two flat buffers with the same data and position are equal. -/
theorem eq_of_data_pos {fb fb' : FlatBuffer} (hd : fb.data = fb'.data) (hp : fb.pos = fb'.pos) :
    fb = fb' := by
  cases fb
  cases fb'
  cases hd
  cases hp
  rfl

theorem write_nil (fb : FlatBuffer) : fb.write [] = fb :=
  eq_of_data_pos (Lib.splice_nil fb.data fb.pos) rfl

/-- Two writes in a row are the write of both. -/
theorem write_write (fb : FlatBuffer) (a b : List UInt8) :
    (fb.write a).write b = fb.write (a ++ b) := by
  refine eq_of_data_pos (Lib.splice_splice b fb.pos_le) ?_
  show fb.pos + a.length + b.length = fb.pos + (a ++ b).length
  rw [List.length_append, Nat.add_assoc]

/-- What was written stands at the old position. -/
theorem drop_write (fb : FlatBuffer) (a : List UInt8) :
    (fb.write a).data.drop fb.pos = a ++ fb.data.drop (fb.pos + a.length) := by
  have hlen : (fb.data.take fb.pos).length = fb.pos := by
    rw [List.length_take, Nat.min_eq_left fb.pos_le]
  show (fb.data.take fb.pos ++ a ++ _).drop fb.pos = _
  rw [List.append_assoc, List.drop_left' hlen]

end FlatBuffer

namespace ByteArray

/-! ### Writing -/

/-- Under the byte order `e`, `op` writes exactly `bytes`, and leaves the byte order `e'`. -/
def Writes (e e' : Endian) (op : Op Unit) (bytes : List UInt8) : Prop :=
  ∀ ba fb, Refines ba fb → ba.endian = e →
    ∃ ba', op ba = .ok () ba' ∧ Refines ba' (fb.write bytes) ∧ ba'.endian = e'

/-- The byte order that `setIsLittleEndian` sets. -/
def endianOf (val : Bool) : Endian := if val then .little else .big

section
variable {e e' e'' : Endian}

theorem Writes.pure : Writes e e (Pure.pure ()) [] := by
  intro ba fb h he
  rw [FlatBuffer.write_nil]
  exact ⟨ba, rfl, h, he⟩

theorem Writes.write (mem : Nat → Nat → UInt8) (buf : List UInt8) :
    Writes e e (write mem buf) buf := by
  intro ba fb h he
  obtain ⟨ba', hrun, h', hend⟩ := refines_write h mem buf
  exact ⟨ba', hrun, h', hend.trans he⟩

theorem Writes.seq {op : Op Unit} {f : Unit → Op Unit} {a b : List UInt8}
    (hop : Writes e e' op a) (hf : Writes e' e'' (f ()) b) : Writes e e'' (op >>= f) (a ++ b) := by
  intro ba fb h he
  obtain ⟨ba₁, hrun₁, h₁, he₁⟩ := hop ba fb h he
  obtain ⟨ba₂, hrun₂, h₂, he₂⟩ := hf ba₁ _ h₁ he₁
  rw [FlatBuffer.write_write] at h₂
  exact ⟨ba₂, (Lib.estate_bind_ok hrun₁).trans hrun₂, h₂, he₂⟩

/-- Reading the state only tells which byte order is set. -/
theorem Writes.get {f : ByteArray → Op Unit} {a : List UInt8}
    (hf : ∀ ba, ba.endian = e → Writes e e' (f ba) a) :
    Writes e e' (MonadState.get >>= f) a := by
  intro ba fb h he
  obtain ⟨ba', hrun, h'⟩ := hf ba he ba fb h he
  exact ⟨ba', (Lib.estate_bind_ok (Lib.estate_get ba)).trans hrun, h'⟩

/-- The byte order is no part of the flat buffer. -/
theorem Refines.withEndian {ba : ByteArray} {fb : FlatBuffer} (h : Refines ba fb) (x : Endian) :
    Refines { ba with endian := x } fb :=
  ⟨⟨h.wf.base_pos, h.wf.pos_le, h.wf.size_le, h.wf.uniform, h.wf.chain_pos, h.wf.cap_eq,
    h.wf.cur_eq⟩, h.data_eq, h.pos_eq⟩

theorem Writes.setIsLittleEndian (val : Bool) :
    Writes e (endianOf val) (setIsLittleEndian val) [] := by
  intro ba fb h _
  rw [FlatBuffer.write_nil]
  exact ⟨_, rfl, h.withEndian _, rfl⟩

/-! ### Reading -/

/-- Under the byte order `e`, `op` consumes exactly `bytes`, returns `v` and leaves the byte
order `e'`. -/
def Reads {α : Type} (e e' : Endian) (op : Op α) (bytes : List UInt8) (v : α) : Prop :=
  ∀ ba fb rest, Refines ba fb → ba.endian = e → fb.data.drop fb.pos = bytes ++ rest →
    ∃ ba' fb', op ba = .ok v ba' ∧ Refines ba' fb' ∧ ba'.endian = e' ∧
      fb'.data = fb.data ∧ fb'.pos = fb.pos + bytes.length

variable {α β : Type}

theorem Reads.pure (v : α) : Reads e e (Pure.pure v) [] v := by
  intro ba fb rest h he _
  exact ⟨ba, fb, rfl, h, he, rfl, rfl⟩

theorem Reads.read {bytes : List UInt8} {n : Nat} (hlen : bytes.length = n) (hn : 0 < n) :
    Reads e e (read n) bytes bytes := by
  intro ba fb rest h he hdata
  have hfit : fb.pos + n ≤ fb.data.length := by
    have hl := congrArg List.length hdata
    rw [List.length_drop, List.length_append] at hl
    omega
  rcases refines_read h hn with ⟨hfb, -⟩ | ⟨out, fb', ba', hfb, hrun, h', hend⟩
  · rw [FlatBuffer.read, dif_pos hfit] at hfb
    cases hfb
  · rw [FlatBuffer.read, dif_pos hfit, hdata, List.take_left' hlen] at hfb
    cases hfb
    refine ⟨ba', _, hrun, h', hend.trans he, rfl, ?_⟩
    show fb.pos + n = fb.pos + bytes.length
    rw [hlen]

theorem Reads.bind {op : Op α} {f : α → Op β} {a b : List UInt8} {v : α} {u : β}
    (hop : Reads e e' op a v) (hf : Reads e' e'' (f v) b u) :
    Reads e e'' (op >>= f) (a ++ b) u := by
  intro ba fb rest h he hdata
  rw [List.append_assoc] at hdata
  obtain ⟨ba₁, fb₁, hrun₁, h₁, he₁, hd₁, hp₁⟩ := hop ba fb (b ++ rest) h he hdata
  have hdata₁ : fb₁.data.drop fb₁.pos = b ++ rest := by
    rw [hd₁, hp₁, ← List.drop_drop, hdata, List.drop_left]
  obtain ⟨ba₂, fb₂, hrun₂, h₂, he₂, hd₂, hp₂⟩ := hf ba₁ fb₁ rest h₁ he₁ hdata₁
  refine ⟨ba₂, fb₂, (Lib.estate_bind_ok hrun₁).trans hrun₂, h₂, he₂, hd₂.trans hd₁, ?_⟩
  rw [hp₂, hp₁, List.length_append, Nat.add_assoc]

/-- A read followed by a conversion of its value. -/
theorem Reads.map {op : Op α} {a : List UInt8} {v : α} (g : α → β) (hop : Reads e e' op a v) :
    Reads e e' (op >>= fun x => Pure.pure (g x)) a (g v) := by
  have h : Reads e e' (op >>= fun x => Pure.pure (g x)) (a ++ []) (g v) :=
    hop.bind (Reads.pure (g v))
  rwa [List.append_nil] at h

theorem Reads.get {f : ByteArray → Op α} {a : List UInt8} {v : α}
    (hf : ∀ ba, ba.endian = e → Reads e e' (f ba) a v) :
    Reads e e' (MonadState.get >>= f) a v := by
  intro ba fb rest h he hdata
  obtain ⟨ba', fb', hrun, h'⟩ := hf ba he ba fb rest h he hdata
  exact ⟨ba', fb', (Lib.estate_bind_ok (Lib.estate_get ba)).trans hrun, h'⟩

theorem Reads.setIsLittleEndian (val : Bool) :
    Reads e (endianOf val) (setIsLittleEndian val) [] () := by
  intro ba fb rest h _ _
  exact ⟨_, fb, rfl, h.withEndian _, rfl, rfl, rfl⟩

end

end ByteArray

end Sylar
