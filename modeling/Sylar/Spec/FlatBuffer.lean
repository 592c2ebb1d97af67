import Sylar.Spec.ByteArray

/-!
# `Sylar.Spec.FlatBuffer`: what a `ByteArray` is for

A `FlatBuffer` is a byte string with a position in it. It has no blocks, no capacity and no
cursor. A write overwrites from the position on and extends the string at its end. A read takes
bytes from the position on. Both move the position.

This is the abstract model of a `ByteArray` used through `write`, `read` of at least one byte
and `setPosition` inside the data. `Proofs/ByteArray/Flat.lean` proves that the block chain
behaves like it, for every block size.
-/

set_option autoImplicit false

namespace Sylar

/-- A byte string and a position in it. -/
structure FlatBuffer where
  data : List UInt8
  pos : Nat
  pos_le : pos ≤ data.length

namespace FlatBuffer

/-- The empty string. -/
def empty : FlatBuffer := ⟨[], 0, Nat.le_refl 0⟩

theorem write_pos_le (fb : FlatBuffer) (buf : List UInt8) :
    fb.pos + buf.length ≤ (Lib.splice fb.data fb.pos buf).length := by
  have h := fb.pos_le
  simp only [Lib.splice, List.length_append, List.length_take]
  omega

/-- Overwrite from the position on. -/
def write (fb : FlatBuffer) (buf : List UInt8) : FlatBuffer where
  data := Lib.splice fb.data fb.pos buf
  pos := fb.pos + buf.length
  pos_le := write_pos_le fb buf

/-- Take `n` bytes from the position on. -/
def read (fb : FlatBuffer) (n : Nat) : Except Err (List UInt8 × FlatBuffer) :=
  if h : fb.pos + n ≤ fb.data.length then
    .ok ((fb.data.drop fb.pos).take n, ⟨fb.data, fb.pos + n, h⟩)
  else .error .outOfRange

/-- Move the position inside the string. -/
def setPosition (fb : FlatBuffer) (v : Nat) : Except Err FlatBuffer :=
  if h : v ≤ fb.data.length then .ok ⟨fb.data, v, h⟩ else .error .outOfRange

/-- One call: what the caller gets, and the buffer after it. The calls that are not about the
flat view leave the buffer alone. -/
def call (fb : FlatBuffer) : ByteArray.Call → Except Err (List UInt8) × FlatBuffer
  | .write buf => (.ok [], fb.write buf)
  | .read n =>
    match fb.read n with
    | .ok (out, fb') => (.ok out, fb')
    | .error e => (.error e, fb)
  | .setPosition v =>
    match fb.setPosition v with
    | .ok fb' => (.ok [], fb')
    | .error e => (.error e, fb)
  | _ => (.ok [], fb)

/-- What the caller gets from a list of calls. -/
def trace : FlatBuffer → List ByteArray.Call → List (Except Err (List UInt8))
  | _, [] => []
  | fb, c :: cs => (fb.call c).1 :: trace (fb.call c).2 cs

end FlatBuffer

namespace ByteArray

/-- What the caller of a `ByteArray` gets from a list of calls. An exception leaves the array
usable, so the trace goes on after it. It stops at undefined behaviour. -/
def trace (mem : Nat → Nat → UInt8) : ByteArray → List Call → List (Except Err (List UInt8))
  | _, [] => []
  | ba, c :: cs =>
    match c.run mem ba with
    | .ok out ba' => .ok out :: trace mem ba' cs
    | .error .outOfRange ba' => .error .outOfRange :: trace mem ba' cs
    | .error e _ => [.error e]

/-- The calls of the flat view: writes, reads of at least one byte, and seeks inside the data. -/
def Plain (ba : ByteArray) : Call → Prop
  | .write _ => True
  | .read n => 0 < n
  | .setPosition v => v ≤ ba.size
  | _ => False

instance (ba : ByteArray) (c : Call) : Decidable (Plain ba c) := by
  cases c <;> unfold Plain <;> infer_instance

end ByteArray

end Sylar
