import Sylar.Lib.Text
import Sylar.Spec.ByteArray

/-!
# `Sylar.Spec.ByteArrayViews`: a `ByteArray` seen through its `const` functions

The read at a position of the caller's, `toString`, the two forms of `getReadBuffers`, and
`writeToFile`. Each follows the chain with a pointer `cur` of its own. They return no state, so
that they cannot change the array.

`getReadBuffers` hands out memory, and `writeToFile` hands memory to `ofstream::write`. Both are a
list of `Iovec`s here, so that a theorem can say which bytes of the array they are (`Covers`) and
not only which values stand there (`gather`).
-/

set_option autoImplicit false

namespace Sylar

open Lib

/-- The bytes that an `iovec` covers. -/
def Iovec.bytes (chain : List Node) (v : Iovec) : List UInt8 :=
  match chain[v.node]? with
  | none => []
  | some n => (n.ptr.drop v.off).take v.len

/-- No byte is in both: they lie in different blocks, or one ends before the other begins. -/
def Iovec.Disjoint (v w : Iovec) : Prop :=
  v.node ≠ w.node ∨ v.off + v.len ≤ w.off ∨ w.off + w.len ≤ v.off

namespace ByteArray

/-! ### Lists of `iovec`s -/

/-- The bytes of `iovec`s, one after the other. -/
def gather (chain : List Node) (iovs : List Iovec) : List UInt8 := iovs.flatMap (Iovec.bytes chain)

/-- The `iovec`s lie in the blocks of the array, one behind the other, and are its bytes
`[p, p + n)`. -/
def Covers (ba : ByteArray) : List Iovec → (p n : Nat) → Prop
  | [], _, n => n = 0
  | v :: vs, p, n =>
    v.node < ba.chain.length ∧ v.off + v.len ≤ ba.baseSize ∧ ba.baseSize * v.node + v.off = p ∧
      v.len ≤ n ∧ Covers ba vs (p + v.len) (n - v.len)

instance decidableCovers (ba : ByteArray) :
    ∀ (iovs : List Iovec) (p n : Nat), Decidable (Covers ba iovs p n)
  | [], _, n => inferInstanceAs (Decidable (n = 0))
  | v :: vs, p, n =>
    have := decidableCovers ba vs (p + v.len) (n - v.len)
    inferInstanceAs (Decidable (v.node < ba.chain.length ∧ v.off + v.len ≤ ba.baseSize ∧
      ba.baseSize * v.node + v.off = p ∧ v.len ≤ n ∧ Covers ba vs (p + v.len) (n - v.len)))

/-! ### The read at a position, and `toString` -/

/-- `read(buf, size, position)`. The result is the bytes stored in `buf`. The loop is the one of
`read(buf, size)`, on variables of its own. It starts at `m_cur`, whatever the position is. -/
def readAt (size position : Nat) (ba : ByteArray) : Except Err (List UInt8) :=
  if subSize ba.size position < size then .error .outOfRange
  else
    let npos := position % ba.baseSize
    match ba.cur, ba.fromCur with
    | some k, n :: rest => do
      let r ← readLoop (n :: rest) k position npos (subSize n.size npos) size
      .ok r.1
    | _, _ => .error .nullNode

/-- `toString()`. -/
def toString (ba : ByteArray) : Except Err (List UInt8) :=
  if ba.getReadSize = 0 then .ok [] else readAt ba.getReadSize ba.position ba

/-- The place in the block of the current position that has the offset of `position`. -/
def curStart (ba : ByteArray) (position : Nat) : Nat :=
  ba.baseSize * (ba.position / ba.baseSize) + position % ba.baseSize

/-- The read at a position does what it says: it throws when the bytes are not all there, and
returns them otherwise. -/
def ReadsAt (ba : ByteArray) (size position : Nat) : Prop :=
  if ba.size < position ∨ ba.size - position < size then
    readAt size position ba = .error .outOfRange
  else readAt size position ba = .ok ((ba.bytes.drop position).take size)

/-! ### `getReadBuffers` -/

/-- `len > getReadSize() ? getReadSize() : len`. -/
def clampLen (ba : ByteArray) (len : Nat) : Nat :=
  if ba.getReadSize < len then ba.getReadSize else len

/-- `getReadBuffers(buffers, len)`. The result is the `iovec`s appended to `buffers` and the
returned length. -/
def getReadBuffers (len : Nat) (ba : ByteArray) : Except Err (List Iovec × Nat) :=
  let len := ba.clampLen len
  if len = 0 then .ok ([], 0)
  else
    let npos := ba.position % ba.baseSize
    match ba.cur, ba.fromCur with
    | some k, n :: rest => do
      let iovs ← iovLoop (n :: rest) k npos (subSize n.size npos) len
      .ok (iovs, len)
    | _, _ => .error .nullNode

/-- `getReadBuffers(buffers, len, position)`. The bound of `len` is the one of the current
position. The walk from `m_root` over `count` blocks meets a null pointer, at the latest when it
reads `cur->size`, if there are no more blocks than that. -/
def getReadBuffersAt (len position : Nat) (ba : ByteArray) : Except Err (List Iovec × Nat) :=
  let len := ba.clampLen len
  if len = 0 then .ok ([], 0)
  else
    let npos := position % ba.baseSize
    let count := position / ba.baseSize
    match ba.chain.drop count with
    | n :: rest => do
      let iovs ← iovLoop (n :: rest) count npos (subSize n.size npos) len
      .ok (iovs, len)
    | [] => .error .nullNode

/-- `getReadBuffers(buffers, len, position)` hands out the bytes from `position` on, `len` of them
or as many as there are. -/
def ReadBuffersAt (ba : ByteArray) (len position : Nat) : Prop :=
  ∃ iovs, getReadBuffersAt len position ba = .ok (iovs, min len (ba.size - position)) ∧
    Covers ba iovs position (min len (ba.size - position))

/-! ### `writeToFile` -/

/-- The `while` loop of `writeToFile`, with `cur` at the first of the blocks `nodes`. The result is
the memory that is handed to `ofs.write`, call by call. `pos` and `readSize` are `int64_t`, and
`pos % m_baseSize` is a `size_t` that is stored in an `int`. -/
def exportLoop (b : Nat) : (nodes : List Node) → (cur : Nat) → (pos readSize : Int) →
    Except Err (List Iovec)
  | [], _, _, readSize => if 0 < readSize then .error .nullNode else .ok []
  | n :: rest, cur, pos, readSize =>
    if 0 < readSize then
      let diff := toInt32 (pos % 2 ^ 64 % b)
      -- A `size_t` minus an `int`, stored in an `int64_t`.
      let len := toInt64 ((if toInt64 b < readSize then (b : Int) else readSize) - diff)
      if 0 ≤ diff ∧ 0 ≤ len ∧ diff + len ≤ n.size then do
        let iovs ← exportLoop b rest (cur + 1) (pos + len) (readSize - len)
        .ok (⟨cur, diff.toNat, len.toNat⟩ :: iovs)
      else .error .overrun
    else .ok []

/-- `writeToFile(name)`: the returned value and what is written. `opened` is the state of the stream
behind `ofs.open`. -/
def writeToFile (opened : Bool) (ba : ByteArray) : Except Err (Bool × List Iovec) :=
  if !opened then .ok (false, [])
  else do
    let iovs ← exportLoop ba.baseSize ba.fromCur (ba.cur.getD 0) ba.position (toInt64 ba.getReadSize)
    .ok (true, iovs)

/-- `writeToFile` writes the bytes from the position to the end of the data. An array of any block
size that reads the file shows them from its beginning. -/
def ExportsExactly (ba : ByteArray) : Prop :=
  ∃ iovs, writeToFile true ba = .ok (true, iovs) ∧ Covers ba iovs ba.position ba.getReadSize ∧
    ∀ (mem : Nat → Nat → UInt8) (b : Nat), 1 ≤ b → ∃ ba₁ ba₂,
      readFromFile mem (some (gather ba.chain iovs)) (new mem b) = .ok true ba₁ ∧
        setPosition 0 ba₁ = .ok () ba₂ ∧ toString ba₂ = toString ba

end ByteArray

end Sylar
