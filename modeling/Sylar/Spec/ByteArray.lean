import Sylar.Lib.Run
import Sylar.Lib.Splice

/-!
# `Sylar.Spec.ByteArray`: the block chain of `bytearray.cpp`

A `ByteArray` keeps its bytes in a chain of blocks of `m_baseSize` bytes. `m_root` is the first
block and `m_cur` the block of the current position. The model keeps the chain as the list of
the blocks that are reachable from `m_root`, in order, and `m_cur` as an index into it. `none`
is the null pointer.

`new char[s]` does not set its bytes. So each allocation has a number, and `mem k i` is the byte
that the allocator left at offset `i` of the block with the number `k`. Every operation that
allocates takes `mem`, and the theorems hold for all `mem`.

`size_t` values are `Nat`. A difference is `subSize`, which wraps at `2 ^ 64` as the source
does. `ceil(1.0 * size / m_baseSize)` is the exact ceiling.

An operation is a function of the `EStateM` monad: it returns a value, or it ends with an `Err`,
and it leaves a state in both cases. `Err.outOfRange` is the exception `std::out_of_range`. The
other errors stand for undefined behaviour, so no theorem says anything about the state after
them.

The copy loops follow `m_cur` along the chain. They recurse on the chain from `m_cur` on, and
the empty chain is the null pointer.
-/

set_option autoImplicit false

namespace Sylar

/-- How an operation ends when it does not return. -/
inductive Err where
  /-- `throw std::out_of_range(..)`. -/
  | outOfRange
  /-- A member of a null `Node*` is read. -/
  | nullNode
  /-- A copy leaves the bytes of its block, or an index leaves its array. -/
  | overrun
  /-- A loop that does not end. -/
  | diverges
  deriving DecidableEq, Repr

/-- The difference of two `size_t` values. -/
def subSize (a b : Nat) : Nat := if b ≤ a then a - b else a + 2 ^ 64 - b

/-- `ByteArray::Node`. The block `ptr` has the `size` bytes that its constructor allocates. -/
structure Node where
  size : Nat
  ptr : List UInt8
  ptr_length : ptr.length = size
  deriving DecidableEq

namespace Node

/-- `new Node(s)`, the allocation with the number `k`. -/
def new (mem : Nat → Nat → UInt8) (k s : Nat) : Node where
  size := s
  ptr := (List.range s).map (mem k)
  ptr_length := by simp

/-- `memcpy(ptr + off, src, src.size)`. -/
def store (n : Node) (off : Nat) (src : List UInt8) : Except Err Node :=
  if h : off + src.length ≤ n.size then
    .ok ⟨n.size, Lib.splice n.ptr off src, by
      rw [Lib.length_splice (by rw [n.ptr_length]; exact h), n.ptr_length]⟩
  else .error .overrun

/-- `memcpy(dst, ptr + off, len)`. The result is the bytes that reach `dst`. -/
def load (n : Node) (off len : Nat) : Except Err (List UInt8) :=
  if off + len ≤ n.size then .ok ((n.ptr.drop off).take len) else .error .overrun

end Node

/-- `SYLAR_LITTLE_ENDIAN` and `SYLAR_BIG_ENDIAN`. -/
inductive Endian where
  | little
  | big
  deriving DecidableEq, Repr

/-- The state of a `ByteArray`. `allocs` counts the blocks it has allocated so far, and gives
the next block its number. -/
structure ByteArray where
  baseSize : Nat
  position : Nat
  capacity : Nat
  size : Nat
  endian : Endian
  chain : List Node
  cur : Option Nat
  allocs : Nat
  deriving DecidableEq

/-- An operation on a `ByteArray`. -/
abbrev Op (α : Type) : Type := EStateM Err ByteArray α

/-- One `iovec`: `iov_base = ptr + off` in the block with the index `node`, and `iov_len`. -/
structure Iovec where
  node : Nat
  off : Nat
  len : Nat
  deriving DecidableEq, Repr

namespace ByteArray

/-- `ByteArray(base_size)`. -/
def new (mem : Nat → Nat → UInt8) (baseSize : Nat) : ByteArray where
  baseSize := baseSize
  position := 0
  capacity := baseSize
  size := 0
  endian := .big
  chain := [Node.new mem 0 baseSize]
  cur := some 0
  allocs := 1

/-- `getReadSize()`: `m_size - m_position`. -/
def getReadSize (ba : ByteArray) : Nat := subSize ba.size ba.position

/-- `getCapacity()`: `m_capacity - m_position`. -/
def getCapacity (ba : ByteArray) : Nat := subSize ba.capacity ba.position

/-- `isLittleEndian()`. -/
def isLittleEndian (ba : ByteArray) : Bool := ba.endian = .little

/-- `setIsLittleEndian(val)`. -/
def setIsLittleEndian (val : Bool) : Op Unit := fun ba =>
  .ok () { ba with endian := if val then .little else .big }

/-- The blocks from `m_cur` on, none when `m_cur` is null. -/
def fromCur (ba : ByteArray) : List Node :=
  match ba.cur with
  | none => []
  | some k => ba.chain.drop k

/-- The blocks before `m_cur`. -/
def beforeCur (ba : ByteArray) : List Node :=
  match ba.cur with
  | none => ba.chain
  | some k => ba.chain.take k

/-- `cur->next`, for the block with the index `cur` and the blocks `rest` after it. -/
def nextOf (rest : List Node) (cur : Nat) : Option Nat :=
  if rest.isEmpty then none else some (cur + 1)

/-- The `for` loop of `addCapacity`: `count` new blocks at the end of the chain. -/
def appendNodes (mem : Nat → Nat → UInt8) : Nat → ByteArray → ByteArray
  | 0, ba => ba
  | count + 1, ba =>
    appendNodes mem count
      { ba with
        chain := ba.chain ++ [Node.new mem ba.allocs ba.baseSize]
        capacity := ba.capacity + ba.baseSize
        allocs := ba.allocs + 1 }

/-- `addCapacity(size)`. The cursor moves to the first new block when the old capacity was used
up, since `m_cur` is null then. -/
def addCapacity (mem : Nat → Nat → UInt8) (size : Nat) (ba : ByteArray) : ByteArray :=
  if size = 0 then ba
  else
    let oldCap := ba.getCapacity
    if size ≤ oldCap then ba
    else
      let count := (size - oldCap + ba.baseSize - 1) / ba.baseSize
      let first := if count = 0 then none else some ba.chain.length
      let ba' := appendNodes mem count ba
      if oldCap = 0 then { ba' with cur := first } else ba'

/-- The `while` loop of `write`, with `m_cur` at the first of the blocks `nodes`. `buf` is what
is left to copy. The result is the blocks after the copy, `m_cur` and `m_position`. -/
def writeLoop : (nodes : List Node) → (cur position npos ncap : Nat) → (buf : List UInt8) →
    Except Err (List Node × Option Nat × Nat)
  | [], cur, position, _, _, buf =>
    if buf.length = 0 then .ok ([], some cur, position) else .error .nullNode
  | n :: rest, cur, position, npos, ncap, buf =>
    if buf.length = 0 then .ok (n :: rest, some cur, position)
    else if buf.length ≤ ncap then do
      let n' ← n.store npos buf
      -- A block that is filled to its end moves the cursor on.
      let cur' := if n.size = npos + buf.length then nextOf rest cur else some cur
      .ok (n' :: rest, cur', position + buf.length)
    else do
      let n' ← n.store npos (buf.take ncap)
      match rest.head? with
      | none => .error .nullNode
      | some m =>
        let r ← writeLoop rest (cur + 1) (position + ncap) 0 m.size (buf.drop ncap)
        .ok (n' :: r.1, r.2)

/-- `write(buf, size)`. -/
def write (mem : Nat → Nat → UInt8) (buf : List UInt8) : Op Unit := fun ba =>
  if buf.length = 0 then .ok () ba
  else
    let ba := addCapacity mem buf.length ba
    let npos := ba.position % ba.baseSize
    match ba.cur, ba.fromCur with
    | some k, n :: rest =>
      match writeLoop (n :: rest) k ba.position npos (subSize n.size npos) buf with
      | .error e => .error e ba
      | .ok (nodes, cur, position) =>
        .ok () { ba with
          chain := ba.beforeCur ++ nodes
          cur := cur
          position := position
          size := if ba.size < position then position else ba.size }
    | _, _ => .error .nullNode ba

/-- The `while` loop of `read`, with `m_cur` at the first of the blocks `nodes`. The result is
the bytes copied to the caller's buffer, `m_cur` and `m_position`. -/
def readLoop : (nodes : List Node) → (cur position npos ncap size : Nat) →
    Except Err (List UInt8 × Option Nat × Nat)
  | [], cur, position, _, _, size =>
    if size = 0 then .ok ([], some cur, position) else .error .nullNode
  | n :: rest, cur, position, npos, ncap, size =>
    if size = 0 then .ok ([], some cur, position)
    else if size ≤ ncap then do
      let out ← n.load npos size
      let cur' := if n.size = npos + size then nextOf rest cur else some cur
      .ok (out, cur', position + size)
    else do
      let out ← n.load npos ncap
      match rest.head? with
      | none => .error .nullNode
      | some m =>
        let r ← readLoop rest (cur + 1) (position + ncap) 0 m.size (size - ncap)
        .ok (out ++ r.1, r.2)

/-- `read(buf, size)`. The result is the bytes stored in `buf`. `m_cur->size` is read before the
loop, also when `size` is 0. -/
def read (size : Nat) : Op (List UInt8) := fun ba =>
  if ba.getReadSize < size then .error .outOfRange ba
  else
    let npos := ba.position % ba.baseSize
    match ba.cur, ba.fromCur with
    | some k, n :: rest =>
      match readLoop (n :: rest) k ba.position npos (subSize n.size npos) size with
      | .error e => .error e ba
      | .ok (out, cur, position) => .ok out { ba with cur := cur, position := position }
    | _, _ => .error .nullNode ba

/-- `read(buf, size)` does what the bytes in front of it say: it completes when there are enough,
and throws otherwise. -/
def ReadsAvailable (ba : ByteArray) (size : Nat) : Prop :=
  if size ≤ ba.getReadSize then ∃ out ba', read size ba = .ok out ba'
  else read size ba = .error .outOfRange ba

/-- The `while` loop of `setPosition` and the test after it. -/
def seek : List Node → (cur v : Nat) → Except Err (Option Nat)
  | [], _, _ => .error .nullNode
  | n :: rest, cur, v =>
    if n.size < v then seek rest (cur + 1) (v - n.size)
    else if v = n.size then .ok (nextOf rest cur)
    else .ok (some cur)

/-- `setPosition(v)`. -/
def setPosition (v : Nat) : Op Unit := fun ba =>
  if ba.capacity < v then .error .outOfRange ba
  else
    let ba := { ba with position := v, size := if ba.size < v then v else ba.size }
    match seek ba.chain 0 v with
    | .error e => .error e ba
    | .ok cur => .ok () { ba with cur := cur }

/-- `clear()`. The blocks after `m_root` are deleted. -/
def clear : Op Unit := fun ba =>
  .ok () { ba with
    position := 0
    size := 0
    capacity := ba.baseSize
    chain := ba.chain.take 1
    cur := some 0 }

/-- The `while` loop that collects the `iovec`s of `len` bytes, with `cur` at the first of the
blocks `nodes`. `getWriteBuffers` and both forms of `getReadBuffers` have this loop. -/
def iovLoop : (nodes : List Node) → (cur npos ncap len : Nat) → Except Err (List Iovec)
  | [], _, _, _, len => if len = 0 then .ok [] else .error .nullNode
  | _ :: rest, cur, npos, ncap, len =>
    if len = 0 then .ok []
    else if len ≤ ncap then .ok [⟨cur, npos, len⟩]
    else
      match rest.head? with
      | none => .error .nullNode
      | some m => do
        let iovs ← iovLoop rest (cur + 1) 0 m.size (len - ncap)
        .ok (⟨cur, npos, ncap⟩ :: iovs)

/-- `getWriteBuffers(buffers, len)`. The result is the `iovec`s appended to `buffers` and the
returned length. -/
def getWriteBuffers (mem : Nat → Nat → UInt8) (len : Nat) : Op (List Iovec × Nat) := fun ba =>
  if len = 0 then .ok ([], 0) ba
  else
    let ba := addCapacity mem len ba
    let npos := ba.position % ba.baseSize
    match ba.cur, ba.fromCur with
    | some k, n :: rest =>
      match iovLoop (n :: rest) k npos (subSize n.size npos) len with
      | .error e => .error e ba
      | .ok iovs => .ok (iovs, len) ba
    | _, _ => .error .nullNode ba

/-- The `while (!ifs.eof())` loop of `readFromFile` on the rest of the file. A read that gets
fewer bytes than it asks for sets `eof`. The fuel bounds the number of reads. -/
def readFileLoop (mem : Nat → Nat → UInt8) : Nat → List UInt8 → Op Unit
  | 0, _ => throw .diverges
  | fuel + 1, rest => do
    let ba ← get
    write mem (rest.take ba.baseSize)
    if rest.length < ba.baseSize then pure ()
    else readFileLoop mem fuel (rest.drop ba.baseSize)

/-- `readFromFile(name)`, with the contents of the file, or `none` when it cannot be opened. -/
def readFromFile (mem : Nat → Nat → UInt8) : Option (List UInt8) → Op Bool
  | none => pure false
  | some contents => do
    readFileLoop mem (contents.length + 1) contents
    pure true

/-! ### Runs -/

/-- One call on a `ByteArray`. The typed reads and writes are sequences of these calls. -/
inductive Call where
  | write (buf : List UInt8)
  | read (size : Nat)
  | setPosition (v : Nat)
  | clear
  | getWriteBuffers (len : Nat)
  | readFromFile (contents : Option (List UInt8))
  | setIsLittleEndian (val : Bool)
  deriving DecidableEq

/-- The call itself. The result is the bytes it hands to the caller, none but for `read`. -/
def Call.run (mem : Nat → Nat → UInt8) : Call → Op (List UInt8)
  | .write buf => do ByteArray.write mem buf; pure []
  | .read size => ByteArray.read size
  | .setPosition v => do ByteArray.setPosition v; pure []
  | .clear => do ByteArray.clear; pure []
  | .getWriteBuffers len => do let _ ← ByteArray.getWriteBuffers mem len; pure []
  | .readFromFile contents => do let _ ← ByteArray.readFromFile mem contents; pure []
  | .setIsLittleEndian val => do ByteArray.setIsLittleEndian val; pure []

/-- The state after a call that returns or throws `std::out_of_range`. -/
def step (mem : Nat → Nat → UInt8) (ba : ByteArray) (c : Call) : Option ByteArray :=
  match c.run mem ba with
  | .ok _ ba' => some ba'
  | .error .outOfRange ba' => some ba'
  | .error _ _ => none

/-- The states that calls reach from `ByteArray(baseSize)`. -/
def Reachable (mem : Nat → Nat → UInt8) (baseSize : Nat) (ba : ByteArray) : Prop :=
  ∃ calls : List Call, Lib.exec (step mem) (new mem baseSize) calls = some ba

/-- The bytes of the chain, block after block. -/
def bytes (ba : ByteArray) : List UInt8 := ba.chain.flatMap Node.ptr

end ByteArray

end Sylar
