import Sylar.Spec.ByteArrayCodec

/-!
# `Sylar.Spec.ByteArrayReads`: what a typed read needs

The reads of `ByteArrayCodec` take their bytes in several steps. Here is what they should find: the
encoding of a value is a number of fixed width or a varint, and the encoding of a string is such a
number with that many bytes behind it. `Head.decode` decodes a number from bytes, without an array.

A read should throw when the readable bytes have no complete encoding, and then change nothing
(`FailsCleanly`). The last part says in numbers which bytes a varint takes and what its value is.
-/

set_option autoImplicit false

namespace Sylar.ByteArray

/-- The bytes from the position to `m_size`. -/
def available (ba : ByteArray) : List UInt8 := (ba.bytes.take ba.size).drop ba.position

/-! ### Encodings -/

/-- The number of bytes of a varint of at most `rounds` bytes, and its value. The last of `rounds`
bytes ends it even when the continuation bit is set. -/
def decodeVarint : (rounds : Nat) → List UInt8 → Option (Nat × Nat)
  | 0, _ => some (0, 0)
  | _ + 1, [] => none
  | rounds + 1, b :: bs =>
    if b < 0x80 then some (1, b.toNat)
    else
      match decodeVarint rounds bs with
      | none => none
      | some (n, v) => some (n + 1, b.toNat % 128 + 128 * v)

/-- How a number is encoded: in `n` bytes, or as a varint for a word of `w` bits. -/
inductive Head where
  | fixed (n : Nat)
  | varint (w : Nat)
  deriving DecidableEq, Repr

namespace Head

/-- The size of the encoding that the bytes begin with, and its value. -/
def decode (e : Endian) : Head → List UInt8 → Option (Nat × Nat)
  | fixed n, bs => if n ≤ bs.length then some (n, ofObjectBytes e (bs.take n)) else none
  | varint w, bs => (decodeVarint ((w + 6) / 7) bs).map fun r => (r.1, r.2 % 2 ^ w)

/-- The bytes that are taken in the first step. -/
def first : Head → Nat
  | fixed n => n
  | varint _ => 1

end Head

/-! ### The reads -/

/-- The read operations. -/
inductive ReadOp where
  | value (k : Kind)
  | string (k : LengthKind)
  deriving DecidableEq, Repr

/-- The number that a value is. -/
def Kind.head : Kind → Head
  | fint8 => .fixed 1
  | fuint8 => .fixed 1
  | fint16 => .fixed 2
  | fuint16 => .fixed 2
  | fint32 => .fixed 4
  | fuint32 => .fixed 4
  | fint64 => .fixed 8
  | fuint64 => .fixed 8
  | int32 => .varint 32
  | uint32 => .varint 32
  | int64 => .varint 64
  | uint64 => .varint 64
  | float => .fixed 4
  | double => .fixed 8

/-- The number in front of a string. -/
def LengthKind.head : LengthKind → Head
  | f16 => .fixed 2
  | f32 => .fixed 4
  | f64 => .fixed 8
  | vint => .varint 64

namespace ReadOp

abbrev Value : ReadOp → Type
  | value k => k.Value
  | string _ => List UInt8

/-- The call. -/
def run (host : Endian) : (op : ReadOp) → Op op.Value
  | value k => k.read host
  | string k => readString host k

def head : ReadOp → Head
  | value k => k.head
  | string k => k.head

/-- The bytes behind the number `v`. -/
def body : ReadOp → (v : Nat) → Nat
  | value _, _ => 0
  | string _, v => v

/-- The bytes begin with a complete encoding. -/
def Complete (op : ReadOp) (e : Endian) (bs : List UInt8) : Prop :=
  ∃ n v, op.head.decode e bs = some (n, v) ∧ n + op.body v ≤ bs.length

/-- The read returns when the readable bytes have a complete encoding. Otherwise it throws
`std::out_of_range`, and position, cursor, size and contents are those before the call. -/
def FailsCleanly (host : Endian) (op : ReadOp) (ba : ByteArray) : Prop :=
  (op.Complete ba.endian ba.available → ∃ v ba', op.run host ba = .ok v ba') ∧
    (¬ op.Complete ba.endian ba.available → op.run host ba = .error .outOfRange ba)

/-- The read of an empty string whose length ends with the last block. -/
def AtNull (op : ReadOp) (ba : ByteArray) (n v : Nat) : Prop :=
  match op with
  | value _ => False
  | string _ => v = 0 ∧ ba.position + n = ba.capacity

end ReadOp

/-! ### Varints as numbers -/

/-- The bytes up to the first one below 0x80, and `rounds` of them at most. -/
def varintSize (rounds : Nat) (bs : List UInt8) : Nat := min rounds (1 + bs.findIdx (· < 0x80))

/-- The value of the first `n` bytes, seven bits of each. -/
def varintSum (n : Nat) (bs : List UInt8) : Nat :=
  ∑ i ∈ Finset.range n, (bs.getD i 0 &&& 0x7f).toNat * 2 ^ (7 * i)

/-- When the readable bytes have the varint, `op` returns its value as a word of `w` bits and moves
the position behind it. -/
def ReadsVarint {α : Type} (rounds w : Nat) (toNat : α → Nat) (op : Op α) (ba : ByteArray) : Prop :=
  varintSize rounds ba.available ≤ ba.available.length →
    ∃ v cur, op ba = .ok v { ba with
        position := ba.position + varintSize rounds ba.available, cur := cur } ∧
      toNat v = varintSum (varintSize rounds ba.available) ba.available % 2 ^ w

/-- All of `bs` is a varint, with the value `v` as a word of `w` bits. -/
def IsVarint (rounds w : Nat) (bs : List UInt8) (v : Nat) : Prop :=
  varintSize rounds bs = bs.length ∧ varintSum bs.length bs % 2 ^ w = v

/-- `op` writes a varint of `v` that fits in the `slots` elements of `tmp`. There is none with fewer
bytes. -/
def WritesShortest (mem : Nat → Nat → UInt8) (slots w v : Nat) (op : Op Unit) : Prop :=
  ∃ tmp, varintLoop slots v = .ok tmp ∧ op = write mem tmp ∧ tmp.length ≤ slots ∧
    IsVarint slots w tmp v ∧ ∀ bs, IsVarint slots w bs v → tmp.length ≤ bs.length

end Sylar.ByteArray
