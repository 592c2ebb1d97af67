import Sylar.Lib.Bytes
import Sylar.Spec.ByteArray

/-!
# `Sylar.Spec.ByteArrayCodec`: the typed reads and writes of a `ByteArray`

The fixed-width operations copy the bytes of a C++ object. Which byte comes first is the byte
order of the host, `SYLAR_BYTE_ORDER`, a parameter `host` here. `m_endian` is the order that the
caller asked for, and the value is swapped when the two differ.

The variable-width operations split the value into groups of seven bits, least significant group
first. The signed ones map the value to an unsigned one with a zigzag code before that.

`float` and `double` are their bit patterns: the source copies the object into an integer.
-/

set_option autoImplicit false

namespace Sylar.ByteArray

open Lib (leBytes ofLE)

/-! ### Objects in memory -/

/-- The bytes of an object of `n` bytes with the value `v`, in the order of their addresses. -/
def objectBytes (host : Endian) (n v : Nat) : List UInt8 :=
  match host with
  | .little => leBytes n v
  | .big => (leBytes n v).reverse

/-- The value of an object with the given bytes. -/
def ofObjectBytes (host : Endian) (bs : List UInt8) : Nat :=
  match host with
  | .little => ofLE bs
  | .big => ofLE bs.reverse

/-- `byteswap(value)` for a type of `n` bytes: `bswap_16`, `bswap_32`, `bswap_64`. -/
def byteswap (n v : Nat) : Nat := ofLE (leBytes n v).reverse

/-! ### Fixed width -/

section
variable (mem : Nat → Nat → UInt8) (host : Endian)

/-- The body shared by the fixed-width writes of more than one byte. -/
def writeFixed (n value : Nat) : Op Unit := do
  let ba ← get
  let value := if ba.endian ≠ host then byteswap n value else value
  write mem (objectBytes host n value)

/-- One byte is never swapped. -/
def writeFint8 (value : Int8) : Op Unit := write mem (objectBytes host 1 value.toUInt8.toNat)

def writeFuint8 (value : UInt8) : Op Unit := write mem (objectBytes host 1 value.toNat)

def writeFint16 (value : Int16) : Op Unit := writeFixed mem host 2 value.toUInt16.toNat

def writeFuint16 (value : UInt16) : Op Unit := writeFixed mem host 2 value.toNat

def writeFint32 (value : Int32) : Op Unit := writeFixed mem host 4 value.toUInt32.toNat

def writeFuint32 (value : UInt32) : Op Unit := writeFixed mem host 4 value.toNat

def writeFint64 (value : Int64) : Op Unit := writeFixed mem host 8 value.toUInt64.toNat

def writeFuint64 (value : UInt64) : Op Unit := writeFixed mem host 8 value.toNat

/-- `writeFloat`, on the bit pattern of the value. -/
def writeFloat (value : UInt32) : Op Unit := writeFuint32 mem host value

/-- `writeDouble`, on the bit pattern of the value. -/
def writeDouble (value : UInt64) : Op Unit := writeFuint64 mem host value

/-- The macro `XX(type)` of the fixed-width reads of more than one byte. -/
def readFixed (n : Nat) : Op Nat := do
  let bs ← read n
  let v := ofObjectBytes host bs
  let ba ← get
  pure (if ba.endian = host then v else byteswap n v)

def readFint8 : Op Int8 := do
  let bs ← read 1
  pure (UInt8.ofNat (ofObjectBytes host bs)).toInt8

def readFuint8 : Op UInt8 := do
  let bs ← read 1
  pure (UInt8.ofNat (ofObjectBytes host bs))

def readFint16 : Op Int16 := do
  let v ← readFixed host 2
  pure (UInt16.ofNat v).toInt16

def readFuint16 : Op UInt16 := do
  let v ← readFixed host 2
  pure (UInt16.ofNat v)

def readFint32 : Op Int32 := do
  let v ← readFixed host 4
  pure (UInt32.ofNat v).toInt32

def readFuint32 : Op UInt32 := do
  let v ← readFixed host 4
  pure (UInt32.ofNat v)

def readFint64 : Op Int64 := do
  let v ← readFixed host 8
  pure (UInt64.ofNat v).toInt64

def readFuint64 : Op UInt64 := do
  let v ← readFixed host 8
  pure (UInt64.ofNat v)

/-- `readFloat`, as a bit pattern. -/
def readFloat : Op UInt32 := readFuint32 host

/-- `readDouble`, as a bit pattern. -/
def readDouble : Op UInt64 := readFuint64 host

end

/-! ### Variable width -/

/-- `EncodeZigzag32`. The negation of the least value wraps. -/
def encodeZigzag32 (v : Int32) : UInt32 :=
  if v < 0 then (-v).toUInt32 * 2 - 1 else (v * 2).toUInt32

/-- `EncodeZigzag64`. The negation of the least value wraps. -/
def encodeZigzag64 (v : Int64) : UInt64 :=
  if v < 0 then (-v).toUInt64 * 2 - 1 else (v * 2).toUInt64

/-- `DecodeZigzag32`. -/
def decodeZigzag32 (v : UInt32) : Int32 := ((v >>> 1) ^^^ (-(v &&& 1))).toInt32

/-- `DecodeZigzag64`. -/
def decodeZigzag64 (v : UInt64) : Int64 := ((v >>> 1) ^^^ (-(v &&& 1))).toInt64

/-- The loop that fills `tmp`. `slots` counts the elements of `tmp` that are left, and a store
past the last one is undefined behaviour. -/
def varintLoop : (slots value : Nat) → Except Err (List UInt8)
  | 0, _ => .error .overrun
  | slots + 1, value =>
    if 0x80 ≤ value then do
      let rest ← varintLoop slots (value >>> 7)
      pure (UInt8.ofNat ((value &&& 0x7F) ||| 0x80) :: rest)
    else pure [UInt8.ofNat value]

/-- The body shared by `writeUint32` and `writeUint64`, with the length of `tmp`. -/
def writeVarint (mem : Nat → Nat → UInt8) (slots value : Nat) : Op Unit := fun ba =>
  match varintLoop slots value with
  | .ok tmp => write mem tmp ba
  | .error e => .error e ba

def writeUint32 (mem : Nat → Nat → UInt8) (value : UInt32) : Op Unit :=
  writeVarint mem 5 value.toNat

def writeUint64 (mem : Nat → Nat → UInt8) (value : UInt64) : Op Unit :=
  writeVarint mem 10 value.toNat

def writeInt32 (mem : Nat → Nat → UInt8) (value : Int32) : Op Unit :=
  writeUint32 mem (encodeZigzag32 value)

def writeInt64 (mem : Nat → Nat → UInt8) (value : Int64) : Op Unit :=
  writeUint64 mem (encodeZigzag64 value)

section
variable (host : Endian)

/-- The loop `for (int i = 0; i < w; i += 7)` with `rounds` rounds left. The result is a word of
`w` bits, so a shift drops the bits above. -/
def readVarintLoop (w : Nat) : (rounds i result : Nat) → Op Nat
  | 0, _, result => pure result
  | rounds + 1, i, result => do
    let b ← readFuint8 host
    if b < 0x80 then pure ((result ||| b.toNat <<< i) % 2 ^ w)
    else readVarintLoop w rounds (i + 7) ((result ||| (b &&& 0x7f).toNat <<< i) % 2 ^ w)

/-- The body shared by `readUint32` and `readUint64`. -/
def readVarint (w : Nat) : Op Nat := readVarintLoop host w ((w + 6) / 7) 0 0

def readUint32 : Op UInt32 := do
  let v ← readVarint host 32
  pure (UInt32.ofNat v)

def readUint64 : Op UInt64 := do
  let v ← readVarint host 64
  pure (UInt64.ofNat v)

def readInt32 : Op Int32 := do
  let v ← readUint32 host
  pure (decodeZigzag32 v)

def readInt64 : Op Int64 := do
  let v ← readUint64 host
  pure (decodeZigzag64 v)

end

/-! ### Strings with a length in front -/

/-- The ways to write the length. -/
inductive LengthKind where
  | f16 | f32 | f64 | vint
  deriving DecidableEq, Repr

namespace LengthKind

/-- The number of lengths that can be written. -/
def modulus : LengthKind → Nat
  | f16 => 2 ^ 16
  | f32 => 2 ^ 32
  | f64 => 2 ^ 64
  | vint => 2 ^ 64

/-- The bytes that the length 0 takes. -/
def zeroSize : LengthKind → Nat
  | f16 => 2
  | f32 => 4
  | f64 => 8
  | vint => 1

/-- The argument is a `size_t`, and is narrowed to the type of the parameter. -/
def writeLength (mem : Nat → Nat → UInt8) (host : Endian) (size : Nat) : LengthKind → Op Unit
  | f16 => writeFuint16 mem host (UInt16.ofNat size)
  | f32 => writeFuint32 mem host (UInt32.ofNat size)
  | f64 => writeFuint64 mem host (UInt64.ofNat size)
  | vint => writeUint64 mem (UInt64.ofNat size)

def readLength (host : Endian) : LengthKind → Op Nat
  | f16 => do
    let len ← readFuint16 host
    pure len.toNat
  | f32 => do
    let len ← readFuint32 host
    pure len.toNat
  | f64 => do
    let len ← readFuint64 host
    pure len.toNat
  | vint => do
    let len ← readUint64 host
    pure len.toNat

end LengthKind

section
variable (mem : Nat → Nat → UInt8) (host : Endian)

/-- The body shared by the writes of a string. -/
def writeString (k : LengthKind) (value : List UInt8) : Op Unit := do
  k.writeLength mem host value.length
  write mem value

def writeStringF16 (value : List UInt8) : Op Unit := writeString mem host .f16 value

def writeStringF32 (value : List UInt8) : Op Unit := writeString mem host .f32 value

def writeStringF64 (value : List UInt8) : Op Unit := writeString mem host .f64 value

def writeStringVint (value : List UInt8) : Op Unit := writeString mem host .vint value

/-- The body shared by the reads of a string. `buff.resize(len)` gets its memory. -/
def readString (k : LengthKind) : Op (List UInt8) := do
  let len ← k.readLength host
  read len

def readStringF16 : Op (List UInt8) := readString host .f16

def readStringF32 : Op (List UInt8) := readString host .f32

def readStringF64 : Op (List UInt8) := readString host .f64

def readStringVint : Op (List UInt8) := readString host .vint

/-- The string that `k` writes at the position comes back after a seek to the old position, and the
read ends where the write ended. -/
def RoundTrips (k : LengthKind) (ba : ByteArray) (value : List UInt8) : Prop :=
  ∃ ba₁ ba₂ ba₃, writeString mem host k value ba = .ok () ba₁ ∧
    setPosition ba.position ba₁ = .ok () ba₂ ∧ readString host k ba₂ = .ok value ba₃ ∧
    ba₃.position = ba₁.position

end

/-! ### Entries: an operation, its value and the byte order it runs under -/

/-- The typed operations. -/
inductive Kind where
  | fint8 | fuint8 | fint16 | fuint16 | fint32 | fuint32 | fint64 | fuint64
  | int32 | uint32 | int64 | uint64 | float | double
  deriving DecidableEq, Repr

namespace Kind

/-- The type of the values of an operation. -/
abbrev Value : Kind → Type
  | fint8 => Int8
  | fuint8 => UInt8
  | fint16 => Int16
  | fuint16 => UInt16
  | fint32 => Int32
  | fuint32 => UInt32
  | fint64 => Int64
  | fuint64 => UInt64
  | int32 => Int32
  | uint32 => UInt32
  | int64 => Int64
  | uint64 => UInt64
  | float => UInt32
  | double => UInt64

/-- The write of an operation. -/
def write (mem : Nat → Nat → UInt8) (host : Endian) : (k : Kind) → k.Value → Op Unit
  | fint8, v => writeFint8 mem host v
  | fuint8, v => writeFuint8 mem host v
  | fint16, v => writeFint16 mem host v
  | fuint16, v => writeFuint16 mem host v
  | fint32, v => writeFint32 mem host v
  | fuint32, v => writeFuint32 mem host v
  | fint64, v => writeFint64 mem host v
  | fuint64, v => writeFuint64 mem host v
  | int32, v => writeInt32 mem v
  | uint32, v => writeUint32 mem v
  | int64, v => writeInt64 mem v
  | uint64, v => writeUint64 mem v
  | float, v => writeFloat mem host v
  | double, v => writeDouble mem host v

/-- The matching read. -/
def read (host : Endian) : (k : Kind) → Op k.Value
  | fint8 => readFint8 host
  | fuint8 => readFuint8 host
  | fint16 => readFint16 host
  | fuint16 => readFuint16 host
  | fint32 => readFint32 host
  | fuint32 => readFuint32 host
  | fint64 => readFint64 host
  | fuint64 => readFuint64 host
  | int32 => readInt32 host
  | uint32 => readUint32 host
  | int64 => readInt64 host
  | uint64 => readUint64 host
  | float => readFloat host
  | double => readDouble host

/-- The width in bytes of a fixed-width operation, and the number that a value of it is. -/
def fixed : (k : Kind) → k.Value → Option (Nat × Int)
  | fint8, v => some (1, v.toInt)
  | fuint8, v => some (1, v.toNat)
  | fint16, v => some (2, v.toInt)
  | fuint16, v => some (2, v.toNat)
  | fint32, v => some (4, v.toInt)
  | fuint32, v => some (4, v.toNat)
  | fint64, v => some (8, v.toInt)
  | fuint64, v => some (8, v.toNat)
  | int32, _ => none
  | uint32, _ => none
  | int64, _ => none
  | uint64, _ => none
  | float, v => some (4, v.toNat)
  | double, v => some (8, v.toNat)

end Kind

/-- One item of a mixed sequence. -/
structure Entry where
  kind : Kind
  value : kind.Value
  little : Bool

/-- Write the items, each under its own byte order. -/
def writeEntries (mem : Nat → Nat → UInt8) (host : Endian) : List Entry → Op Unit
  | [] => pure ()
  | e :: es => do
    setIsLittleEndian e.little
    e.kind.write mem host e.value
    writeEntries mem host es

/-- Read items of the same operations under the same byte orders. The values in the list are not
looked at. -/
def readEntries (host : Endian) : List Entry → Op (List ((k : Kind) × k.Value))
  | [] => pure []
  | e :: es => do
    setIsLittleEndian e.little
    let v ← e.kind.read host
    let vs ← readEntries host es
    pure (⟨e.kind, v⟩ :: vs)

end Sylar.ByteArray
