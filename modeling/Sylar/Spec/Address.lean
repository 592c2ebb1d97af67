import Sylar.Lib.Netmask
import Sylar.Lib.Text
import Sylar.Spec.ByteArrayCodec

/-!
# `Sylar.Spec.Address`: the subnets and the text of `address.cpp`

A `sockaddr_in` keeps the port and the address as integers of the host whose bytes stand in network
order. A `sockaddr_in6` keeps its address as 16 bytes. Which byte of an integer comes first is a
parameter `host`, as in `ByteArrayCodec`.

`CreateMask` computes with an `int`. A shift by 32 or more is undefined, and so is the subtraction
after a shift by 31. They are a `Fault` here, and so is an index of 16 or more into the address of a
`sockaddr_in6`.

The number that an address is, `number`, has the byte at the lowest place of the memory on top. The
subnet functions are compared with `netmask`, `network` and `broadcast` of this number.
-/

set_option autoImplicit false

namespace Sylar

open Lib

/-- Undefined behaviour of the subnet functions. -/
inductive Fault where
  /-- A shift by the width of an `int` or more. -/
  | shift
  /-- A difference below the least `int`. -/
  | overflow
  /-- An index outside the 16 bytes. -/
  | index
  deriving DecidableEq, Repr

/-- `byteswapOnLittleEndian(t)` for a type of `n` bytes. -/
def byteswapOnLittleEndian (host : Endian) (n v : Nat) : Nat :=
  match host with
  | .little => ByteArray.byteswap n v
  | .big => v

/-- `CreateMask<T>(bits)` for a type of `n` bytes: `(1 << (sizeof(T) * 8 - bits)) - 1`. -/
def createMask (n bits : Nat) : Except Fault Nat :=
  let shift := subSize (n * 8) bits
  if 32 ≤ shift then .error .shift
  else if shift = 31 then .error .overflow
  else .ok ((2 ^ shift - 1) % 256 ^ n)

/-! ### `IPv4Address` -/

/-- `sockaddr_in`. -/
structure SockaddrIn where
  sinFamily : Nat
  sinPort : BitVec 16
  sAddr : BitVec 32
  deriving DecidableEq, Repr

namespace IPv4Address

/-- `AF_INET`. -/
def afInet : Nat := 2

/-- `broadcastAddress(prefix_len)`. `none` is `nullptr`. -/
def broadcastAddress (host : Endian) (prefixLen : Nat) (addr : SockaddrIn) :
    Except Fault (Option SockaddrIn) :=
  if 32 < prefixLen then .ok none
  else do
    let mask ← createMask 4 prefixLen
    .ok (some { addr with
      sAddr := addr.sAddr ||| BitVec.ofNat 32 (byteswapOnLittleEndian host 4 mask) })

/-- `networdAddress(prefix_len)`. It keeps the bits of the mask that `broadcastAddress` sets. -/
def networdAddress (host : Endian) (prefixLen : Nat) (addr : SockaddrIn) :
    Except Fault (Option SockaddrIn) :=
  if 32 < prefixLen then .ok none
  else do
    let mask ← createMask 4 prefixLen
    .ok (some { addr with
      sAddr := addr.sAddr &&& BitVec.ofNat 32 (byteswapOnLittleEndian host 4 mask) })

/-- `subnetMask(prefix_len)`. It has no bound on the length. -/
def subnetMask (host : Endian) (prefixLen : Nat) : Except Fault SockaddrIn := do
  let mask ← createMask 4 prefixLen
  .ok ⟨afInet, 0, ~~~BitVec.ofNat 32 (byteswapOnLittleEndian host 4 mask)⟩

/-- The address as a number. -/
def number (host : Endian) (addr : SockaddrIn) : BitVec 32 :=
  BitVec.ofNat 32 (byteswapOnLittleEndian host 4 addr.sAddr.toNat)

/-- `subnetMask` is the mask of the prefix. -/
def MaskExact (host : Endian) (p : Nat) : Prop :=
  ∃ s, subnetMask host p = .ok s ∧ number host s = netmask 32 p

/-- `networdAddress` is the network of the prefix, with the port and the family. -/
def NetworkExact (host : Endian) (p : Nat) (addr : SockaddrIn) : Prop :=
  ∃ s, networdAddress host p addr = .ok (some s) ∧ number host s = network (number host addr) p ∧
    s.sinPort = addr.sinPort ∧ s.sinFamily = addr.sinFamily

/-- `broadcastAddress` is the broadcast address of the prefix, with the port and the family. -/
def BroadcastExact (host : Endian) (p : Nat) (addr : SockaddrIn) : Prop :=
  ∃ s, broadcastAddress host p addr = .ok (some s) ∧
    number host s = broadcast (number host addr) p ∧
    s.sinPort = addr.sinPort ∧ s.sinFamily = addr.sinFamily

/-- The order of the addresses, and what the functions do with their own results and with addresses
of one subnet, where they are exact. -/
structure Ordered (host : Endian) (p : Nat) (addr : SockaddrIn) : Prop where
  broadcast (h : BroadcastExact host p addr) :
    Settles (number host) (broadcastAddress host p) (fun s => .ok (some s)) (BroadcastExact host p) p
      addr ∧
    ∀ s, broadcastAddress host p addr = .ok (some s) → number host addr ≤ number host s
  network (h : NetworkExact host p addr) :
    Settles (number host) (networdAddress host p) (fun s => .ok (some s)) (NetworkExact host p) p
      addr ∧
    ∀ s, networdAddress host p addr = .ok (some s) → number host s ≤ number host addr

end IPv4Address

/-! ### `IPv6Address` -/

/-- `sockaddr_in6`. -/
structure SockaddrIn6 where
  sin6Family : Nat
  sin6Port : BitVec 16
  s6Addr : Vector UInt8 16
  deriving DecidableEq

namespace IPv6Address

/-- `s6_addr[k]`. -/
def byteAt (bs : Vector UInt8 16) (k : Nat) : UInt8 := bs.toList.getD k 0

/-- `AF_INET6`. -/
def afInet6 : Nat := 10

/-- A loop that stores `v` in `count` bytes from the index `i` on. -/
def fill (v : UInt8) : (count i : Nat) → Vector UInt8 16 → Vector UInt8 16
  | 0, _, bs => bs
  | count + 1, i, bs => fill v count (i + 1) (bs.setIfInBounds i v)

/-- The byte `prefix_len / 8` changed by `f`. -/
def update (i : Nat) (f : UInt8 → UInt8) (bs : Vector UInt8 16) : Except Fault (Vector UInt8 16) :=
  match bs[i]? with
  | none => .error .index
  | some b => .ok (bs.setIfInBounds i (f b))

/-- `broadcastAddress(prefix_len)`. -/
def broadcastAddress (prefixLen : Nat) (addr : SockaddrIn6) : Except Fault SockaddrIn6 := do
  let mask ← createMask 1 (prefixLen % 8)
  let bs ← update (prefixLen / 8) (fun b => b ||| UInt8.ofNat mask) addr.s6Addr
  .ok { addr with s6Addr := fill 0xff (15 - prefixLen / 8) (prefixLen / 8 + 1) bs }

/-- `networdAddress(prefix_len)`. It keeps the bits of the mask that `broadcastAddress` sets. -/
def networdAddress (prefixLen : Nat) (addr : SockaddrIn6) : Except Fault SockaddrIn6 := do
  let mask ← createMask 1 (prefixLen % 8)
  let bs ← update (prefixLen / 8) (fun b => b &&& UInt8.ofNat mask) addr.s6Addr
  .ok { addr with s6Addr := fill 0x00 (15 - prefixLen / 8) (prefixLen / 8 + 1) bs }

/-- `subnetMask(prefix_len)`. -/
def subnetMask (prefixLen : Nat) : Except Fault SockaddrIn6 := do
  let mask ← createMask 1 (prefixLen % 8)
  let bs ← update (prefixLen / 8) (fun _ => ~~~UInt8.ofNat mask) (Vector.replicate 16 0)
  .ok ⟨afInet6, 0, fill 0xff (prefixLen / 8) 0 bs⟩

/-- The address as a number. -/
def number (addr : SockaddrIn6) : BitVec 128 := BitVec.ofNat 128 (ofLE addr.s6Addr.toList.reverse)

/-- `subnetMask` is the mask of the prefix. -/
def MaskExact (p : Nat) : Prop := ∃ s, subnetMask p = .ok s ∧ number s = netmask 128 p

/-- `networdAddress` is the network of the prefix, with the port and the family. -/
def NetworkExact (p : Nat) (addr : SockaddrIn6) : Prop :=
  ∃ s, networdAddress p addr = .ok s ∧ number s = network (number addr) p ∧
    s.sin6Port = addr.sin6Port ∧ s.sin6Family = addr.sin6Family

/-- `broadcastAddress` is the broadcast address of the prefix, with the port and the family. -/
def BroadcastExact (p : Nat) (addr : SockaddrIn6) : Prop :=
  ∃ s, broadcastAddress p addr = .ok s ∧ number s = broadcast (number addr) p ∧
    s.sin6Port = addr.sin6Port ∧ s.sin6Family = addr.sin6Family

/-- As for `IPv4Address`. -/
structure Ordered (p : Nat) (addr : SockaddrIn6) : Prop where
  broadcast (h : BroadcastExact p addr) :
    Settles number (broadcastAddress p) (fun s => .ok s) (BroadcastExact p) p addr ∧
    ∀ s, broadcastAddress p addr = .ok s → number addr ≤ number s
  network (h : NetworkExact p addr) :
    Settles number (networdAddress p) (fun s => .ok s) (NetworkExact p) p addr ∧
    ∀ s, networdAddress p addr = .ok s → number s ≤ number addr

/-! ### The text of an IPv6 address -/

/-- `addr[i]` for `uint16_t* addr = (uint16_t*)m_addr.sin6_addr.s6_addr`. -/
def word (host : Endian) (addr : SockaddrIn6) (i : Nat) : Nat :=
  ByteArray.ofObjectBytes host [byteAt addr.s6Addr (2 * i), byteAt addr.s6Addr (2 * i + 1)]

/-- The `for` loop of `insert` on the words from the index `i` on, which are `words`. The text it
prints, and `used_zero` behind it. `prev` is `addr[i - 1]`, and `none` for `i = 0`. -/
def insertLoop (host : Endian) : (words : List Nat) → (prev : Option Nat) → (usedZero : Bool) →
    List UInt8 × Bool
  | [], _, usedZero => ([], usedZero)
  | x :: rest, prev, usedZero =>
    if x = 0 ∧ usedZero = false then insertLoop host rest (some x) usedZero
    else
      let skipped := prev = some 0 ∧ usedZero = false
      let r := insertLoop host rest (some x) (usedZero || decide skipped)
      ((if skipped then text ":" else []) ++ (if prev.isSome then text ":" else []) ++
        numeral 16 (byteswapOnLittleEndian host 2 x) ++ r.1, r.2)

/-- What `insert` prints between the brackets. -/
def insertAddr (host : Endian) (addr : SockaddrIn6) : List UInt8 :=
  let r := insertLoop host ((List.range 8).map (word host addr)) none false
  r.1 ++ if r.2 = false ∧ word host addr 7 = 0 then text "::" else []

/-- `getPort()`. -/
def getPort (host : Endian) (addr : SockaddrIn6) : Nat :=
  byteswapOnLittleEndian host 2 addr.sin6Port.toNat

/-- `insert(os)`. -/
def insert (host : Endian) (addr : SockaddrIn6) : List UInt8 :=
  text "[" ++ insertAddr host addr ++ text "]:" ++ numeral 10 (getPort host addr)

/-- The eight groups of 16 bits. -/
def groups (addr : SockaddrIn6) : List Nat :=
  (List.range 8).map fun i => ofLE [byteAt addr.s6Addr (2 * i + 1), byteAt addr.s6Addr (2 * i)]

end IPv6Address

/-! ### The text forms of RFC 4291 -/

namespace Rfc4291

/-- A group: one to four hexadecimal digits, without a leading zero. -/
def parseGroup (s : List UInt8) : Option Nat :=
  if s ≠ [] ∧ s.length ≤ 4 ∧ s.all isXdigit ∧ (s.head? = some 48 → s.length = 1) then
    some (ofNumeral 16 s)
  else none

/-- Groups with colons between them. -/
def parseGroups (s : List UInt8) : Option (List Nat) :=
  if s = [] then some [] else (s.splitOn 58).mapM parseGroup

/-- The text before the first `::` and the text behind it, if there is one. -/
def cut : List UInt8 → List UInt8 × Option (List UInt8)
  | [] => ([], none)
  | c :: s =>
    if c = 58 ∧ s.head? = some 58 then ([], some s.tail)
    else
      let r := cut s
      (c :: r.1, r.2)

/-- The eight groups of a text. A `::` stands for one or more groups of zeros. There is no second
one, since a group is not empty. -/
def expand (s : List UInt8) : Option (List Nat) :=
  match cut s with
  | (left, none) => do
    let gs ← parseGroups left
    if gs.length = 8 then some gs else none
  | (left, some right) => do
    let gs ← parseGroups left
    let hs ← parseGroups right
    if gs.length + hs.length ≤ 7 then
      some (gs ++ List.replicate (8 - (gs.length + hs.length)) 0 ++ hs)
    else none

end Rfc4291

end Sylar
