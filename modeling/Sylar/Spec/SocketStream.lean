import Sylar.Spec.ByteArrayViews

/-!
# `Sylar.Spec.SocketStream`: transfers of a fixed size

The loops of `stream.cpp` call `read` or `write` until `length` bytes are through or a call returns
0 or less. The four functions have one loop. They differ in the type of `left`, a `size_t` in the
first and an `int64_t` in the others, and in what they hand to the call.

A transfer of a buffer is modelled by its calls: each has the offset in the buffer, the amount that
is asked for and the result. A transfer of a `ByteArray` changes the array, and goes over a
`SocketStream`. There the array hands out its memory as `iovec`s, and the socket reads or fills
them.
-/

set_option autoImplicit false

namespace Sylar

open Lib

/-! ### The loop of `stream.cpp` -/

/-- The loop of `readFixSize` and `writeFixSize`. `call offset left` is the call of `read` or
`write`. The loop ends with `none` when nothing is left, and with `some len` when a call returns
`len ≤ 0`. A result is at most `left`, so that `left` does not wrap and `left + 1` rounds are
enough. -/
def fixSizeLoop {σ : Type} (call : (offset left : Nat) → EStateM Err σ Int) :
    (fuel offset : Nat) → (left : Int) → EStateM Err σ (Option Int)
  | 0, _, _ => throw .diverges
  | fuel + 1, offset, left =>
    if 0 < left then do
      let len ← call offset left.toNat
      if len ≤ 0 then pure (some len)
      else fixSizeLoop call fuel (offset + len.toNat) (left - len)
    else pure none

/-- `return len` in the loop and `return length` behind it, as an `int`. -/
def fixSizeResult (length : Nat) : Option Int → Int
  | some len => toInt32 len
  | none => toInt32 length

/-- The results of the calls of `int read(..)` or `int write(..)`. The call with the number `i` that
asks for `n` bytes returns `result i n`. -/
structure Results where
  result : (i n : Nat) → Int
  isInt : ∀ i n, IsInt (result i n)
  le : ∀ i n, result i n ≤ n

/-! ### Transfers of a buffer -/

/-- One call of `read` or `write` on the buffer from `offset` on. -/
structure Transfer where
  offset : Nat
  amount : Nat
  result : Int
  deriving DecidableEq, Repr

namespace Transfer

/-- A call, recorded behind those before it. -/
def call (io : Results) (offset left : Nat) : EStateM Err (List Transfer) Int := fun calls =>
  let len := io.result calls.length left
  .ok len (calls ++ [⟨offset, left, len⟩])

/-- `readFixSize(buffer, length)`. -/
def readFixSize (io : Results) (length : Nat) : EStateM Err (List Transfer) Int := do
  let stop ← fixSizeLoop (call io) (length + 1) 0 length
  pure (fixSizeResult length stop)

/-- `writeFixSize(buffer, length)`. -/
def writeFixSize (io : Results) (length : Nat) : EStateM Err (List Transfer) Int := do
  let stop ← fixSizeLoop (call io) (length + 1) 0 (toInt64 length)
  pure (fixSizeResult length stop)

/-- From `offset` on, each call begins where the bytes of the one before end, and asks for all
that is left of `length`. -/
def Consecutive (length : Nat) : (offset : Nat) → List Transfer → Prop
  | _, [] => True
  | offset, c :: cs =>
    c.offset = offset ∧ c.amount = length - offset ∧
      Consecutive length (offset + c.result.toNat) cs

/-- The calls go through the buffer without gap or overlap. Either they move `length` bytes, which
is the returned value, or the last one has the first result that is not positive, and that is the
returned value. -/
def Exact (length : Nat) (value : Int) (calls : List Transfer) : Prop :=
  Consecutive length 0 calls ∧
    ((∀ c ∈ calls, 0 < c.result) ∧ (calls.map Transfer.result).sum = length ∧ value = length ∨
      ∃ before last, calls = before ++ [last] ∧ (∀ c ∈ before, 0 < c.result) ∧
        last.result ≤ 0 ∧ value = last.result)

end Transfer

/-! ### `socket_stream.cpp` -/

open Sylar.ByteArray (getWriteBuffers gather Covers)

/-- The bytes that a socket stores in `iovec`s, one after the other. -/
def scatter : (iovs : List Iovec) → (bs : List UInt8) → (chain : List Node) →
    Except Err (List Node)
  | [], bs, chain => if bs = [] then .ok chain else .error .overrun
  | v :: vs, bs, chain =>
    match chain[v.node]? with
    | none => .error .nullNode
    | some n => do
      let n' ← n.store v.off (bs.take v.len)
      scatter vs (bs.drop v.len) (chain.set v.node n')

namespace SocketStream

/-- `m_socket->recv(&iovs[0], iovs.size())`. The answer of `recvmsg` is a result of 0 or less, or
the bytes it received. -/
def recv (iovs : List Iovec) (answer : Except Int (List UInt8)) : Op Int := fun ba =>
  if iovs = [] then .error .overrun ba
  else
    match answer with
    | .error rt => .ok rt ba
    | .ok bs =>
      match scatter iovs bs ba.chain with
      | .error e => .error e ba
      | .ok chain => .ok (toInt32 bs.length) { ba with chain := chain }

/-- `m_socket->send(&iovs[0], iovs.size())` with the result `rt` of `sendmsg`. -/
def send (iovs : List Iovec) (rt : Int) : Op Int := fun ba =>
  if iovs = [] then .error .overrun ba else .ok rt ba

/-- `if(rt > 0) ba->setPosition(ba->getPosition() + rt)`. -/
def advance (rt : Int) : Op Unit := do
  let ba ← get
  if 0 < rt then ByteArray.setPosition (ba.position + rt.toNat) else pure ()

/-- `SocketStream::read(ba, length)`. -/
def read (mem : Nat → Nat → UInt8) (connected : Bool) (length : Nat)
    (answer : Except Int (List UInt8)) : Op Int :=
  if connected then do
    let r ← getWriteBuffers mem length
    let rt ← recv r.1 answer
    advance rt
    pure rt
  else pure (-1)

/-- `SocketStream::write(ba, length)`, with the `iovec`s that the socket is offered. It takes them
from `getWriteBuffers`, like `read`. -/
def write (mem : Nat → Nat → UInt8) (connected : Bool) (length : Nat) (rt : Int) :
    Op (List Iovec × Int) :=
  if connected then do
    let r ← getWriteBuffers mem length
    let rt ← send r.1 rt
    advance rt
    pure (r.1, rt)
  else pure ([], -1)

/-- `SocketStream::write` offers the readable bytes from the position on, at most `length` of
them. It moves the position over those that were sent and changes nothing else. -/
def SendsData (mem : Nat → Nat → UInt8) (ba : ByteArray) (length : Nat) (rt : Int) : Prop :=
  ∃ iovs ba', write mem true length rt ba = .ok (iovs, rt) ba' ∧
    Covers ba iovs ba.position (min length ba.getReadSize) ∧
    ba'.position = ba.position + rt.toNat ∧ ba'.size = ba.size ∧ ba'.capacity = ba.capacity ∧
    ba'.bytes = ba.bytes

/-- The calls of `write` on an array, with their number and what was sent so far. -/
structure Sending where
  ba : ByteArray
  calls : Nat
  sent : List UInt8

/-- The call of `write(ba, left)` in `writeFixSize`. The socket takes the first bytes of the
`iovec`s. -/
def sendCall (mem : Nat → Nat → UInt8) (io : Results) (_offset left : Nat) :
    EStateM Err Sending Int := fun s =>
  match write mem true left (io.result s.calls left) s.ba with
  | .error e ba => .error e { s with ba := ba }
  | .ok (iovs, len) ba =>
    .ok len ⟨ba, s.calls + 1, s.sent ++ (gather ba.chain iovs).take len.toNat⟩

/-- `writeFixSize(ba, length)` on a connected `SocketStream`. -/
def writeFixSize (mem : Nat → Nat → UInt8) (io : Results) (length : Nat) :
    EStateM Err Sending Int := do
  let stop ← fixSizeLoop (sendCall mem io) (length + 1) 0 (toInt64 length)
  pure (fixSizeResult length stop)

end SocketStream

end Sylar
