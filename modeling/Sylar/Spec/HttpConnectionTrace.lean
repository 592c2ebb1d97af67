import Sylar.Spec.HttpConnection

/-!
# `Sylar.Spec.HttpConnectionTrace`: what `recvResponse` does to memory

`Sylar.Spec.HttpConnection` says what `recvResponse` returns. Here the same function is a program
that writes down each operation on the buffer and on the body, with the offsets and the lengths that
the operation gets. Lengths are `Int`, since the source computes them as `int`, and they are written
down as they are computed, also when they are negative or too large. Sums of the type `int` wrap.

A call ends where an operation cannot be carried out: `append` throws for a negative length, and
nothing is said about a program that has read behind its buffer.

The callbacks of the parser take texts out of the buffer, and such a text may go beyond the bytes
that are there, when a position is older than the line it is used for. `beyond` gives the reason and
the headers that the response then has. Nothing is assumed about it.
-/

set_option autoImplicit false

namespace Sylar.Http.HttpConnection.Trace

open Lib Lib.Rx

/-! ### Operations -/

/-- An operation on the buffer `data` of `buff_size + 1` bytes or on the string `body`. -/
inductive Op where
  /-- A value of the counter of the bytes in the buffer. -/
  | count (len : Int)
  /-- `data[i] = '\0'`. -/
  | store (i : Int)
  /-- `read(data + off, n)`. -/
  | read (off n : Int)
  /-- `memmove(data, data + src, n)`, with `valid` bytes in the buffer. -/
  | move (src n valid : Int)
  /-- `body.append(data, n)`, with `valid` bytes in the buffer. -/
  | append (n valid : Int)
  /-- The size that `append` or `resize` gives the body. -/
  | body (size : Nat)
  /-- `memcpy(&body[0], data, n)`, with `valid` bytes in the buffer and `size` in the body. -/
  | copy (n valid size : Int)
  /-- `read(&body[off], n)`, with `size` bytes in the body. -/
  | readBody (off n size : Int)
  deriving DecidableEq, Repr

/-- The operation stays within what is allocated, and takes bytes only from those that are there. -/
def Op.Safe (buffSize : Nat) : Op → Prop
  | count len => 0 ≤ len ∧ len ≤ buffSize
  | store i => 0 ≤ i ∧ i < buffSize + 1
  | read off n => 0 ≤ off ∧ 0 ≤ n ∧ off + n ≤ buffSize
  | move src n valid => 0 ≤ src ∧ 0 ≤ n ∧ src + n ≤ valid
  | append n valid => 0 ≤ n ∧ n ≤ valid
  | body _ => True
  | copy n valid size => 0 ≤ n ∧ n ≤ valid ∧ n ≤ size
  | readBody off n size => 0 ≤ off ∧ 0 ≤ n ∧ off + n ≤ size

/-- The states in which the size of the body is known. -/
inductive Step where
  /-- The head is complete and gives the length of the body. -/
  | length (p : HttpResponseParser)
  /-- The size line of a chunk has been parsed, with the bytes `line` in the buffer before. There
  are `len` bytes behind it, and `body` bytes in the body. -/
  | chunk (line : List UInt8) (p : HttpResponseParser) (len body : Nat)

/-- The size of a chunk can be used as it is. An empty buffer behind a size line of -1 is passed over
by reading one byte. -/
def Step.Ok : Step → Prop
  | .length _ => True
  | .chunk _ p len _ =>
    0 ≤ p.parser.contentLen ∧ p.parser.contentLen + 2 < 2 ^ 31 ∨ p.parser.contentLen = -1 ∧ len = 0

instance : (k : Step) → Decidable k.Ok
  | .length _ => inferInstanceAs (Decidable True)
  | .chunk .. => inferInstanceAs (Decidable (_ ∧ _ ∨ _ ∧ _))

/-- What the body grows by when the data of a chunk is taken, with `len` bytes in the buffer. The line
end behind the data is appended too when it is not in the buffer yet. -/
def grown (contentLen : Int) (len : Nat) : Nat :=
  if toInt32 (contentLen + 2) ≤ len then contentLen.toNat else (contentLen + 2).toNat

/-- The largest body that a step leads to. -/
def Step.most : Step → Nat
  | .length p => (toInt64 p.getContentLenght).toNat
  | .chunk _ p len body => body + grown p.parser.contentLen len

structure State where
  stream : Stream
  ops : List Op
  steps : List Step

abbrev Recv := EStateM Abort State

def op (o : Op) : Recv Unit := modify fun st => { st with ops := st.ops ++ [o] }

def step (k : Step) : Recv Unit := modify fun st => { st with steps := st.steps ++ [k] }

/-- The bytes that a read of `n` bytes returns. -/
def deliver (n : Nat) : Recv (List UInt8) :=
  modifyGet fun st => ((st.stream.read n).1, { st with stream := (st.stream.read n).2 })

/-- A read into the buffer. -/
def read (off n : Int) : Recv (List UInt8) := do
  op (.read off n)
  deliver n.toNat

/-! ### The parser -/

/-- The reason and the headers of a response when a text is not in the buffer. -/
abbrev Beyond := List UInt8 → Nat → HttpResponseParser → List UInt8 × MapType

section
variable (beyond : Beyond)

/-- An action, which returns in any case. Only the two that store texts can leave the buffer. -/
def responseAct (buffer : List UInt8) (fpc : Nat) (a : ResponseAction) (p : HttpResponseParser) :
    HttpResponseParser :=
  match Http.responseAct buffer fpc a p with
  | .ok p => p
  | .error _ =>
    let (reason, headers) := beyond buffer fpc p
    { p with data := { p.data with reason := reason, headers := headers } }

def responseExec (buffer : List UInt8) (cs : Cs) (p : HttpResponseParser) :
    Nat × Cs × HttpResponseParser :=
  match cs with
  | .error => (0, .error, p)
  | .at m t => exec HttpClient.main (responseAct beyond buffer) ResponseAction.stops 0 m t buffer p

def httpclientParserExecute (buffer : List UInt8) (p : HttpResponseParser) :
    Except Abort (Nat × HttpResponseParser) :=
  if (buffer.length : Int) ≠ toInt32 buffer.length then .error .assertion
  else
    match responseExec beyond buffer p.parser.cs p.reset with
    | (fpc, cs, p) => p.leaveExecute buffer fpc cs

/-- What `execute` does with the result of `httpclient_parser_execute`. The result -1 moves bytes from
in front of the buffer. -/
def moveRest (buffer : List UInt8) :
    Except Abort (Nat × HttpResponseParser) → Recv (List UInt8 × HttpResponseParser)
  | .ok (offset, p) => do
    op (.move offset (buffer.length - offset) buffer.length)
    pure (buffer.drop offset, p)
  | .error .outOfBounds => do
    op (.move (-1) (buffer.length + 1) buffer.length)
    throw .outOfBounds
  | .error e => throw e

def execute (chunck : Bool) (buffer : List UInt8) (p : HttpResponseParser) :
    Recv (List UInt8 × HttpResponseParser) :=
  moveRest buffer (httpclientParserExecute beyond buffer
    (bif chunck then { p with parser := httpclientParserInit } else p))

/-! ### `recvResponse` -/

variable (buffSize : Nat)

/-- The loop over the head, with `data` in the buffer. -/
def recvHead : Nat → List UInt8 → HttpResponseParser →
    Recv (Option (HttpResponseParser × List UInt8))
  | 0, _, _ => pure none
  | fuel + 1, data, p => do
    let bs ← read data.length (buffSize - data.length)
    if bs = [] then pure none
    else
      op (.count (data ++ bs).length)
      op (.store (data ++ bs).length)
      let (rest, p) ← execute beyond false (data ++ bs) p
      if p.hasError then pure none
      else
        op (.count rest.length)
        if rest.length = buffSize then pure none
        else if p.isFinished then pure (some (p, rest))
        else recvHead fuel rest p

/-- The bytes in the buffer when a round of `recvSize` starts to parse. -/
def fill (begin : Bool) (data : List UInt8) : Recv (Option (List UInt8)) :=
  if begin = false ∨ data = [] then do
    let bs ← read data.length (buffSize - data.length)
    if bs = [] then pure none
    else
      op (.count (data ++ bs).length)
      pure (some (data ++ bs))
  else pure (some data)

/-- The loop over a size line. The result has the bytes of the last round in front. -/
def recvSize : Nat → Bool → List UInt8 → HttpResponseParser →
    Recv (Option (List UInt8 × HttpResponseParser × List UInt8))
  | 0, _, _, _ => pure none
  | fuel + 1, begin, data, p => do
    match ← fill buffSize begin data with
    | none => pure none
    | some data =>
      op (.store data.length)
      let (rest, p) ← execute beyond true data p
      if p.hasError then pure none
      else
        op (.count rest.length)
        if rest.length = buffSize then pure none
        else if p.isFinished then pure (some (data, p, rest))
        else recvSize fuel false rest p

/-- The loop `while (left > 0)`. -/
def readLeft : Nat → Int → List UInt8 → Recv (Option (List UInt8))
  | 0, _, _ => pure none
  | fuel + 1, left, body =>
    if left ≤ 0 then pure (some body)
    else do
      let bs ← read 0 (min left buffSize)
      if bs = [] then pure none
      else
        op (.append bs.length bs.length)
        op (.body (body ++ bs).length)
        readLeft fuel (left - bs.length) (body ++ bs)

/-- The data of a chunk of the size `contentLen`. -/
def recvData (fuel : Nat) (contentLen : Int) (body data : List UInt8) :
    Recv (Option (List UInt8 × List UInt8)) :=
  if toInt32 (contentLen + 2) ≤ data.length then do
    op (.append contentLen data.length)
    if contentLen < 0 ∨ data.length < contentLen then throw .outOfBounds
    else
      op (.body (body ++ data.take contentLen.toNat).length)
      op (.move (contentLen + 2) (toInt32 (data.length - contentLen - 2)) data.length)
      if data.length < contentLen + 2 then throw .outOfBounds
      else
        op (.count (data.length - (contentLen + 2)))
        pure (some (body ++ data.take contentLen.toNat, data.drop (contentLen.toNat + 2)))
  else do
    op (.append data.length data.length)
    op (.body (body ++ data).length)
    match ← readLeft buffSize fuel (toInt32 (contentLen - data.length + 2)) (body ++ data) with
    | none => pure none
    | some body =>
      -- The length that `resize` gets is a `size_t`.
      if body.length < 2 then throw .outOfBounds
      else
        op (.body (body.length - 2))
        op (.count 0)
        pure (some (body.take (body.length - 2), []))

/-- The loop over the chunks. -/
def recvChunks : Nat → List UInt8 → List UInt8 → HttpResponseParser →
    Recv (Option (HttpResponseParser × List UInt8))
  | 0, _, _, _ => pure none
  | fuel + 1, body, data, p => do
    match ← recvSize beyond buffSize fuel true data p with
    | none => pure none
    | some (line, p, data) =>
      step (.chunk line p data.length body.length)
      match ← recvData buffSize fuel p.parser.contentLen body data with
      | none => pure none
      | some (body, data) =>
        if p.parser.chunksDone then pure (some (p, body)) else recvChunks fuel body data p

/-- The loop of `readFixSize` into the body of `size` bytes, with `left` bytes to go from `off`. -/
def readFixSize (size : Int) : Nat → Int → Int → List UInt8 → Recv (Option (List UInt8))
  | 0, _, _, _ => pure none
  | fuel + 1, off, left, acc =>
    if left ≤ 0 then pure (some acc)
    else do
      op (.readBody off left size)
      let bs ← deliver left.toNat
      if bs = [] then pure none
      else readFixSize size fuel (off + bs.length) (left - bs.length) (acc ++ bs)

/-- A body of the length that `Content-Length` gives, with `rest` in the buffer. -/
def recvBody (fuel : Nat) (p : HttpResponseParser) (rest : List UInt8) :
    Recv (Option HttpResponse) := do
  step (.length p)
  let length := toInt64 p.getContentLenght
  if length ≤ 0 then pure (some p.data)
  else
    op (.body length.toNat)
    op (.copy (min rest.length length) rest.length length)
    if length ≤ rest.length then pure (some { p.data with body := rest.take length.toNat })
    else
      match ← readFixSize length fuel rest.length (length - rest.length) [] with
      | none => pure none
      | some bs =>
        -- `readFixSize` returns the length as an `int`.
        if toInt32 (length - rest.length) ≤ 0 then pure none
        else pure (some { p.data with body := rest ++ bs })

def recvResponse (fuel : Nat) : Recv (Option HttpResponse) := do
  op (.count 0)
  match ← recvHead beyond buffSize fuel [] .new with
  | none => pure none
  | some (p, rest) =>
    if p.parser.chunked then
      match ← recvChunks beyond buffSize fuel [] rest p with
      | none => pure none
      | some (p, body) => pure (some { p.data with body := body })
    else recvBody fuel p rest

/-- The call on a stream, with `fuel` rounds for each loop. -/
def run (fuel : Nat) (s : Stream) : EStateM.Result Abort State (Option HttpResponse) :=
  recvResponse beyond buffSize fuel ⟨s, [], []⟩

end

/-- What has been written down, however the call has ended. -/
def logged {α : Type} : EStateM.Result Abort State α → State
  | .ok _ st => st
  | .error _ st => st

/-- Every operation of the call is safe. -/
def Safe (beyond : Beyond) (buffSize fuel : Nat) (s : Stream) : Prop :=
  ∀ o ∈ (logged (run beyond buffSize fuel s)).ops, o.Safe buffSize

end Sylar.Http.HttpConnection.Trace
