import Sylar.Spec.HttpResponseParser
import Sylar.Spec.HttpSession
import Sylar.Spec.Stream

/-!
# `Sylar.Spec.HttpConnection`: `recvResponse`

`recvHead` is the loop that reads and parses the head of a response. When the head has
`Transfer-Encoding: chunked`, `recvChunks` reads the chunks: `recvSize` is the loop that looks for a
size line, and `readLeft` reads what the buffer lacks of the data. Otherwise the body is as long as
`Content-Length` says.

The buffer size is a value of the configuration and below 2^31, so that the casts of it to `int` keep
it. What the buffer still holds when the call returns is gone; `recvResponse` gives it beside the
response.
-/

set_option autoImplicit false

namespace Sylar.Http.HttpConnection

open Lib

/-- How the loop over the head ends: the call returns `nullptr`, or the head is complete and the
buffer holds the bytes `rest` behind it. -/
inductive Head where
  | closed
  | parsed (p : HttpResponseParser) (rest : List UInt8)

/-- The loop over the head, with `data` in the buffer. Each round reads at least one byte. -/
def recvHead (buffSize : Nat) :
    Nat → List UInt8 → HttpResponseParser → Stream → Except Abort (Head × Stream)
  | 0, _, _, s => .ok (.closed, s)
  | fuel + 1, data, p, s =>
    match s.read (buffSize - data.length) with
    | ([], s) => .ok (.closed, s)
    | (bs, s) => do
      let (rest, p) ← p.execute false (data ++ bs)
      if p.hasError then .ok (.closed, s)
      else if rest.length = buffSize then .ok (.closed, s)
      else if p.isFinished then .ok (.parsed p rest, s)
      else recvHead buffSize fuel rest p s

/-- The bytes in the buffer when a round of `recvSize` starts to parse. A read is made in the first
round when the buffer is empty, and in every later one. `none`: the peer has closed. -/
def fill (buffSize : Nat) (begin : Bool) (data : List UInt8) (s : Stream) :
    Option (List UInt8) × Stream :=
  bif !begin || data.isEmpty then
    match s.read (buffSize - data.length) with
    | ([], s) => (none, s)
    | (bs, s) => (some (data ++ bs), s)
  else (some data, s)

/-- The loop over a size line, with `data` in the buffer. The parser is initialised in each round,
and all rounds but the first read. -/
def recvSize (buffSize : Nat) : Nat → Bool → List UInt8 → HttpResponseParser → Stream →
    Except Abort (Head × Stream)
  | 0, _, _, _, s => .ok (.closed, s)
  | fuel + 1, begin, data, p, s =>
    match fill buffSize begin data s with
    | (none, s) => .ok (.closed, s)
    | (some data, s) => do
      let (rest, p) ← p.execute true data
      if p.hasError then .ok (.closed, s)
      else if rest.length = buffSize then .ok (.closed, s)
      else if p.isFinished then .ok (.parsed p rest, s)
      else recvSize buffSize fuel false rest p s

/-- The loop `while (left > 0)`, which appends to the body. Each read takes at least one byte, so
`left` rounds are enough. -/
def readLeft (buffSize : Nat) : Nat → Nat → List UInt8 → Stream → Option (List UInt8) × Stream
  | 0, _, body, s => (some body, s)
  | fuel + 1, left, body, s =>
    if left = 0 then (some body, s)
    else
      match s.read (min left buffSize) with
      | ([], s) => (none, s)
      | (bs, s) => readLeft buffSize fuel (left - bs.length) (body ++ bs) s

/-- What is done with a chunk of the size `contentLen` when its size line has been parsed: the body,
the buffer and the stream behind the chunk. `none`: the peer has closed. -/
def recvData (buffSize : Nat) (contentLen : Int) (body data : List UInt8) (s : Stream) :
    Except Abort (Option (List UInt8 × List UInt8) × Stream) :=
  if 2 ^ 31 ≤ contentLen + 2 then .error .overflow
  else if contentLen + 2 ≤ data.length then
    -- As the length of `append` a negative number is too large for a string.
    if contentLen < 0 then .error .outOfBounds
    else
      .ok (some (body ++ data.take contentLen.toNat, data.drop (contentLen.toNat + 2)), s)
  else
    let left := (contentLen - data.length + 2).toNat
    match readLeft buffSize left left (body ++ data) s with
    | (none, s) => .ok (none, s)
    | (some body, s) =>
      if body.length < 2 then .error .outOfBounds
      else .ok (some (body.take (body.length - 2), []), s)

/-- The loop over the chunks: the body, the parser and what the buffer still holds. Each round takes
at least one byte. -/
def recvChunks (buffSize : Nat) : Nat → List UInt8 → List UInt8 → HttpResponseParser → Stream →
    Except Abort (Option (List UInt8 × HttpResponseParser × List UInt8) × Stream)
  | 0, _, _, _, s => .ok (none, s)
  | fuel + 1, body, data, p, s => do
    match ← recvSize buffSize (rounds s) true data p s with
    | (.closed, s) => .ok (none, s)
    | (.parsed p data, s) =>
      match ← recvData buffSize p.parser.contentLen body data s with
      | (none, s) => .ok (none, s)
      | (some (body, data), s) =>
        bif p.parser.chunksDone then .ok (some (body, p, data), s)
        else recvChunks buffSize fuel body data p s

/-- A body of the length that `Content-Length` gives, with `rest` in the buffer. -/
def recvBody (p : HttpResponseParser) (rest : List UInt8) (s : Stream) :
    Option (HttpResponse × List UInt8) × Stream :=
  let length := toInt64 p.getContentLenght
  if length ≤ 0 then (some (p.data, rest), s)
  else if length ≤ rest.length then
    (some ({ p.data with body := rest.take length.toNat }, rest.drop length.toNat), s)
  else
    let (rt, bs, s) := s.readFixSize (length.toNat - rest.length)
    if rt ≤ 0 then (none, s) else (some ({ p.data with body := rest ++ bs }, []), s)

/-- `recvResponse`: the response or `nullptr`, with what the buffer still holds, and the stream. -/
def recvResponse (buffSize : Nat) (s : Stream) :
    Except Abort (Option (HttpResponse × List UInt8) × Stream) := do
  match ← recvHead buffSize (rounds s) [] .new s with
  | (.closed, s) => .ok (none, s)
  | (.parsed p rest, s) =>
    bif p.parser.chunked then do
      match ← recvChunks buffSize (rest.length + rounds s) [] rest p s with
      | (none, s) => .ok (none, s)
      | (some (body, p, data), s) => .ok (some ({ p.data with body := body }, data), s)
    else .ok (recvBody p rest s)

end Sylar.Http.HttpConnection
