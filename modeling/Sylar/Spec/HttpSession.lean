import Sylar.Spec.HttpRequestParser
import Sylar.Spec.Stream

/-!
# `Sylar.Spec.HttpSession`: `recvRequest`

`recvHead` is the loop that reads and parses the head of a request, and `recvRequest` goes on with
the body. The buffer belongs to one call: what it holds beyond the request when the call returns
is gone.
-/

set_option autoImplicit false

namespace Sylar.Http

open Lib

/-- How the loop over the head ends: the call returns `nullptr`, or the head is complete and the
buffer holds the bytes `rest` behind it. -/
inductive Head where
  | closed
  | parsed (p : HttpRequestParser) (rest : List UInt8)

/-- The loop of `recvRequest`, with `data` in the buffer. Each round reads at least one byte. -/
def recvHead (relaxed : Bool) (buffSize : Nat) :
    Nat → List UInt8 → HttpRequestParser → Stream → Except Abort (Head × Stream)
  | 0, _, _, s => .ok (.closed, s)
  | fuel + 1, data, p, s =>
    match s.read (buffSize - data.length) with
    | ([], s) => .ok (.closed, s)
    | (bs, s) => do
      let (rest, p) ← p.execute relaxed (data ++ bs)
      if p.hasError then .ok (.closed, s)
      else if rest.length = buffSize then .ok (.closed, s)
      else if p.isFinished relaxed then .ok (.parsed p rest, s)
      else recvHead relaxed buffSize fuel rest p s

/-- The number of rounds that `recvHead` can make on a stream. -/
def rounds (s : Stream) : Nat := s.flatten.length + 1

/-- A `uint64_t` as an `int64_t`. -/
def toInt64 (n : Nat) : Int := (n : Int).bmod (2 ^ 64)

/-- The part of `recvRequest` behind the loop, with `rest` in the buffer. -/
def recvBody (p : HttpRequestParser) (rest : List UInt8) (s : Stream) :
    Option HttpRequest × Stream :=
  let length := toInt64 p.getContentLenght
  if length ≤ 0 then (some p.data.init, s)
  else if length ≤ rest.length then
    (some { p.data with body := rest.take length.toNat }.init, s)
  else
    let (rt, bs, s) := s.readFixSize (length.toNat - rest.length)
    if rt ≤ 0 then (none, s) else (some { p.data with body := rest ++ bs }.init, s)

/-- `recvRequest`: the request or `nullptr`, and the stream behind it. -/
def recvRequest (junk : Junk) (buffSize : Nat) (s : Stream) :
    Except Abort (Option HttpRequest × Stream) := do
  let (head, s) ← recvHead junk.uriRelaxed buffSize (rounds s) [] (.new junk) s
  match head with
  | .closed => .ok (none, s)
  | .parsed p rest => .ok (recvBody p rest s)

end Sylar.Http
