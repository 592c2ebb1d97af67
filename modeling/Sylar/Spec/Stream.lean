import Sylar.Lib.Text

/-!
# `Sylar.Spec.Stream`: what a connection delivers

A stream is the list of pieces that the network still has for the reader. A read returns bytes of
the first piece only, as many as fit, so a list of pieces is a way of cutting the bytes into reads.
When nothing is left the peer has closed and a read returns 0 bytes.
-/

set_option autoImplicit false

namespace Sylar

open Lib

/-- The pieces to come. -/
abbrev Stream := List (List UInt8)

namespace Stream

/-- `read(buffer, n)`: the bytes it returns and the stream behind them. -/
def read (n : Nat) : Stream → List UInt8 × Stream
  | [] => ([], [])
  | p :: ps => if p.length ≤ n then (p, ps) else (p.take n, p.drop n :: ps)

/-- The loop of `readFixSize`: `none` when a read returned 0 bytes. Each read takes at least one
byte, so `left` rounds are enough. -/
def readLoop : Nat → Nat → List UInt8 → Stream → Option (List UInt8) × Stream
  | 0, _, acc, s => (some acc, s)
  | fuel + 1, left, acc, s =>
    if left = 0 then (some acc, s)
    else
      match read left s with
      | ([], s) => (none, s)
      | (bs, s) => readLoop fuel (left - bs.length) (acc ++ bs) s

/-- `readFixSize(buffer, length)`: the returned value, the bytes and the stream. The length is
returned as an `int`. -/
def readFixSize (length : Nat) (s : Stream) : Int × List UInt8 × Stream :=
  match readLoop length length [] s with
  | (none, s) => (0, [], s)
  | (some bs, s) => (toInt32 length, bs, s)

end Stream

end Sylar
