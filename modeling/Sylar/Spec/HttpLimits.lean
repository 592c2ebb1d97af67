import Sylar.Spec.HttpConnectionTrace

/-!
# `Sylar.Spec.HttpLimits`: limits on the size of a body

`http.request.max_body_size` and `http.response.max_body_size` are values of the configuration.
Here is what it is for `recvRequest` and `recvResponse` to keep such a limit: no body is made larger,
and a message that announces a larger one is refused. The call that returns `nullptr` has closed the
connection before. Neither function of the source reads its limit.
-/

set_option autoImplicit false

namespace Sylar.Http

open Lib

/-- The length that `Content-Length` announces, however large it is. A value that is no number
announces nothing. -/
def announcedLength (m : MapType) : Nat :=
  match m.find (text "content-length") with
  | none => 0
  | some v =>
    let ds := bif v.head? == some 43 then v.tail else v
    bif ds.all isDigit then ofNumeral 10 ds else 0

/-- `recvRequest` keeps the limit on a stream. -/
structure RequestKeepsLimit (limit : Nat) (junk : Junk) (buffSize : Nat) (s : Stream) : Prop where
  /-- The size that `resize` gives the body. -/
  allocated : ∀ p rest s',
    recvHead junk.uriRelaxed buffSize (rounds s) [] (.new junk) s = .ok (.parsed p rest, s') →
      toInt64 p.getContentLenght ≤ limit
  returned : ∀ r s', recvRequest junk buffSize s = .ok (some r, s') → r.body.length ≤ limit
  refused : ∀ p rest s',
    recvHead junk.uriRelaxed buffSize (rounds s) [] (.new junk) s = .ok (.parsed p rest, s') →
      limit < announcedLength p.data.headers → ∃ s'', recvRequest junk buffSize s = .ok (none, s'')

/-- A head that is complete announces a body within the limit, as a number and as the `int64_t` that
it is stored in. -/
def RequestWithin (limit : Nat) (junk : Junk) (buffSize : Nat) (s : Stream) : Prop :=
  ∀ p rest s',
    recvHead junk.uriRelaxed buffSize (rounds s) [] (.new junk) s = .ok (.parsed p rest, s') →
      announcedLength p.data.headers ≤ limit ∧ toInt64 p.getContentLenght ≤ limit

namespace HttpConnection.Trace

/-- The size of the body that a step announces, which for a chunk includes what has come before. -/
def Step.announced : Step → Nat
  | .length p => announcedLength p.data.headers
  | .chunk line _ _ body => body + ofNumeral 16 (line.takeWhile isXdigit)

/-- The step announces a body within the limit, and leads to one. -/
def Step.Within (limit : Nat) (k : Step) : Prop := k.announced ≤ limit ∧ k.most ≤ limit

instance (limit : Nat) (k : Step) : Decidable (k.Within limit) :=
  inferInstanceAs (Decidable (_ ∧ _))

def Step.isLength : Step → Bool
  | .length _ => true
  | .chunk .. => false

/-- The call returns a response. -/
def Returns (beyond : Beyond) (buffSize fuel : Nat) (s : Stream) : Prop :=
  ∃ r st, run beyond buffSize fuel s = .ok (some r) st

instance (beyond : Beyond) (buffSize fuel : Nat) (s : Stream) :
    Decidable (Returns beyond buffSize fuel s) :=
  match h : run beyond buffSize fuel s with
  | .ok (some r) st => .isTrue ⟨r, st, h⟩
  | .ok none _ => .isFalse fun ⟨_, _, hrun⟩ => nomatch h.symm.trans hrun
  | .error _ _ => .isFalse fun ⟨_, _, hrun⟩ => nomatch h.symm.trans hrun

/-- `recvResponse` keeps the limit on a stream. -/
structure ResponseKeepsLimit (limit : Nat) (beyond : Beyond) (buffSize fuel : Nat) (s : Stream) :
    Prop where
  accumulated : ∀ n, .body n ∈ (logged (run beyond buffSize fuel s)).ops → n ≤ limit
  returned : ∀ r st, run beyond buffSize fuel s = .ok (some r) st → r.body.length ≤ limit
  refused : ∀ k ∈ (logged (run beyond buffSize fuel s)).steps, limit < k.announced →
    ¬ Returns beyond buffSize fuel s

end HttpConnection.Trace

end Sylar.Http
