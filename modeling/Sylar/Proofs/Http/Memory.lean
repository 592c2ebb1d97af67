import Sylar.Lib.Drive
import Sylar.Lib.EState
import Sylar.Proofs.Http.Chunked
import Sylar.Proofs.Http.Slices
import Sylar.Spec.HttpConnectionTrace

/-!
# `Sylar.Proofs.Http.Memory`: what `recvResponse` does with the bytes of a peer

Each operation of `recvResponse` is safe on every stream, apart from those on the data of a chunk:
the size of a chunk is an `int` that the peer chooses, and it is used without a test. `Verdict` says
that the operations so far are safe if and only if the sizes so far are, and it is an invariant of
the whole call. The parser enters with two facts about `execute` (`keeps_execute`): it consumes
bytes of the buffer only, and it leaves a `content_len` of the type `int`.
-/

set_option autoImplicit false

namespace Sylar.Http.HttpConnection.Trace

open Lib Lib.Rx

/-! ### The parser -/

section
variable {beyond : Beyond} {buffer : List UInt8} {x y : HttpResponseParser}

/-- The positions in the parser at the position `q` of the buffer. -/
structure Placed (buffer : List UInt8) (q : Nat) (x : HttpResponseParser) : Prop where
  mark : x.parser.mark < buffer.length
  start : x.parser.fieldStart < buffer.length
  start_le : x.parser.fieldStart ≤ q
  len : x.parser.fieldLen ≤ buffer.length
  size : IsInt x.parser.contentLen
  body : x.data.body = []

-- Lemmas of their own, so that no proof looks into the numbers.
theorem Placed.setFieldLen {q n : Nat} (h : Placed buffer q x) (hn : n ≤ buffer.length) :
    Placed buffer q { x with parser := { x.parser with fieldLen := n } } :=
  ⟨h.mark, h.start, h.start_le, hn, h.size, h.body⟩

theorem Placed.setContentLen {q : Nat} {n : Int} {chunked done : Bool} (h : Placed buffer q x)
    (hn : IsInt n) : Placed buffer q { x with parser := { x.parser with
      chunked := chunked, contentLen := n, chunksDone := done } } :=
  ⟨h.mark, h.start, h.start_le, h.len, hn, h.body⟩

/-- The other parser has stored a text. -/
def SameBody (y x : HttpResponseParser) : Prop := y.parser = x.parser ∧ y.data.body = x.data.body

theorem Placed.setData {q : Nat} (h : Placed buffer q x) (hy : SameBody y x) :
    Placed buffer q y := by
  obtain ⟨hmark, hstart, hle, hlen, hsize, hbody⟩ := h
  rw [← hy.1] at hmark hstart hle hlen hsize
  exact ⟨hmark, hstart, hle, hlen, hsize, hy.2.trans hbody⟩

theorem placed_of_ok {q : Nat} {a : ResponseAction} (hact : Http.responseAct buffer q a x = .ok y)
    (h : Placed buffer q y) : Placed buffer q (responseAct beyond buffer q a x) := by
  rw [responseAct, hact]
  exact h

/-- A text that is stored, from the buffer or from beyond it, leaves the positions as they are. -/
theorem placed_of_data {q : Nat} {a : ResponseAction} (h : Placed buffer q x)
    (hact : ∀ y, Http.responseAct buffer q a x = .ok y → SameBody y x) :
    Placed buffer q (responseAct beyond buffer q a x) := by
  rw [responseAct]
  cases hrun : Http.responseAct buffer q a x with
  | error e => exact h.setData ⟨rfl, rfl⟩
  | ok y => exact h.setData (hact y hrun)

theorem sameBody_onResponseVersion (at_ : List UInt8) (n : Nat) (x : HttpResponseParser) :
    SameBody (onResponseVersion at_ n x) x := by
  rw [onResponseVersion]
  cases strncmpEq at_ (text "HTTP/1.1") n <;> cases strncmpEq at_ (text "HTTP/1.0") n <;>
    exact ⟨rfl, rfl⟩

theorem sameBody_writeValue {q : Nat} (h : Http.responseAct buffer q .writeValue x = .ok y) :
    SameBody y x := by
  rw [Http.responseAct] at h
  split at h
  · rw [← Except.ok.inj h]
    exact ⟨rfl, rfl⟩
  · cases hfield : slice buffer x.parser.fieldStart x.parser.fieldLen with
    | error e =>
        rw [hfield] at h
        cases h
    | ok field =>
        rw [hfield] at h
        cases hvalue : slice buffer x.parser.mark (lenTo x.parser.mark q) with
        | error e =>
            rw [except_ok_bind, hvalue] at h
            cases h
        | ok value =>
            rw [except_ok_bind, hvalue] at h
            rw [← Except.ok.inj h]
            exact ⟨rfl, rfl⟩

theorem sameBody_reasonPhrase {q : Nat} (h : Http.responseAct buffer q .reasonPhrase x = .ok y) :
    SameBody y x := by
  rw [Http.responseAct] at h
  cases hvalue : slice buffer x.parser.mark (lenTo x.parser.mark q) with
  | error e =>
      rw [hvalue] at h
      cases h
  | ok value =>
      rw [hvalue] at h
      rw [← Except.ok.inj h]
      exact ⟨rfl, rfl⟩

theorem placed_responseAct {q : Nat} (a : ResponseAction) (hq : q < buffer.length)
    (hsize : buffer.length < 2 ^ 31) (h : Placed buffer q x) :
    Placed buffer q (responseAct beyond buffer q a x) := by
  cases a with
  | mark | startValue => exact placed_of_ok rfl ⟨hq, h.start, h.start_le, h.len, h.size, h.body⟩
  | startField => exact placed_of_ok rfl ⟨h.mark, hq, Nat.le_refl q, h.len, h.size, h.body⟩
  | writeConnectionClose | statusCode | transChunked | done =>
      exact placed_of_ok rfl ⟨h.mark, h.start, h.start_le, h.len, h.size, h.body⟩
  | writeField =>
      have hlen : lenTo x.parser.fieldStart q ≤ buffer.length := by
        rw [lenTo_eq h.start_le (by omega)]
        omega
      exact placed_of_ok rfl (h.setFieldLen hlen)
  | writeContentLen | chunkSize => exact placed_of_ok rfl (h.setContentLen (isInt_toInt32 _))
  | httpVersion => exact placed_of_ok rfl (h.setData (sameBody_onResponseVersion ..))
  | writeValue => exact placed_of_data h fun y hy => sameBody_writeValue hy
  | reasonPhrase => exact placed_of_data h fun y hy => sameBody_reasonPhrase hy

variable (beyond) in
/-- Of a non-empty buffer `httpclient_parser_execute` consumes a part, unless an assertion fails. -/
theorem httpclientParserExecute_cases (hne : buffer ≠ []) (hsize : buffer.length < 2 ^ 31)
    (hx : IsInt x.parser.contentLen) (hbody : x.data.body = []) :
    httpclientParserExecute beyond buffer x = .error .assertion ∨
      ∃ n y, httpclientParserExecute beyond buffer x = .ok (n, y) ∧ n ≤ buffer.length ∧
        IsInt y.parser.contentLen ∧ y.data.body = [] := by
  have hpos : 0 < buffer.length := List.length_pos_iff.mpr hne
  have hstart : Placed buffer 0 x.reset :=
    ⟨hpos, hpos, Nat.le_refl 0, Nat.zero_le _, hx, hbody⟩
  -- where the scan ends and what it leaves
  have hexec : (responseExec beyond buffer x.parser.cs x.reset).1 ≤ buffer.length ∧
      Placed buffer (responseExec beyond buffer x.parser.cs x.reset).1
        (responseExec beyond buffer x.parser.cs x.reset).2.2 := by
    cases hcs : x.parser.cs with
    | error => exact ⟨Nat.zero_le _, hstart⟩
    | «at» m t =>
        have h : (responseExec beyond buffer (.at m t) x.reset).1 ≤ 0 + buffer.length ∧
            Placed buffer (responseExec beyond buffer (.at m t) x.reset).1
              (responseExec beyond buffer (.at m t) x.reset).2.2 :=
          exec_keeps (P := Placed buffer)
            (fun q a y hq hy => placed_responseAct a (by omega) hsize hy)
            (fun q y hy => { hy with start_le := Nat.le_succ_of_le hy.start_le }) hstart
        rwa [Nat.zero_add] at h
  have heq : httpclientParserExecute beyond buffer x =
      if (buffer.length : Int) ≠ toInt32 buffer.length then .error .assertion
      else HttpResponseParser.leaveExecute buffer (responseExec beyond buffer x.parser.cs x.reset).1
        (responseExec beyond buffer x.parser.cs x.reset).2.1
        (responseExec beyond buffer x.parser.cs x.reset).2.2 := rfl
  rw [heq]
  split
  · exact .inl rfl
  · obtain ⟨hle, hplaced⟩ := hexec
    generalize responseExec beyond buffer x.parser.cs x.reset = r at hle hplaced
    obtain ⟨fpc, cs, y⟩ := r
    rw [HttpResponseParser.leaveExecute]
    by_cases hassert : fpc ≤ buffer.length ∧ y.parser.bodyStart ≤ buffer.length
    · rw [if_pos hassert, if_pos ⟨hplaced.mark, hplaced.len, hplaced.start⟩]
      exact .inr ⟨_, _, rfl, hle, hplaced.size, hplaced.body⟩
    · rw [if_neg hassert]
      exact .inl rfl

end

/-! ### The operations and the steps -/

/-- Some step accounts for a body of the size `n`. -/
def Reached (st : State) (n : Nat) : Prop := n = 0 ∨ ∃ k ∈ st.steps, n ≤ k.most

/-- The operations so far are safe if and only if the sizes of chunks so far can be used, and no body
was larger than the steps say, a body of the size `n` included. -/
structure Verdict (buffSize n : Nat) (st : State) : Prop where
  safe_iff : (∀ o ∈ st.ops, o.Safe buffSize) ↔ ∀ k ∈ st.steps, k.Ok
  bodies : ∀ m, .body m ∈ st.ops → Reached st m
  reached : Reached st n

section
variable {beyond : Beyond} {buffSize n : Nat} {st : State} {o : Op}

theorem Verdict.log (h : Verdict buffSize n st) (ho : o.Safe buffSize)
    (hbody : ∀ m, o = .body m → Reached st m) :
    Verdict buffSize n { st with ops := st.ops ++ [o] } := by
  refine ⟨?_, ?_, h.reached⟩
  · rw [← h.safe_iff]
    simp only [List.mem_append, List.mem_singleton, or_imp, forall_and, forall_eq]
    exact and_iff_left ho
  · intro m hm
    rcases List.mem_append.mp hm with hm | hm
    · exact h.bodies m hm
    · exact hbody m (List.mem_singleton.mp hm).symm

/-- A fact about what has been written down that the operations on the buffer keep. -/
structure Frame (buffSize : Nat) (I : State → Prop) : Prop where
  log {st : State} {o : Op} (h : I st) (ho : o.Safe buffSize) (hbody : ∀ m, o ≠ .body m) :
    I { st with ops := st.ops ++ [o] }
  deliver {st : State} (h : I st) (s : Stream) : I { st with stream := s }

theorem frame_verdict : Frame buffSize (Verdict buffSize n) where
  log h ho hbody := h.log ho fun m hm => absurd hm (hbody m)
  deliver h _ := ⟨h.safe_iff, h.bodies, h.reached⟩

/-- The parser has the values that `execute` leaves. -/
def ParserOk (p : HttpResponseParser) : Prop := IsInt p.parser.contentLen ∧ p.data.body = []

theorem parserOk_new : ParserOk .new := ⟨⟨by decide, by decide⟩, rfl⟩

section
variable {I : State → Prop} (hI : Frame buffSize I)
include hI

theorem keeps_op (ho : o.Safe buffSize) (hbody : ∀ m, o ≠ .body m) :
    Preserves I (op o) fun _ => True :=
  Meets.modify fun _ h => ⟨hI.log h ho hbody, trivial⟩

theorem keeps_op_bind {α : Type} {f : Unit → Recv α} {R : α → Prop} (ho : o.Safe buffSize)
    (hbody : ∀ m, o ≠ .body m) (hf : Preserves I (f ()) R) : Preserves I (op o >>= f) R :=
  (keeps_op hI ho hbody).bind fun _ _ => hf

theorem keeps_deliver (k : Nat) :
    Preserves I (deliver k) fun bs => bs.length ≤ k where
  ok {st st' bs} h hrun := by
    cases hrun
    exact ⟨hI.deliver h _, Stream.length_read_le k st.stream⟩
  error _ hrun := nomatch hrun

theorem keeps_read {off k : Int} (hoff : 0 ≤ off) (hk : 0 ≤ k) (hle : off + k ≤ buffSize) :
    Preserves I (read off k) fun bs => (bs.length : Int) ≤ k :=
  (keeps_op hI (o := .read off k) ⟨hoff, hk, hle⟩ (by simp)).bind fun _ _ =>
    (keeps_deliver hI k.toNat).mono fun bs hbs => by omega

theorem keeps_execute {buffer : List UInt8} {p : HttpResponseParser} (chunck : Bool)
    (hne : buffer ≠ []) (hsize : buffer.length < 2 ^ 31) (hp : ParserOk p) :
    Preserves I (execute beyond chunck buffer p) fun r =>
      r.1.length ≤ buffer.length ∧ ParserOk r.2 := by
  have hstart : ParserOk (bif chunck then { p with parser := httpclientParserInit } else p) := by
    cases chunck with
    | true =>
        have hinit : IsInt (-1) := ⟨by decide, by decide⟩
        exact ⟨hinit, hp.2⟩
    | false => exact hp
  rw [execute]
  rcases httpclientParserExecute_cases beyond hne hsize hstart.1 hstart.2 with
    hrun | ⟨offset, y, hrun, hle, hsize', hbody⟩
  · rw [hrun]
    exact Preserves.throw _
  · rw [hrun]
    refine keeps_op_bind hI ⟨by omega, by omega, by omega⟩ (by simp)
      (Preserves.pure ⟨?_, hsize', hbody⟩)
    rw [List.length_drop]
    exact Nat.sub_le ..

variable (beyond) in
theorem keeps_recvHead (hbuff : buffSize < 2 ^ 31) (fuel : Nat) :
    ∀ (data : List UInt8) (p : HttpResponseParser), data.length ≤ buffSize → ParserOk p →
      Preserves I (recvHead beyond buffSize fuel data p) fun r =>
        ∀ x ∈ r, x.2.length ≤ buffSize ∧ ParserOk x.1 := by
  induction fuel with
  | zero => exact fun data p _ _ => Preserves.pure (by simp)
  | succ fuel ih =>
      intro data p hdata hp
      rw [recvHead]
      refine (keeps_read hI (by omega) (by omega) (by omega)).bind fun bs hbs => ?_
      split
      · exact Preserves.pure (by simp)
      · next hne =>
        have hlen : (data ++ bs).length ≤ buffSize := by
          rw [List.length_append]
          omega
        refine keeps_op_bind hI ⟨by omega, by omega⟩ (by simp) ?_
        refine keeps_op_bind hI ⟨by omega, by omega⟩ (by simp) ?_
        have hne : data ++ bs ≠ [] := List.append_ne_nil_of_right_ne_nil _ hne
        refine (keeps_execute hI false hne (by omega) hp).bind ?_
        rintro ⟨rest, p⟩ ⟨hrest, hp⟩
        have hrest : rest.length ≤ buffSize := Nat.le_trans hrest hlen
        dsimp only
        split
        · exact Preserves.pure (by simp)
        · refine keeps_op_bind hI ⟨by omega, by omega⟩ (by simp) ?_
          split
          · exact Preserves.pure (by simp)
          · split
            · exact Preserves.pure (by simpa using ⟨hrest, hp⟩)
            · exact ih rest p hrest hp

theorem keeps_fill (begin : Bool) {data : List UInt8} (hdata : data.length ≤ buffSize) :
    Preserves I (fill buffSize begin data) fun r =>
      ∀ x ∈ r, x ≠ [] ∧ x.length ≤ buffSize := by
  unfold fill
  split
  · refine (keeps_read hI (by omega) (by omega) (by omega)).bind fun bs hbs => ?_
    split
    · exact Preserves.pure (by simp)
    · next hne =>
      have hlen : (data ++ bs).length ≤ buffSize := by
        rw [List.length_append]
        omega
      refine keeps_op_bind hI ⟨by omega, by omega⟩ (by simp) (Preserves.pure ?_)
      rintro x ⟨⟩
      exact ⟨List.append_ne_nil_of_right_ne_nil _ hne, hlen⟩
  · next hne =>
    refine Preserves.pure ?_
    rintro x ⟨⟩
    exact ⟨fun h => hne (.inr h), hdata⟩

variable (beyond) in
theorem keeps_recvSize (hbuff : buffSize < 2 ^ 31) (fuel : Nat) :
    ∀ (begin : Bool) (data : List UInt8) (p : HttpResponseParser), data.length ≤ buffSize →
      ParserOk p →
      Preserves I (recvSize beyond buffSize fuel begin data p) fun r =>
        ∀ x ∈ r, x.2.2.length ≤ buffSize ∧ ParserOk x.2.1 := by
  induction fuel with
  | zero => exact fun begin data p _ _ => Preserves.pure (by simp)
  | succ fuel ih =>
      intro begin data p hdata hp
      rw [recvSize]
      refine (keeps_fill hI begin hdata).bind fun r hr => ?_
      cases r with
      | none => exact Preserves.pure (by simp)
      | some data =>
          obtain ⟨hne, hlen⟩ := hr data rfl
          refine keeps_op_bind hI ⟨by omega, by omega⟩ (by simp) ?_
          refine (keeps_execute hI true hne (by omega) hp).bind ?_
          rintro ⟨rest, p⟩ ⟨hrest, hp⟩
          have hrest : rest.length ≤ buffSize := Nat.le_trans hrest hlen
          dsimp only
          split
          · exact Preserves.pure (by simp)
          · refine keeps_op_bind hI ⟨by omega, by omega⟩ (by simp) ?_
            split
            · exact Preserves.pure (by simp)
            · split
              · exact Preserves.pure (by simpa using ⟨hrest, hp⟩)
              · exact ih false rest p hrest hp

theorem keeps_readFixSize (fuel : Nat) {size : Int} : ∀ (off left : Int) (acc : List UInt8),
    0 ≤ off → off + left = size →
    Preserves I (readFixSize size fuel off left acc) fun r =>
      ∀ x ∈ r, (x.length : Int) ≤ acc.length + max left 0 := by
  induction fuel with
  | zero => exact fun off left acc _ _ => Preserves.pure (by simp)
  | succ fuel ih =>
      intro off left acc hoff hsize
      rw [readFixSize]
      split
      · refine Preserves.pure ?_
        rintro x ⟨⟩
        omega
      · refine keeps_op_bind hI ⟨by omega, by omega, by omega⟩ (by simp) ?_
        refine (keeps_deliver hI left.toNat).bind fun bs hbs => ?_
        split
        · exact Preserves.pure (by simp)
        · refine (ih (off + bs.length) (left - bs.length) (acc ++ bs) (by omega) (by omega)).mono
            fun r hr x hx => ?_
          have hlen : (acc ++ bs).length = acc.length + bs.length := List.length_append
          have := hr x hx
          omega

end

/-! ### The data of a chunk -/

theorem Reached.mono {m : Nat} (h : Reached st n) (hm : m ≤ n) : Reached st m := by
  rcases h with rfl | ⟨k, hk, hn⟩
  · exact .inl (Nat.le_zero.mp hm)
  · exact .inr ⟨k, hk, Nat.le_trans hm hn⟩

theorem Verdict.mono {m : Nat} (h : Verdict buffSize n st) (hm : m ≤ n) : Verdict buffSize m st :=
  ⟨h.safe_iff, h.bodies, h.reached.mono hm⟩

/-- A body that is not larger than the steps say is written down. -/
theorem keeps_body {m : Nat} (hm : m ≤ n) :
    Preserves (Verdict buffSize n) (op (.body m)) fun _ => True := by
  refine Meets.modify fun st h => ⟨h.log trivial ?_, trivial⟩
  rintro m' ⟨⟩
  exact h.reached.mono hm

theorem keeps_body_bind {α : Type} {f : Unit → Recv α} {R : α → Prop} {m : Nat} (hm : m ≤ n)
    (hf : Preserves (Verdict buffSize n) (f ()) R) :
    Preserves (Verdict buffSize n) (op (.body m) >>= f) R :=
  (keeps_body hm).bind fun _ _ => hf

theorem keeps_readLeft (fuel : Nat) : ∀ (left : Int) (body : List UInt8), body.length ≤ n →
    (body.length : Int) + left ≤ n →
    Preserves (Verdict buffSize n) (readLeft buffSize fuel left body) fun r =>
      ∀ x ∈ r, x.length ≤ n := by
  induction fuel with
  | zero => exact fun left body _ _ => Preserves.pure (by simp)
  | succ fuel ih =>
      intro left body hbody hle
      rw [readLeft]
      split
      · exact Preserves.pure (by simpa using hbody)
      · refine (keeps_read frame_verdict (by omega) (by omega) (by omega)).bind fun bs hbs => ?_
        have hbs : (bs.length : Int) ≤ left := le_trans hbs (min_le_left ..)
        split
        · exact Preserves.pure (by simp)
        · have hlen : (body ++ bs).length = body.length + bs.length := List.length_append
          refine keeps_op_bind frame_verdict ⟨by omega, by omega⟩ (by simp) ?_
          refine keeps_body_bind (by omega) ?_
          exact ih (left - bs.length) (body ++ bs) (by omega) (by omega)

/-- A size that wraps when 2 is added. -/
theorem toInt32_add_two {c : Int} (h : IsInt c) (hc : 2147483646 ≤ c) : toInt32 (c + 2) < 0 := by
  have hhigh := h.high
  unfold toInt32 Int.bmod
  dsimp only
  split <;> omega

variable (fuel : Nat) {body data : List UInt8} {c : Int}

/-- The data of a chunk of a size that can be used. -/
theorem keeps_recvData (hdata : data.length ≤ buffSize) (hbuff : buffSize < 2 ^ 31)
    (hok : 0 ≤ c ∧ c + 2 < 2147483648 ∨ c = -1 ∧ data.length = 0)
    (hmost : body.length + grown c data.length ≤ n) :
    Preserves (Verdict buffSize n) (recvData buffSize fuel c body data) fun r =>
      ∀ x ∈ r, x.1.length ≤ n ∧ x.2.length ≤ buffSize := by
  have hsum : toInt32 (c + 2) = c + 2 := toInt32_of_isInt ⟨by omega, by omega⟩
  have hdiff : toInt32 (data.length - c - 2) = data.length - c - 2 :=
    toInt32_of_isInt ⟨by omega, by omega⟩
  have hleft : toInt32 (c - data.length + 2) = c - data.length + 2 :=
    toInt32_of_isInt ⟨by omega, by omega⟩
  rw [grown, hsum] at hmost
  rw [recvData, hsum, hdiff, hleft]
  split
  · next hfit =>
    rw [if_pos hfit] at hmost
    -- the chunk and its line end are in the buffer
    have hlen : (body ++ data.take c.toNat).length = body.length + c.toNat := by
      rw [List.length_append, List.length_take]
      omega
    refine keeps_op_bind frame_verdict ⟨by omega, by omega⟩ (by simp) ?_
    rw [if_neg (by omega)]
    refine keeps_body_bind (by omega) ?_
    refine keeps_op_bind frame_verdict ⟨by omega, by omega, by omega⟩ (by simp) ?_
    rw [if_neg (by omega)]
    refine keeps_op_bind frame_verdict ⟨by omega, by omega⟩ (by simp) (Preserves.pure ?_)
    rintro x ⟨⟩
    refine ⟨?_, ?_⟩
    · show (body ++ data.take c.toNat).length ≤ n
      omega
    · show (data.drop (c.toNat + 2)).length ≤ buffSize
      rw [List.length_drop]
      omega
  · next hfit =>
    rw [if_neg hfit] at hmost
    have hlen : (body ++ data).length = body.length + data.length := List.length_append
    refine keeps_op_bind frame_verdict ⟨by omega, by omega⟩ (by simp) (keeps_body_bind (by omega) ?_)
    refine (keeps_readLeft fuel _ _ (by omega) (by omega)).bind fun r hr => ?_
    cases r with
    | none => exact Preserves.pure (by simp)
    | some body =>
        have hbody := hr body rfl
        dsimp only
        split
        · exact Preserves.throw _
        · refine keeps_body_bind (by omega) ?_
          refine keeps_op_bind frame_verdict ⟨by omega, by omega⟩ (by simp) ?_
          refine Preserves.pure ?_
          rintro x ⟨⟩
          refine ⟨?_, Nat.zero_le _⟩
          show (body.take (body.length - 2)).length ≤ n
          rw [List.length_take]
          omega

/-- A size that cannot be used has been met, and no operation shows it yet. -/
structure Doomed (n : Nat) (st : State) : Prop where
  bad : ∃ k ∈ st.steps, ¬ k.Ok
  bodies : ∀ m, .body m ∈ st.ops → Reached st m
  reached : Reached st n

theorem Doomed.log (h : Doomed n st) (hbody : ∀ m, o = .body m → m ≤ n) :
    Doomed n { st with ops := st.ops ++ [o] } := by
  refine ⟨h.bad, fun m hm => ?_, h.reached⟩
  rcases List.mem_append.mp hm with hm | hm
  · exact h.bodies m hm
  · exact h.reached.mono (hbody m (List.mem_singleton.mp hm).symm)

/-- An operation that is not safe settles the matter. -/
theorem Doomed.settle (h : Doomed n st) (ho : ¬ o.Safe buffSize) (hbody : ∀ m, o ≠ .body m) :
    Verdict buffSize 0 { st with ops := st.ops ++ [o] } := by
  have hlog := h.log (o := o) fun m hm => absurd hm (hbody m)
  refine ⟨iff_of_false ?_ ?_, hlog.bodies, .inl rfl⟩
  · exact fun hall => ho (hall o (List.mem_append_right _ (List.mem_singleton_self o)))
  · obtain ⟨k, hk, hbad⟩ := h.bad
    exact fun hall => hbad (hall k hk)

/-- A size that cannot be used leads to an operation that is not safe. -/
theorem doomed_recvData (hc : IsInt c) (hdata : data.length ≤ buffSize) (hbuff : buffSize < 2 ^ 31)
    (hbad : ¬ (0 ≤ c ∧ c + 2 < 2147483648 ∨ c = -1 ∧ data.length = 0))
    (hmost : body.length + grown c data.length ≤ n)
    {Q : Option (List UInt8 × List UInt8) → State → Prop} :
    Meets (Doomed n) (recvData buffSize fuel c body data) Q (Verdict buffSize 0) := by
  have hfit : toInt32 (c + 2) ≤ data.length := by
    by_cases hbig : 2147483646 ≤ c
    · have := toInt32_add_two hc hbig
      omega
    · have hlow := hc.low
      rw [toInt32_of_isInt ⟨by omega, by omega⟩]
      omega
  rw [grown, if_pos hfit] at hmost
  rw [recvData, if_pos hfit]
  by_cases hrange : c < 0 ∨ (data.length : Int) < c
  · have hunsafe : ¬ Op.Safe buffSize (.append c data.length) := by
      rintro ⟨hpos, hle⟩
      omega
    refine Meets.bind (Q := fun _ => Verdict buffSize 0)
      (Meets.modify fun st h => h.settle hunsafe (by simp)) fun _ => ?_
    rw [if_pos hrange]
    exact Meets.throw _ fun _ h => h
  · -- the sum of the size and 2 has wrapped, and the buffer is as long as the size
    have hlen : (body ++ data.take c.toNat).length = body.length + c.toNat := by
      rw [List.length_append, List.length_take]
      omega
    have hneg : toInt32 (data.length - c - 2) = data.length - c - 2 :=
      toInt32_of_isInt ⟨by omega, by omega⟩
    have hunsafe : ¬ Op.Safe buffSize
        (.move (c + 2) (toInt32 (data.length - c - 2)) data.length) := by
      rw [hneg]
      rintro ⟨-, hpos, -⟩
      omega
    refine Meets.bind (Q := fun _ => Doomed n) (Meets.modify fun st h => h.log (by simp)) fun _ => ?_
    rw [if_neg hrange]
    refine Meets.bind (Q := fun _ => Doomed n) (Meets.modify fun st h => h.log ?_) fun _ => ?_
    · rintro m ⟨⟩
      omega
    · refine Meets.bind (Q := fun _ => Verdict buffSize 0)
        (Meets.modify fun st h => h.settle hunsafe (by simp)) fun _ => ?_
      rw [if_pos (by omega)]
      exact Meets.throw _ fun _ h => h

/-! ### The whole call -/

theorem Reached.step {k : Step} (h : Reached st n) :
    Reached { st with steps := st.steps ++ [k] } n :=
  h.imp_right fun ⟨k', hk', hn⟩ => ⟨k', List.mem_append_left _ hk', hn⟩

theorem reached_most (st : State) (k : Step) :
    Reached { st with steps := st.steps ++ [k] } k.most :=
  .inr ⟨k, List.mem_append_right _ (List.mem_singleton_self k), Nat.le_refl _⟩

theorem Verdict.step {k : Step} (h : Verdict buffSize n st) (hk : k.Ok) :
    Verdict buffSize k.most { st with steps := st.steps ++ [k] } := by
  refine ⟨?_, fun m hm => (h.bodies m hm).step, reached_most st k⟩
  rw [h.safe_iff]
  simp only [List.mem_append, List.mem_singleton, or_imp, forall_and, forall_eq]
  exact (and_iff_left hk).symm

theorem Verdict.doomed {k : Step} (h : Verdict buffSize n st) (hk : ¬ k.Ok) :
    Doomed k.most { st with steps := st.steps ++ [k] } :=
  ⟨⟨k, List.mem_append_right _ (List.mem_singleton_self k), hk⟩, fun m hm => (h.bodies m hm).step,
    reached_most st k⟩

/-- What the end of the call keeps: the verdict, and a body that a step has asked for. -/
abbrev Ends {α : Type} (buffSize n : Nat) (x : Recv (Option α)) (size : α → Nat) : Prop :=
  Meets (Verdict buffSize n) x (fun r st => Verdict buffSize 0 st ∧ ∀ a ∈ r, Reached st (size a))
    (Verdict buffSize 0)

variable {α β : Type} {size : β → Nat}

theorem ends_none : Ends buffSize n (pure none) size :=
  Meets.pure fun st h => ⟨h.mono (Nat.zero_le _), by simp⟩

theorem ends_some {b : β} (hb : size b ≤ n) : Ends buffSize n (pure (some b)) size := by
  refine Meets.pure fun st h => ⟨h.mono (Nat.zero_le _), ?_⟩
  rintro a ⟨⟩
  exact h.reached.mono hb

theorem ends_bind {x : Recv α} {f : α → Recv (Option β)} {R : α → Prop}
    (hx : Preserves (Verdict buffSize n) x R) (hf : ∀ a, R a → Ends buffSize n (f a) size) :
    Ends buffSize n (x >>= f) size :=
  Meets.bind (Meets.mono hx (fun _ h => h) (fun _ _ h => h) fun _ h => h.mono (Nat.zero_le _))
    fun a => Meets.assume (hf a)

/-- A step either goes well or leads to an operation that is not safe. -/
theorem ends_step_bind {k : Step} {f : Unit → Recv (Option β)}
    (hok : k.Ok → Ends buffSize k.most (f ()) size)
    (hbad : ¬ k.Ok → Meets (Doomed k.most) (f ())
      (fun r st => Verdict buffSize 0 st ∧ ∀ a ∈ r, Reached st (size a)) (Verdict buffSize 0)) :
    Ends buffSize n (step k >>= f) size := by
  by_cases hk : k.Ok
  · exact Meets.bind (Q := fun _ => Verdict buffSize k.most)
      (Meets.modify fun st h => h.step hk) fun _ => hok hk
  · exact Meets.bind (Q := fun _ => Doomed k.most)
      (Meets.modify fun st h => h.doomed hk) fun _ => hbad hk

variable (beyond) in
theorem ends_recvChunks (hbuff : buffSize < 2 ^ 31) (fuel : Nat) :
    ∀ (body data : List UInt8) (p : HttpResponseParser), data.length ≤ buffSize → ParserOk p →
      Ends buffSize body.length (recvChunks beyond buffSize fuel body data p) fun x =>
        x.2.length := by
  induction fuel with
  | zero => exact fun body data p _ _ => ends_none
  | succ fuel ih =>
      intro body data p hdata hp
      rw [recvChunks]
      refine ends_bind (keeps_recvSize beyond frame_verdict hbuff fuel true data p hdata hp)
        fun r hr => ?_
      cases r with
      | none => exact ends_none
      | some x =>
          obtain ⟨line, p, data⟩ := x
          obtain ⟨hdata, hp⟩ := hr _ rfl
          refine ends_step_bind (fun hok => ?_) fun hbad => ?_
          · refine ends_bind (keeps_recvData fuel hdata hbuff hok (Nat.le_refl _)) fun r hr => ?_
            cases r with
            | none => exact ends_none
            | some x =>
                obtain ⟨hbody, hrest⟩ := hr x rfl
                dsimp only
                split
                · exact ends_some hbody
                · exact Meets.mono (ih x.1 x.2 p hrest hp) (fun _ h => h.mono hbody)
                    (fun _ _ h => h) fun _ h => h
          · exact Meets.bind (Q := fun _ _ => False)
              (doomed_recvData fuel hp.1 hdata hbuff hbad (Nat.le_refl _)) fun _ =>
                { ok := fun h => h.elim, error := fun h => h.elim }

theorem ends_recvBody {p : HttpResponseParser} {rest : List UInt8} (hp : ParserOk p) :
    Ends buffSize n (recvBody fuel p rest) fun r => r.body.length := by
  rw [recvBody]
  refine ends_step_bind (fun _ => ?_) fun hbad => absurd trivial hbad
  dsimp only
  split
  · refine ends_some ?_
    rw [hp.2]
    exact Nat.zero_le _
  · next hpos =>
    have hmost : ((Step.length p).most : Int) = toInt64 p.getContentLenght := by
      rw [Step.most]
      omega
    refine ends_bind (keeps_body (Nat.le_refl _)) fun _ _ => ?_
    refine ends_bind (keeps_op frame_verdict ⟨by omega, by omega, by omega⟩ (by simp)) fun _ _ => ?_
    split
    · have hbody : (rest.take (toInt64 p.getContentLenght).toNat).length ≤
          (Step.length p).most := by
        rw [List.length_take]
        exact Nat.min_le_left ..
      exact ends_some (by simpa only using hbody)
    · refine ends_bind (keeps_readFixSize frame_verdict fuel _ _ _ (by omega) (by omega))
        fun r hr => ?_
      cases r with
      | none => exact ends_none
      | some bs =>
          have hbs := hr bs rfl
          dsimp only
          split
          · exact ends_none
          · have hbody : (rest ++ bs).length ≤ (Step.length p).most := by
              rw [List.length_append]
              rw [List.length_nil] at hbs
              omega
            exact ends_some hbody

variable (beyond) in
theorem ends_recvResponse (hbuff : buffSize < 2 ^ 31) :
    Ends buffSize 0 (recvResponse beyond buffSize fuel) fun r => r.body.length := by
  rw [recvResponse]
  refine ends_bind (keeps_op frame_verdict ⟨by omega, by omega⟩ (by simp)) fun _ _ => ?_
  refine ends_bind
    (keeps_recvHead beyond frame_verdict hbuff fuel [] .new (Nat.zero_le _) parserOk_new)
    fun r hr => ?_
  cases r with
  | none => exact ends_none
  | some x =>
      obtain ⟨hrest, hp⟩ := hr x rfl
      dsimp only
      split
      · refine Meets.bind (ends_recvChunks beyond hbuff fuel [] x.2 x.1 hrest hp) fun r => ?_
        cases r with
        | none => exact Meets.pure fun st h => ⟨h.1, by simp⟩
        | some x =>
            refine Meets.pure fun st h => ⟨h.1, ?_⟩
            rintro r ⟨⟩
            exact h.2 x rfl
      · exact ends_recvBody fuel hp

theorem Verdict.start (s : Stream) : Verdict buffSize 0 ⟨s, [], []⟩ :=
  ⟨by simp, by simp, .inl rfl⟩

variable (beyond) in
/-- What a call has written down, however it ends. -/
theorem verdict_run (hbuff : buffSize < 2 ^ 31) (s : Stream) :
    Verdict buffSize 0 (logged (run beyond buffSize fuel s)) := by
  have hends := ends_recvResponse beyond fuel hbuff
  cases hrun : run beyond buffSize fuel s with
  | ok r st => exact (hends.ok (Verdict.start s) hrun).1
  | error e st => exact hends.error (Verdict.start s) hrun

end

/-- Every operation of a call is safe exactly when the size of each chunk whose data it takes can be
used as it is. -/
theorem safe_iff (beyond : Beyond) (buffSize fuel : Nat) (s : Stream) (hbuff : buffSize < 2 ^ 31) :
    Safe beyond buffSize fuel s ↔ ∀ k ∈ (logged (run beyond buffSize fuel s)).steps, k.Ok :=
  (verdict_run beyond fuel hbuff s).safe_iff

theorem safe_hello :
    Safe (fun _ _ p => (p.data.reason, p.data.headers)) 4096 8
      [plainHead, text "5\r\nhel", text "lo\r\n0\r\n", text "\r\n"] :=
  (safe_iff _ 4096 8 _ (by decide)).mpr (by decide +kernel)

/-- A size of 2147483647 passes for one that the buffer has, since the sum with 2 is negative. The
body then takes as many bytes from a buffer in which there is none. -/
theorem append_behind_buffer :
    ¬ Safe (fun _ _ p => (p.data.reason, p.data.headers)) 4096 8
      [plainHead, text "7FFFFFFF\r\n"] := by
  intro h
  have happend := h (.append 2147483647 0) (by decide +kernel)
  exact absurd happend.2 (by decide)

end Sylar.Http.HttpConnection.Trace
