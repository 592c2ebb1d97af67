import Sylar.Proofs.Http.Memory
import Sylar.Proofs.Http.RequestPrint
import Sylar.Spec.HttpLimits

/-!
# `Sylar.Proofs.Http.Limits`: which messages stay within a limit

`recvRequest` and `recvResponse` never look at their limits, so a limit is kept exactly by the
messages that ask for no more. For `recvRequest` and for a response with `Content-Length` this is an
equivalence. For chunks it is one when the call returns a response: a peer that announces a large
chunk and breaks off is refused for another reason.

`Due` goes along with `Verdict`: each step has led to a body of the size it leads to, but for the
chunk whose data is being taken.
-/

set_option autoImplicit false

namespace Sylar.Http

open Lib Lib.Rx

/-! ### The announced length -/

theorem toInt64_cases {n : Nat} (h : n < 2 ^ 64) : toInt64 n = n ∨ toInt64 n < 0 := by
  unfold toInt64 Int.bmod
  dsimp only
  split <;> omega

/-- What `lexical_cast` makes of digits with or without a plus sign. -/
theorem lexicalCast_of_digits {v ds : List UInt8}
    (hds : ds = bif v.head? == some 43 then v.tail else v) (hall : ds.all isDigit = true)
    (hpos : 0 < ofNumeral 10 ds) :
    lexicalCast v = if 2 ^ 64 ≤ ofNumeral 10 ds then none else some (ofNumeral 10 ds) := by
  have hne : ds ≠ [] := by
    rintro rfl
    exact absurd hpos (by decide)
  have hminus : v.head? ≠ some 45 := by
    intro hhead
    rw [hhead] at hds
    have hsame : ds = v := hds
    obtain ⟨c, w, rfl⟩ := List.exists_cons_of_ne_nil hne
    rw [← hsame, List.head?_cons] at hhead
    rw [Option.some.inj hhead, List.all_cons] at hall
    exact absurd hall (by simp [isDigit, between])
  have hbeq : (v.head? == some 45) = false := beq_eq_false_iff_ne.mpr hminus
  rw [lexicalCast, hbeq, Bool.or_false, ← hds, if_neg hminus]
  refine if_congr ?_ rfl rfl
  rw [hall]
  simp [hne]

/-- A length that is announced and stored as a positive number is stored as it is. -/
theorem toInt64_getAs {m : MapType} (hpos : 0 < announcedLength m)
    (hstored : 0 < toInt64 (getAs m (text "content-length") 0)) :
    toInt64 (getAs m (text "content-length") 0) = announcedLength m := by
  unfold getAs announcedLength at *
  cases hfind : m.find (text "content-length") with
  | none =>
      rw [hfind] at hpos
      exact absurd hpos (Nat.lt_irrefl 0)
  | some v =>
      rw [hfind] at hpos hstored
      dsimp only at hpos hstored ⊢
      generalize hds : (bif v.head? == some 43 then v.tail else v) = ds at hpos ⊢
      cases hall : ds.all isDigit with
      | false =>
          rw [hall] at hpos
          exact absurd hpos (Nat.lt_irrefl 0)
      | true =>
          rw [hall, cond_true] at hpos
          rw [lexicalCast_of_digits hds.symm hall hpos] at hstored ⊢
          rw [cond_true]
          split at hstored
          · exact absurd hstored (by decide)
          · next hlt =>
            rw [if_neg hlt, Option.getD_some]
            rw [Option.getD_some] at hstored
            exact (toInt64_cases (Nat.lt_of_not_le hlt)).resolve_right (by omega)

/-! ### Requests -/

section
variable {relaxed : Bool} {buffer rest : List UInt8} {x y : HttpRequestParser}

theorem body_of_requestExec {cs : Cs} (h : (requestExec relaxed buffer cs x).2.2 = .ok y) :
    y.data.body = x.data.body := by
  cases cs with
  | error => rw [← Except.ok.inj h]
  | «at» m t =>
      refine (exec_keeps (P := fun _ (st : Except Abort HttpRequestParser) => ∀ z, st = .ok z →
        z.data.body = x.data.body) ?_ (fun _ _ => id) ?_).2 y h
      · rintro q a (e | z) - hst w hw
        · cases hw
        · exact (requestAct_keeps hw).body.trans (hst z rfl)
      · rintro z hz
        rw [← Except.ok.inj hz]

theorem body_of_leaveExecute {n fpc : Nat} {cs : Cs} (h : leaveExecute buffer fpc cs x = .ok (n, y)) :
    y.data.body = x.data.body := by
  rw [leaveExecute] at h
  dsimp only at h
  split at h
  all_goals
    split at h
    · rw [← (Prod.mk.inj (Except.ok.inj h)).2]
    · cases h

/-- The parser never touches the body. -/
theorem body_of_execute (h : x.execute relaxed buffer = .ok (rest, y)) :
    y.data.body = x.data.body := by
  rw [HttpRequestParser.execute, httpParserExecute] at h
  split at h
  · rw [← (Prod.mk.inj (Except.ok.inj h)).2]
  · split at h
    · cases h
    · have hexec : ∀ z, (requestExec relaxed buffer x.parser.cs x.reset).2.2 = .ok z →
          z.data.body = x.data.body := fun z hz => body_of_requestExec (x := x.reset) hz
      generalize requestExec relaxed buffer x.parser.cs x.reset = res at h hexec
      obtain ⟨fpc, cs, e | z⟩ := res
      · cases h
      · change (leaveExecute buffer fpc cs z).map _ = _ at h
        cases hleave : leaveExecute buffer fpc cs z with
        | error e =>
            rw [hleave] at h
            cases h
        | ok r =>
            rw [hleave] at h
            rw [← (Prod.mk.inj (Except.ok.inj h)).2]
            exact (body_of_leaveExecute hleave).trans (hexec z rfl)

theorem body_of_recvHead {buffSize fuel : Nat} {data : List UInt8} {s s' : Stream}
    (h : recvHead relaxed buffSize fuel data x s = .ok (.parsed y rest, s')) :
    y.data.body = x.data.body := by
  induction fuel generalizing data x s with
  | zero => cases h
  | succ fuel ih =>
      rw [recvHead] at h
      split at h
      · cases h
      · obtain ⟨⟨left, z⟩, hexec, h⟩ := ok_of_bind_ok h
        have hz := body_of_execute hexec
        dsimp only at h
        split at h
        · cases h
        · split at h
          · cases h
          · split at h
            · cases h
              exact hz
            · exact (ih h).trans hz

end

theorem body_init (q : HttpRequest) : q.init.body = q.body := by
  rw [HttpRequest.init]
  cases (q.getHeader (text "connection")).isEmpty <;> rfl

theorem recvRequest_of_parsed {junk : Junk} {buffSize : Nat} {s s' : Stream} {p : HttpRequestParser}
    {rest : List UInt8}
    (h : recvHead junk.uriRelaxed buffSize (rounds s) [] (.new junk) s = .ok (.parsed p rest, s')) :
    recvRequest junk buffSize s = .ok (recvBody p rest s') := by
  rw [recvRequest, h]
  rfl

theorem length_readLoop_le {fuel left : Nat} {acc bs : List UInt8} {s s' : Stream}
    (h : s.readLoop fuel left acc = (some bs, s')) : bs.length ≤ acc.length + left := by
  induction fuel generalizing left acc s with
  | zero =>
      cases h
      exact Nat.le_add_right ..
  | succ fuel ih =>
      rw [Stream.readLoop] at h
      split at h
      · cases h
        exact Nat.le_add_right ..
      · have hread := Stream.length_read_le left s
        split at h
        · cases h
        · next bs' s₁ _ hres =>
          rw [hres] at hread
          have hread : bs'.length ≤ left := hread
          have hlen := ih h
          rw [List.length_append] at hlen
          omega

theorem length_readFixSize_le (n : Nat) (s : Stream) : (s.readFixSize n).2.1.length ≤ n := by
  rw [Stream.readFixSize]
  split
  · exact Nat.zero_le n
  · next hloop =>
    have hlen := length_readLoop_le hloop
    rwa [List.length_nil, Nat.zero_add] at hlen

/-- The body that is returned is not longer than the head says. -/
theorem length_recvBody_le {p : HttpRequestParser} {rest : List UInt8} {s s' : Stream}
    {r : HttpRequest} (hbody : p.data.body = []) (h : recvBody p rest s = (some r, s')) :
    r.body.length ≤ (toInt64 p.getContentLenght).toNat := by
  by_cases hpos : toInt64 p.getContentLenght ≤ 0
  · rw [recvBody, if_pos hpos] at h
    rw [← Option.some.inj (Prod.mk.inj h).1, body_init, hbody]
    exact Nat.zero_le _
  · by_cases hfits : toInt64 p.getContentLenght ≤ rest.length
    · rw [recvBody, if_neg hpos, if_pos hfits] at h
      rw [← Option.some.inj (Prod.mk.inj h).1, body_init, List.length_take]
      exact Nat.min_le_left ..
    · rw [recvBody, if_neg hpos, if_neg hfits] at h
      have hlen := length_readFixSize_le ((toInt64 p.getContentLenght).toNat - rest.length) s
      generalize s.readFixSize ((toInt64 p.getContentLenght).toNat - rest.length) = res at h hlen
      obtain ⟨rt, bs, s₁⟩ := res
      have hlen : bs.length ≤ (toInt64 p.getContentLenght).toNat - rest.length := hlen
      change (if rt ≤ 0 then _ else _) = _ at h
      by_cases hrt : rt ≤ 0
      · rw [if_pos hrt] at h
        cases h
      · rw [if_neg hrt] at h
        rw [← Option.some.inj (Prod.mk.inj h).1, body_init, List.length_append]
        omega

theorem requestKeepsLimit_iff {limit : Nat} {junk : Junk} {buffSize : Nat} {s : Stream} :
    RequestKeepsLimit limit junk buffSize s ↔ RequestWithin limit junk buffSize s := by
  refine ⟨fun h p rest s' hhead => ⟨?_, h.allocated p rest s' hhead⟩, fun h => ⟨?_, ?_, ?_⟩⟩
  · by_contra hlt
    obtain ⟨s'', hnone⟩ := h.refused p rest s' hhead (Nat.lt_of_not_le hlt)
    have halloc := h.allocated p rest s' hhead
    -- a length that is stored as a positive number would be over the limit
    have hstored : toInt64 p.getContentLenght ≤ 0 := by
      by_contra hpos
      have hsame : toInt64 p.getContentLenght = announcedLength p.data.headers :=
        toInt64_getAs (by omega) (by rw [HttpRequestParser.getContentLenght] at hpos; omega)
      omega
    rw [recvRequest_of_parsed hhead, recvBody, if_pos hstored] at hnone
    exact absurd (Prod.mk.inj (Except.ok.inj hnone)).1 (Option.some_ne_none _)
  · exact fun p rest s' hhead => (h p rest s' hhead).2
  · intro r s' hrun
    cases hhead : recvHead junk.uriRelaxed buffSize (rounds s) [] (.new junk) s with
    | error e =>
        rw [recvRequest, hhead] at hrun
        cases hrun
    | ok res =>
        obtain ⟨hd, s₁⟩ := res
        cases hd with
        | closed =>
            rw [recvRequest, hhead] at hrun
            cases hrun
        | parsed p rest =>
            rw [recvRequest_of_parsed hhead] at hrun
            have hlen := length_recvBody_le (body_of_recvHead hhead) (Except.ok.inj hrun)
            have hle := (h p rest s₁ hhead).2
            omega
  · intro p rest s' hhead hlt
    exact absurd (h p rest s' hhead).1 (Nat.not_le_of_lt hlt)

/-! ### Responses -/

namespace HttpConnection.Trace

/-- A body has been made that is as large as the step leads to. -/
def Covered (st : State) (k : Step) : Prop := k.most = 0 ∨ ∃ m, .body m ∈ st.ops ∧ k.most ≤ m

/-- There have been chunks only, and each has been taken, but for one that leads to a body of the
size `n`. -/
structure Due (n : Nat) (st : State) : Prop where
  chunks : ∀ k ∈ st.steps, k.isLength = false
  covered : ∀ k ∈ st.steps, Covered st k ∨ k.most ≤ n

/-- How a call ends that returns no response: a length has been used for the body. -/
def Behind (st : State) : Prop :=
  ∀ p, .length p ∈ st.steps → 0 < toInt64 p.getContentLenght ∧ Covered st (.length p)

/-- How a call ends that returns a response. -/
def Filled (st : State) : Prop := ∀ k ∈ st.steps, Covered st k

section
variable {beyond : Beyond} {buffSize n m : Nat} {st : State} {o : Op} {k : Step}

theorem Covered.log (h : Covered st k) : Covered { st with ops := st.ops ++ [o] } k :=
  h.imp_right fun ⟨m, hm, hle⟩ => ⟨m, List.mem_append_left _ hm, hle⟩

theorem Due.log (h : Due n st) : Due n { st with ops := st.ops ++ [o] } :=
  ⟨h.chunks, fun k hk => (h.covered k hk).imp_left Covered.log⟩

theorem Due.behind (h : Due n st) : Behind st :=
  fun p hp => absurd (h.chunks _ hp) (by simp [Step.isLength])

theorem Due.filled (h : Due 0 st) : Filled st :=
  fun k hk => (h.covered k hk).elim id fun hle => .inl (Nat.le_zero.mp hle)

/-- A body that is large enough has been made. -/
theorem Due.settle (h : Due n st) (hm : .body m ∈ st.ops) (hle : n ≤ m) : Due 0 st :=
  ⟨h.chunks, fun k hk => .inl ((h.covered k hk).elim id fun hk => .inr ⟨m, hm, hk.trans hle⟩)⟩

theorem Due.step (h : Due 0 st) (hk : k.isLength = false) :
    Due k.most { st with steps := st.steps ++ [k] } := by
  refine ⟨fun k' hk' => ?_, fun k' hk' => ?_⟩ <;> rcases List.mem_append.mp hk' with hk' | hk'
  · exact h.chunks k' hk'
  · rwa [List.mem_singleton.mp hk']
  · exact .inl (h.filled k' hk')
  · exact .inr (Nat.le_of_eq (congrArg Step.most (List.mem_singleton.mp hk')))

variable (buffSize) in
theorem frame_due : Frame buffSize (Due n) where
  log h _ _ := h.log
  deliver h _ := ⟨h.chunks, h.covered⟩

/-- The program leads from `P` to a value with `R`, unless the call ends without a response. -/
abbrev Leads {α : Type} (P : State → Prop) (x : Recv (Option α)) (R : α → State → Prop) : Prop :=
  Meets P x (fun r st => (r = none → Behind st) ∧ ∀ a ∈ r, R a st) Behind

variable {α β : Type} {P I : State → Prop} {R : β → State → Prop}

theorem leads_none (h : ∀ st, P st → Behind st) : Leads P (pure none) R :=
  Meets.pure fun st hst => ⟨fun _ => h st hst, by simp⟩

theorem leads_some {b : β} (h : ∀ st, P st → R b st) : Leads P (pure (some b)) R := by
  refine Meets.pure fun st hst => ⟨by simp, ?_⟩
  rintro a ⟨⟩
  exact h st hst

theorem leads_throw (e : Abort) (h : ∀ st, P st → Behind st) : Leads P (throw e) R :=
  Meets.throw e h

theorem leads_keeps_bind {x : Recv α} {f : α → Recv (Option β)} {S : α → Prop}
    (hI : ∀ st, I st → Behind st) (hx : Preserves I x S) (hf : ∀ a, S a → Leads I (f a) R) :
    Leads I (x >>= f) R :=
  Meets.bind (Meets.mono hx (fun _ h => h) (fun _ _ h => h) hI) fun a => Meets.assume (hf a)

theorem leads_bind {x : Recv (Option α)} {f : Option α → Recv (Option β)} {S : α → State → Prop}
    (hx : Leads P x S) (hnone : f none = pure none) (hsome : ∀ a, Leads (S a) (f (some a)) R) :
    Leads P (x >>= f) R := by
  refine Meets.bind hx fun r => ?_
  cases r with
  | none =>
      rw [hnone]
      exact leads_none fun st h => h.1 rfl
  | some a => exact Meets.mono (hsome a) (fun st h => h.2 a rfl) (fun _ _ h => h) fun _ h => h

theorem leads_op_bind {f : Unit → Recv (Option β)} (hf : Leads (Due n) (f ()) R) :
    Leads (Due n) (op o >>= f) R :=
  Meets.bind (Q := fun _ => Due n) (Meets.modify fun _ h => h.log) fun _ => hf

/-! The data of a chunk -/

theorem leads_readLeft (fuel : Nat) : ∀ (left : Int) (body : List UInt8),
    (n : Int) ≤ body.length + max left 0 →
    Leads (fun st => Due n st ∧ .body body.length ∈ st.ops) (readLeft buffSize fuel left body)
      fun _ => Due 0 := by
  induction fuel with
  | zero => exact fun left body _ => leads_none fun st h => h.1.behind
  | succ fuel ih =>
      intro left body hn
      have hframe : Frame buffSize fun st => Due n st ∧ .body body.length ∈ st.ops :=
        { log := fun h _ _ => ⟨h.1.log, List.mem_append_left _ h.2⟩
          deliver := fun h s => ⟨(frame_due buffSize).deliver h.1 s, h.2⟩ }
      rw [readLeft]
      split
      · exact leads_some fun st h => h.1.settle h.2 (by omega)
      · refine leads_keeps_bind (fun st h => h.1.behind)
          (keeps_read hframe (by omega) (by omega) (by omega)) fun bs hbs => ?_
        split
        · exact leads_none fun st h => h.1.behind
        · have hlen : (body ++ bs).length = body.length + bs.length := List.length_append
          refine Meets.bind (Q := fun _ => Due n) (Meets.modify fun st h => h.1.log) fun _ => ?_
          refine Meets.bind (Q := fun _ st => Due n st ∧ .body (body ++ bs).length ∈ st.ops)
            (Meets.modify fun st h => ⟨h.log, by simp⟩) fun _ => ?_
          exact ih (left - bs.length) (body ++ bs) (by omega)

theorem leads_recvData (fuel : Nat) {body data : List UInt8} {c : Int} (hc : IsInt c)
    (hdata : data.length ≤ buffSize) (hbuff : buffSize < 2 ^ 31) :
    Leads (Due (body.length + grown c data.length)) (recvData buffSize fuel c body data)
      fun x st => Due 0 st ∧ x.2.length ≤ buffSize := by
  rw [recvData, grown]
  split
  · refine leads_op_bind ?_
    split
    · exact leads_throw _ fun st h => h.behind
    · next hrange =>
      have hlen : (body ++ data.take c.toNat).length = body.length + c.toNat := by
        rw [List.length_append, List.length_take]
        omega
      refine Meets.bind (Q := fun _ => Due 0) (Meets.modify fun st h => ?_) fun _ => ?_
      · exact h.log.settle (List.mem_append_right _ (List.mem_singleton_self _))
          (Nat.le_of_eq hlen.symm)
      · refine leads_op_bind ?_
        split
        · exact leads_throw _ fun st h => h.behind
        · refine leads_op_bind (leads_some fun st h => ⟨h, ?_⟩)
          show (data.drop (c.toNat + 2)).length ≤ buffSize
          rw [List.length_drop]
          omega
  · next hfit =>
    -- the sum has not wrapped, or it would be negative
    have hsum : toInt32 (c + 2) = c + 2 := by
      refine toInt32_of_isInt ⟨by have := hc.low; omega, ?_⟩
      by_contra hbig
      have := toInt32_add_two hc (by omega)
      omega
    have hhigh := (isInt_toInt32 (c + 2)).high
    rw [hsum] at hfit hhigh
    have hleft : toInt32 (c - data.length + 2) = c - data.length + 2 :=
      toInt32_of_isInt ⟨by omega, by omega⟩
    have hlen : (body ++ data).length = body.length + data.length := List.length_append
    rw [hleft]
    refine leads_op_bind ?_
    refine Meets.bind (Q := fun _ st => Due (body.length + (c + 2).toNat) st ∧
      .body (body ++ data).length ∈ st.ops) (Meets.modify fun st h => ⟨h.log, by simp⟩) fun _ => ?_
    refine leads_bind (leads_readLeft fuel _ _ (by omega)) rfl fun body => ?_
    dsimp only
    split
    · exact leads_throw _ fun st h => h.behind
    · exact leads_op_bind (leads_op_bind (leads_some fun st h => ⟨h, Nat.zero_le _⟩))

variable (beyond) in
theorem leads_recvChunks (hbuff : buffSize < 2 ^ 31) (fuel : Nat) :
    ∀ (body data : List UInt8) (p : HttpResponseParser), data.length ≤ buffSize → ParserOk p →
      Leads (Due 0) (recvChunks beyond buffSize fuel body data p) fun _ => Filled := by
  induction fuel with
  | zero => exact fun body data p _ _ => leads_none fun st h => h.behind
  | succ fuel ih =>
      intro body data p hdata hp
      rw [recvChunks]
      refine leads_keeps_bind (fun st h => h.behind)
        (keeps_recvSize beyond (frame_due buffSize) hbuff fuel true data p hdata hp) fun r hr => ?_
      cases r with
      | none => exact leads_none fun st h => h.behind
      | some x =>
          obtain ⟨line, p, data⟩ := x
          obtain ⟨hdata, hp⟩ := hr _ rfl
          refine Meets.bind (Q := fun _ => Due (Step.chunk line p data.length body.length).most)
            (Meets.modify fun st h => h.step rfl) fun _ => ?_
          refine leads_bind (leads_recvData fuel hp.1 hdata hbuff) rfl fun x => ?_
          dsimp only
          split
          · exact leads_some fun st h => h.1.filled
          · exact Meets.assume fun hrest => ih x.1 x.2 p hrest hp

/-! A body of the announced length -/

/-- The length of the body is known, and there have been chunks only before. -/
def Known (p : HttpResponseParser) (st : State) : Prop :=
  ∀ k ∈ st.steps, k = .length p ∨ k.isLength = false ∧ Covered st k

theorem Due.known {p : HttpResponseParser} (h : Due 0 st) :
    Known p { st with steps := st.steps ++ [.length p] } := by
  intro k hk
  rcases List.mem_append.mp hk with hk | hk
  · exact .inr ⟨h.chunks k hk, h.filled k hk⟩
  · exact .inl (List.mem_singleton.mp hk)

theorem Known.filled {p : HttpResponseParser} (h : Known p st) (hp : Covered st (.length p)) :
    Filled st := by
  intro k hk
  rcases h k hk with rfl | ⟨-, hk⟩
  · exact hp
  · exact hk

theorem Known.behind {p : HttpResponseParser} (h : Known p st) (hp : Covered st (.length p))
    (hpos : 0 < toInt64 p.getContentLenght) : Behind st := by
  intro p' hp'
  rcases h _ hp' with heq | ⟨hk, -⟩
  · cases heq
    exact ⟨hpos, hp⟩
  · cases hk

variable (buffSize) in
theorem frame_known {p : HttpResponseParser} :
    Frame buffSize fun st => Known p st ∧ Covered st (.length p) where
  log h _ _ := ⟨fun k hk => (h.1 k hk).imp_right fun hk => ⟨hk.1, hk.2.log⟩, h.2.log⟩
  deliver h _ := ⟨h.1, h.2⟩

theorem leads_recvBody (fuel : Nat) (p : HttpResponseParser) (rest : List UInt8) :
    Leads (Due 0) (recvBody fuel p rest) fun _ => Filled := by
  rw [recvBody]
  refine Meets.bind (Q := fun _ => Known p) (Meets.modify fun st h => h.known) fun _ => ?_
  dsimp only
  split
  · next hle =>
    have hzero : (Step.length p).most = 0 := by
      rw [Step.most]
      exact Int.toNat_of_nonpos hle
    exact leads_some fun st h => h.filled (.inl hzero)
  · next hpos =>
    have hpos : 0 < toInt64 p.getContentLenght := Int.lt_of_not_ge hpos
    have hbehind : ∀ st, Known p st ∧ Covered st (.length p) → Behind st :=
      fun st h => h.1.behind h.2 hpos
    have hfilled : ∀ st, Known p st ∧ Covered st (.length p) → Filled st :=
      fun st h => h.1.filled h.2
    refine Meets.bind (Q := fun _ st => Known p st ∧ Covered st (.length p))
      (Meets.modify fun st h => ⟨?_, .inr ⟨(Step.length p).most, ?_, Nat.le_refl _⟩⟩) fun _ => ?_
    · exact fun k hk => (h k hk).imp_right fun hk => ⟨hk.1, hk.2.log⟩
    · exact List.mem_append_right _ (List.mem_singleton_self _)
    · refine leads_keeps_bind hbehind
        (keeps_op (frame_known 0) ⟨by omega, by omega, by omega⟩ (by simp))
        fun _ _ => ?_
      split
      · exact leads_some hfilled
      · refine leads_keeps_bind hbehind
          (keeps_readFixSize (frame_known 0) fuel _ _ _ (by omega) (by omega))
          fun r _ => ?_
        cases r with
        | none => exact leads_none hbehind
        | some bs =>
            dsimp only
            split
            · exact leads_none hbehind
            · exact leads_some hfilled

variable (beyond) in
theorem leads_recvResponse (hbuff : buffSize < 2 ^ 31) (fuel : Nat) :
    Leads (Due 0) (recvResponse beyond buffSize fuel) fun _ => Filled := by
  rw [recvResponse]
  refine leads_op_bind (leads_keeps_bind (fun st h => h.behind)
    (keeps_recvHead beyond (frame_due buffSize) hbuff fuel [] .new (Nat.zero_le _) parserOk_new)
    fun r hr => ?_)
  cases r with
  | none => exact leads_none fun st h => h.behind
  | some x =>
      obtain ⟨hrest, hp⟩ := hr x rfl
      dsimp only
      split
      · exact leads_bind (leads_recvChunks beyond hbuff fuel [] x.2 x.1 hrest hp) rfl fun x =>
          leads_some fun st h => h
      · exact leads_recvBody fuel x.1 x.2

theorem due_start (s : Stream) : Due 0 ⟨s, [], []⟩ := ⟨by simp, by simp⟩

theorem responseKeepsLimit_of_within {limit fuel : Nat} {s : Stream} (hbuff : buffSize < 2 ^ 31)
    (h : ∀ k ∈ (logged (run beyond buffSize fuel s)).steps, k.Within limit) :
    ResponseKeepsLimit limit beyond buffSize fuel s := by
  have hreached : ∀ m, Reached (logged (run beyond buffSize fuel s)) m → m ≤ limit := by
    rintro m (rfl | ⟨k, hk, hm⟩)
    · exact Nat.zero_le limit
    · exact hm.trans (h k hk).2
  refine ⟨fun m hm => ?_, fun r st hrun => ?_, fun k hk hlt => ?_⟩
  · exact hreached m ((verdict_run beyond fuel hbuff s).bodies m hm)
  · have hends := (ends_recvResponse beyond fuel hbuff).ok (Verdict.start s) hrun
    rw [hrun] at hreached
    exact hreached _ (hends.2 r rfl)
  · exact absurd (h k hk).1 (Nat.not_le_of_lt hlt)

/-- A step that has led to a body, which is within the limit, announces no more. -/
theorem within_of_covered {limit fuel : Nat} {s : Stream}
    (h : ResponseKeepsLimit limit beyond buffSize fuel s)
    (hk : Covered (logged (run beyond buffSize fuel s)) k)
    (hannounced : k.most ≤ limit → k.announced ≤ limit) : k.Within limit := by
  have hmost : k.most ≤ limit := by
    rcases hk with hzero | ⟨m, hm, hle⟩
    · exact hzero ▸ Nat.zero_le limit
    · exact hle.trans (h.accumulated m hm)
  exact ⟨hannounced hmost, hmost⟩

theorem within_of_responseKeepsLimit {limit fuel : Nat} {s : Stream} (hbuff : buffSize < 2 ^ 31)
    (h : ResponseKeepsLimit limit beyond buffSize fuel s)
    (hk : k ∈ (logged (run beyond buffSize fuel s)).steps)
    (hone : k.isLength = true ∨ Returns beyond buffSize fuel s) : k.Within limit := by
  have hleads := leads_recvResponse beyond hbuff fuel
  by_cases hreturns : Returns beyond buffSize fuel s
  · obtain ⟨r, st, hrun⟩ := id hreturns
    have hfilled := (hleads.ok (due_start s) hrun).2 r rfl
    refine within_of_covered h ?_ fun _ => ?_
    · rw [hrun] at hk ⊢
      exact hfilled k hk
    · exact Nat.le_of_not_lt fun hlt => h.refused k hk hlt hreturns
  · have hbehind : Behind (logged (run beyond buffSize fuel s)) := by
      cases hrun : run beyond buffSize fuel s with
      | error e st => exact hleads.error (due_start s) hrun
      | ok r st =>
          cases r with
          | none => exact (hleads.ok (due_start s) hrun).1 rfl
          | some r => exact absurd ⟨r, st, hrun⟩ hreturns
    cases k with
    | chunk line p len body => exact absurd hone (by simp [Step.isLength, hreturns])
    | length p =>
        obtain ⟨hpos, hcovered⟩ := hbehind p hk
        refine within_of_covered h hcovered fun hmost => ?_
        by_contra hlt
        have hlt : limit < announcedLength p.data.headers := Nat.lt_of_not_le hlt
        have hsame : toInt64 p.getContentLenght = announcedLength p.data.headers :=
          toInt64_getAs (by omega) hpos
        rw [Step.most] at hmost
        omega

end

end HttpConnection.Trace

/-! ### Both functions -/

section
open HttpConnection (plainHead)
open HttpConnection.Trace (Beyond ResponseKeepsLimit Returns logged run)

/-- A request for which one byte more than the limit of the default configuration is announced. -/
def largePost : Stream := [text "POST / HTTP/1.1\r\nContent-Length: 67108865\r\n\r\n"]

end

end Sylar.Http
