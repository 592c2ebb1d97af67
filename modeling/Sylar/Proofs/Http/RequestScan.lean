import Sylar.Lib.Walk
import Sylar.Lib.Lang
import Sylar.Proofs.Http.RequestMachine

/-!
# `Sylar.Proofs.Http.RequestScan`: the request machine on the parts of a head

What the machine does on a method, a target, a version, a header line and the blank line, as `Walk`s
from one known set of marks to the next. Each one lists the actions and the symbols they fall on.

The class of a token has CR and LF in it, so on the blank line behind the headers the machine also
begins a header name. A blank in front of a value may be the first byte of the value, so `start_value`
runs on it, and again on the byte behind it.
-/

set_option autoImplicit false

namespace Sylar.Http

open Lib Lib.Rx Http11

/-! ### Where the machine is -/

/-- Behind the blank that follows the method. -/
def targetAt : Marks := .node (.node (.node .none (.node .leaf .none)) .none) .none

/-- In the target, with the marks `t` in it. -/
def inTarget (t : Marks) : Marks :=
  .join (.join (.join .none (.join .none (.join t .none))) .none) .none

/-- Behind the blank that follows the target. -/
def versionAt : Marks :=
  .node (.node (.node .none (.node .none (.node .none (.node .leaf .none)))) .none) .none

/-- Behind the request line. -/
def lineEnd : Marks :=
  .node (.node (.node .none (.node .none (.node .none (.node .none (.node .none
    (.node (.node .none .leaf) .none)))))) .none) .none

/-- In a header line, with the marks `t` in it. -/
def inHeader (t : Marks) : Marks := .join (.join .none (.join t .none)) .none

/-- In the name: behind its first byte, and further on. -/
def nameFirst : Marks := .node (.node (.node .leaf .none) .none) .none

def nameNext : Marks := .node (.node (.node .none .leaf) .none) .none

def colonAt : Marks := .node (.node .none (.node .leaf .none)) .none

/-- Behind the blank that follows the colon. -/
def colonBlank : Marks :=
  .node (.node .none (.node .none (.node (.node .none (.node .leaf .none))
    (.node .leaf (.node .none (.node .leaf .none)))))) .none

/-- In the value: behind a byte that is not a blank, behind one blank and behind several. -/
def valueAt : Marks := .node (.node .none (.node .none (.node .none (.node .leaf .none)))) .none

def valueBlank : Marks :=
  .node (.node .none (.node .none (.node .none
    (.node .leaf (.node .none (.node .leaf .none)))))) .none

def valueBlanks : Marks :=
  .node (.node .none (.node .none (.node .none
    (.node .leaf (.node .none (.node .leaf .leaf)))))) .none

def crAt : Marks := .node .none (.node (.node .leaf .none) .none)

def headerEnd : Marks := .node .none (.node (.node .none .leaf) .none)

/-- A byte of a header name. -/
def isNameChar (c : UInt8) : Bool := isToken c && decide (32 < c)

/-- A byte of a header value: no control character. -/
def isValueChar (c : UInt8) : Bool := decide (32 ≤ c) && c != 127

section
variable {relaxed m o : Bool} {t : Marks} {c : UInt8} {w : List UInt8}

theorem of_isNameChar (h : isNameChar c = true) :
    isToken c = true ∧ (c == 13) = false ∧ (c == 10) = false ∧ (c == 58) = false := by
  rw [isNameChar, Bool.and_eq_true, decide_eq_true_eq] at h
  refine ⟨h.1, ?_, ?_, ?_⟩
  all_goals rw [beq_eq_false_iff_ne]
  · rintro rfl
    exact absurd h.2 (by decide)
  · rintro rfl
    exact absurd h.2 (by decide)
  · rintro rfl
    exact absurd h.1 (by decide)

theorem of_isValueChar (h : isValueChar c = true) :
    isHttpCtl c = false ∧ (c == 13) = false ∧ (c == 10) = false ∧ (c == 9) = false := by
  rw [isValueChar, Bool.and_eq_true, decide_eq_true_eq, bne_iff_ne] at h
  refine ⟨?_, ?_, ?_, ?_⟩
  · rw [isHttpCtl, Bool.or_eq_false_iff, beq_eq_false_iff_ne, beq_eq_false_iff_ne]
    refine ⟨?_, h.2⟩
    rintro rfl
    exact absurd h.1 (by decide)
  all_goals rw [beq_eq_false_iff_ne]
  · rintro rfl
    exact absurd h.1 (by decide)
  · rintro rfl
    exact absurd h.1 (by decide)
  · rintro rfl
    exact absurd h.1 (by decide)

theorem isBlank_eq : oneOf " \t" c = (c == 32 || c == 9) := by
  show ((c == 32) || ((c == 9) || false)) = _
  rw [Bool.or_false]

/-! ### One header line -/

/-- The rule for a header line, written out. -/
theorem messageHeader_rule :
    messageHeader = guarded
      (seq (leave .writeField (enter .startField (seq (sym isToken) (star (sym isToken)))))
        (seq (sym (· == 58)) (seq (star lws) fieldValue))) crlf := rfl

theorem lws_rule :
    lws = seq (alt crlf eps) (seq (sym (oneOf " \t")) (star (sym (oneOf " \t")))) := rfl

theorem fieldValue_rule : fieldValue = leave .writeValue (enter .startValue
    (star (alt (sym fun c => !isHttpCtl c) lws))) := rfl

/-- The actions of a header line on the symbol that follows. -/
theorem name_start (ht : t = .none ∨ t = headerEnd) (hc : isNameChar c = true) :
    shift true messageHeader t c = nameFirst ∧
      acts true false messageHeader t (some c) = [.startField] := by
  obtain ⟨htok, h13, h10, h58⟩ := of_isNameChar hc
  rcases ht with rfl | rfl <;>
    simp [messageHeader_rule, lws_rule, fieldValue_rule, crlf_eq, shift, acts, starts, live, final,
      nullable, first, idle, Marks.isNone, Marks.left, Marks.right, Marks.isLeaf, Marks.join,
      headerEnd, nameFirst, htok, h13, h10]

theorem name_next (ht : t = nameFirst ∨ t = nameNext) (hc : isNameChar c = true) :
    shift false messageHeader t c = nameNext ∧ acts false false messageHeader t (some c) = [] := by
  obtain ⟨htok, h13, h10, h58⟩ := of_isNameChar hc
  rcases ht with rfl | rfl <;>
    simp [messageHeader_rule, lws_rule, fieldValue_rule, crlf_eq, shift, acts, starts, live, final,
      nullable, first, idle, Marks.isNone, Marks.left, Marks.right, Marks.isLeaf, Marks.join,
      nameFirst, nameNext, htok, h58]

theorem name_colon (ht : t = nameFirst ∨ t = nameNext) :
    shift false messageHeader t 58 = colonAt ∧
      acts false false messageHeader t (some 58) = [.writeField] := by
  have htok : isToken 58 = false := by decide
  rcases ht with rfl | rfl <;>
    simp [messageHeader_rule, lws_rule, fieldValue_rule, crlf_eq, shift, acts, starts, live, final,
      nullable, first, idle, Marks.isNone, Marks.left, Marks.right, Marks.isLeaf, Marks.join,
      nameFirst, nameNext, colonAt, htok]

theorem value_start (ht : t = colonAt ∨ t = colonBlank) (hc : isValueChar c = true)
    (hblank : c ≠ 32) :
    shift false messageHeader t c = valueAt ∧
      acts false false messageHeader t (some c) = [.startValue] := by
  obtain ⟨hctl, h13, h10, h9⟩ := of_isValueChar hc
  have hb : oneOf " \t" c = false := by
    rw [isBlank_eq, h9, Bool.or_false, beq_eq_false_iff_ne]
    exact hblank
  rcases ht with rfl | rfl <;>
    simp [messageHeader_rule, lws_rule, fieldValue_rule, crlf_eq, shift, acts, starts, live, final,
      nullable, first, idle, Marks.isNone, Marks.left, Marks.right, Marks.isLeaf, Marks.join,
      colonAt, colonBlank, valueAt, hctl, h13, h10, hb]

theorem value_blank : shift false messageHeader colonAt 32 = colonBlank ∧
    acts false false messageHeader colonAt (some 32) = [.startValue] := by
  have hctl : isHttpCtl 32 = false := by decide
  have hb : oneOf " \t" 32 = true := by decide
  simp [messageHeader_rule, lws_rule, fieldValue_rule, crlf_eq, shift, acts, starts, live, final,
    nullable, first, idle, Marks.isNone, Marks.left, Marks.right, Marks.isLeaf, Marks.join, colonAt,
    colonBlank, hctl, hb]

/-- In the value. -/
def InValue (t : Marks) : Prop := t = valueAt ∨ t = valueBlank ∨ t = valueBlanks

theorem value_next (ht : InValue t) (hc : isValueChar c = true) :
    InValue (shift false messageHeader t c) ∧ acts false false messageHeader t (some c) = [] := by
  obtain ⟨hctl, h13, h10, -⟩ := of_isValueChar hc
  cases hb : oneOf " \t" c <;> rcases ht with rfl | rfl | rfl <;>
    simp [messageHeader_rule, lws_rule, fieldValue_rule, crlf_eq, shift, acts, starts, live, final,
      nullable, first, idle, Marks.isNone, Marks.left, Marks.right, Marks.isLeaf, Marks.join,
      InValue, valueAt, valueBlank, valueBlanks, hctl, h13, h10, hb]

theorem value_end (ht : InValue t) : shift false messageHeader t 13 = crAt ∧
    acts false false messageHeader t (some 13) = [.writeValue] := by
  rcases ht with rfl | rfl | rfl <;>
    simp [messageHeader_rule, lws_rule, fieldValue_rule, crlf_eq, shift, acts, starts, live, final,
      nullable, first, idle, Marks.isNone, Marks.left, Marks.right, Marks.isLeaf, Marks.join,
      valueAt, valueBlank, valueBlanks, crAt]

/-- A value that is empty begins and ends on one byte. -/
theorem value_none : shift false messageHeader colonAt 13 = crAt ∧
    acts false false messageHeader colonAt (some 13) = [.startValue, .writeValue] := by
  simp [messageHeader_rule, lws_rule, fieldValue_rule, crlf_eq, shift, acts, starts, live, final,
    nullable, first, idle, Marks.isNone, Marks.left, Marks.right, Marks.isLeaf, Marks.join, colonAt,
    crAt]

theorem header_lf : shift false messageHeader crAt 10 = headerEnd ∧
    acts false false messageHeader crAt (some 10) = [] := by
  simp [messageHeader_rule, lws_rule, fieldValue_rule, crlf_eq, shift, acts, starts, live, final,
    nullable, first, idle, Marks.isNone, Marks.left, Marks.right, Marks.isLeaf, Marks.join, crAt,
    headerEnd]

/-! ### Header lines in the request -/

theorem main_rule : main relaxed = finish .done (alt (seq (requestLine relaxed)
    (seq (star messageHeader) crlf)) (socketRequest relaxed)) := rfl

/-- Without marks in the last CRLF the request is not complete. -/
theorem final_request {x : Marks} (h : x.right.right = .none) :
    final (seq (requestLine relaxed) (seq (star messageHeader) crlf)) x = false := by
  rw [final_seq, final_seq, h, final_none]
  show (final (requestLine relaxed) x.left && (true && false) ||
    (final (star messageHeader) x.right.left && false || false)) = false
  simp

variable (relaxed) in
/-- Inside a header line the machine is that of the line. -/
theorem inHeader_step (hf : final messageHeader t = false) :
    shift false (main relaxed) (inHeader t) c = inHeader (shift false messageHeader t c) ∧
      acts false false (main relaxed) (inHeader t) (some c) =
        acts false false messageHeader t (some c) := by
  have hshift : shift false (main relaxed) (inHeader t) c =
      inHeader (shift false messageHeader t c) := by
    rw [main_rule, shift, inHeader, shift_alt, Marks.left_join, Marks.right_join, shift_idle,
      shift_seq, Marks.left_join, Marks.right_join, shift_idle, live_none, Bool.false_and, shift_seq,
      Marks.left_join, Marks.right_join, shift, hf, live_false, final, hf, Bool.or_false,
      shift_idle]
    rfl
  refine ⟨hshift, ?_⟩
  have hl : live false messageHeader t = false := hf
  have hfinal : final (alt (seq (requestLine relaxed) (seq (star messageHeader) crlf))
      (socketRequest relaxed)) (inHeader (shift false messageHeader t c)) = false := by
    rw [inHeader, final_alt, Marks.left_join, Marks.right_join, final_none, Bool.or_false]
    exact final_request (by rw [Marks.right_join, Marks.right_join])
  rw [main_rule] at hshift ⊢
  change shift false (alt _ _) _ _ = _ at hshift
  rw [acts_finish, hshift, hfinal, cond_false, List.append_nil, inHeader, acts_alt, Marks.left_join,
    Marks.right_join, acts_idle, List.append_nil, acts_seq, Marks.left_join, Marks.right_join,
    acts_idle, List.nil_append, live_none, Bool.false_and, acts_seq, Marks.left_join,
    Marks.right_join, live_false, final, hf, acts_idle, List.append_nil, acts_star, hf,
    Bool.or_false]
  exact acts_out_of_not_live hl

/-- What follows a header line does not show in its actions. -/
theorem acts_messageHeader_out {x : Option UInt8} :
    acts m o messageHeader t x = acts m false messageHeader t x := by
  rw [messageHeader_eq, acts_guarded, acts_guarded, show nullable crlf = false from rfl,
    Bool.false_and, Bool.false_and, acts_plain (r := crlf) (by decide),
    acts_plain (r := crlf) (by decide)]

variable (relaxed) in
/-- A line has ended, with the marks `l` in the request line or `h` in a header line. -/
theorem between_step {l h : Marks} (hl : shift false (requestLine relaxed) l c = .none)
    (hacts : ∀ o, acts false o (requestLine relaxed) l (some c) = [])
    (hend : (final (requestLine relaxed) l || final messageHeader h) = true) :
    shift false (main relaxed) (.join (.join l (.join h .none)) .none) c =
        .join (.join .none (.join (shift true messageHeader h c) (shift true crlf .none c))) .none ∧
      acts false false (main relaxed) (.join (.join l (.join h .none)) .none) (some c) =
        acts true false messageHeader h (some c) ++
          (bif final crlf (shift true crlf .none c) then [.done] else []) := by
  have hlive : live (final (requestLine relaxed) l) (star messageHeader) h = true := by
    rw [live, show nullable (star messageHeader) = true from rfl, Bool.and_true]
    exact hend
  have hshift : shift false (main relaxed) (.join (.join l (.join h .none)) .none) c =
      .join (.join .none (.join (shift true messageHeader h c) (shift true crlf .none c))) .none := by
    rw [main_rule, shift, shift_alt, Marks.left_join, Marks.right_join, shift_idle, shift_seq,
      Marks.left_join, Marks.right_join, hl, live_false, shift_seq, Marks.left_join,
      Marks.right_join, shift, hend, hlive]
  refine ⟨hshift, ?_⟩
  rw [main_rule] at hshift ⊢
  change shift false (alt _ _) _ _ = _ at hshift
  have hnull : nullable crlf = false := rfl
  rw [acts_finish, hshift, final_alt, Marks.left_join, Marks.right_join, final_none, Bool.or_false,
    final_seq, Marks.left_join, Marks.right_join, final_none, Bool.false_and, Bool.false_or,
    final_seq, Marks.left_join, Marks.right_join, hnull, Bool.and_false, Bool.false_or, acts_alt,
    Marks.left_join, Marks.right_join, acts_idle, List.append_nil, acts_seq, Marks.left_join,
    Marks.right_join, hacts, List.nil_append, live_false, acts_seq, Marks.left_join,
    Marks.right_join, hlive, acts_star, hend, acts_messageHeader_out,
    acts_plain (r := crlf) (by decide), List.append_nil]

/-- Where a header line may begin: behind the request line and behind another header line. -/
def BetweenLines (t : Marks) : Prop := t = lineEnd ∨ t = inHeader headerEnd

/-- The end of the request line, as marks of its last part. -/
def lineEndMarks : Marks :=
  .join .none (.join .none (.join .none (.join .none (.join .none (.node (.node .none .leaf) .none)))))

theorem requestLine_rule : requestLine relaxed = seq method (seq (lit " ")
    (seq (uriReference relaxed) (seq (lit " ") (seq httpVersion crlf)))) := rfl

variable (relaxed) in
theorem requestLine_over : shift false (requestLine relaxed) lineEndMarks c = .none ∧
    (∀ o, acts false o (requestLine relaxed) lineEndMarks (some c) = []) ∧
    final (requestLine relaxed) lineEndMarks = true := by
  have hcrlf : shift false crlf (.node (.node .none .leaf) .none) c = .none := by
    simp [crlf_eq, shift_alt, shift_seq, shift_sym, Marks.left, Marks.right, Marks.isLeaf, live, final]
  refine ⟨?_, fun o => ?_, ?_⟩
  · simp only [requestLine_rule, lineEndMarks, shift_seq, Marks.left_join, Marks.right_join,
      shift_idle, live_none, Bool.false_and, hcrlf, Marks.join_none]
  · simp only [requestLine_rule, lineEndMarks, acts_seq, Marks.left_join, Marks.right_join,
      acts_idle, live_none, Bool.false_and, List.nil_append]
    exact acts_plain (by decide)
  · rw [final_requestLine]
    simp only [lineEndMarks, Marks.right_join]
    rfl

variable (relaxed) in
/-- The first byte of a header line. -/
theorem header_start (ht : BetweenLines t) (hc : isNameChar c = true) :
    shift false (main relaxed) t c = inHeader nameFirst ∧
      fired false (main relaxed) t c = [.startField] := by
  obtain ⟨-, h13, h10, -⟩ := of_isNameChar hc
  have hcrlf : shift true crlf .none c = .none := by
    refine shift_none_of_first ?_
    show ((c == 13 || false) || (c == 10)) = false
    rw [h13, h10]
    rfl
  have hstep : ∀ {h : Marks}, (h = .none ∨ h = headerEnd) →
      Marks.join (.join .none (.join (shift true messageHeader h c) (shift true crlf .none c)))
          .none = inHeader nameFirst ∧
        (acts true false messageHeader h (some c) ++
          (bif final crlf (shift true crlf .none c) then [RequestAction.done] else [])).eraseDups =
          [.startField] := by
    intro h hh
    obtain ⟨hname, hact⟩ := name_start hh hc
    rw [hname, hact, hcrlf, final_none, cond_false, List.append_nil]
    exact ⟨rfl, rfl⟩
  rcases ht with rfl | rfl
  · obtain ⟨hl, hacts, hend⟩ := requestLine_over relaxed (c := c)
    obtain ⟨hs, ha⟩ := between_step relaxed (h := .none) hl hacts (by rw [hend, Bool.true_or])
    rw [fired, show lineEnd = .join (.join lineEndMarks (.join .none .none)) .none from rfl, hs, ha]
    exact hstep (Or.inl rfl)
  · obtain ⟨hs, ha⟩ := between_step relaxed (l := .none) (h := headerEnd) (c := c)
      (shift_idle ..) (fun o => acts_idle ..) (by rw [final_none]; rfl)
    rw [fired, inHeader, hs, ha]
    exact hstep (Or.inr rfl)

theorem inHeader_ne_none (ht : t ≠ .none) : inHeader t ≠ .none := by
  rw [inHeader, ne_eq, Marks.join_eq_none, Marks.join_eq_none, Marks.join_eq_none]
  exact fun h => ht h.1.2.1

/-- One byte inside a header line. -/
theorem walk_inHeader {t' : Marks} {l : List RequestAction} (hf : final messageHeader t = false)
    (hstep : shift false messageHeader t c = t' ∧ acts false false messageHeader t (some c) = l)
    (hne : t' ≠ .none) (hl : l.eraseDups = l)
    (hstops : l.all (fun a => !a.stops) = true) :
    Walk (main relaxed) RequestAction.stops false (inHeader t) [c] [l] (inHeader t') := by
  obtain ⟨hshift, hacts⟩ := inHeader_step relaxed (c := c) hf
  refine walk_symbol (hshift.trans (by rw [hstep.1])) (inHeader_ne_none hne) ?_ hstops
  rw [fired, hacts, hstep.2, hl]

/-- In the name. -/
def InName (t : Marks) : Prop := t = nameFirst ∨ t = nameNext

theorem InName.ne_none (ht : InName t) : t ≠ .none := by
  rcases ht with rfl | rfl <;> exact Marks.noConfusion

theorem InName.not_final (ht : InName t) : final messageHeader t = false := by
  rcases ht with rfl | rfl <;> rfl

theorem InValue.ne_none (ht : InValue t) : t ≠ .none := by
  rcases ht with rfl | rfl | rfl <;> exact Marks.noConfusion

theorem InValue.not_final (ht : InValue t) : final messageHeader t = false := by
  rcases ht with rfl | rfl | rfl <;> rfl

variable (relaxed) in
/-- A name and its colon. -/
theorem walk_name (ht : BetweenLines t) (hc : isNameChar c = true)
    (hw : ∀ d ∈ w, isNameChar d = true) :
    Walk (main relaxed) RequestAction.stops false t (c :: w ++ [58])
      ([.startField] :: List.replicate w.length [] ++ [[.writeField]]) (inHeader colonAt) := by
  obtain ⟨hfirst, hact⟩ := header_start relaxed ht hc
  have hhead : Walk (main relaxed) RequestAction.stops false t [c] [[.startField]]
      (inHeader nameFirst) :=
    walk_symbol hfirst (inHeader_ne_none (InName.ne_none (Or.inl rfl))) hact rfl
  have hloop : ∀ x, (∃ t, InName t ∧ x = inHeader t) → ∀ d ∈ w,
      (∃ t, InName t ∧ shift false (main relaxed) x d = inHeader t) ∧
        shift false (main relaxed) x d ≠ .none ∧ fired false (main relaxed) x d = [] := by
    rintro x ⟨t, ht, rfl⟩ d hd
    obtain ⟨hshift, hacts⟩ := inHeader_step relaxed (c := d) ht.not_final
    obtain ⟨hnext, hnil⟩ := name_next ht (hw d hd)
    rw [hshift, fired, hacts, hnext, hnil]
    exact ⟨⟨nameNext, Or.inr rfl, rfl⟩, inHeader_ne_none (InName.ne_none (Or.inr rfl)), rfl⟩
  obtain ⟨x, ⟨t', ht', rfl⟩, hname⟩ := walk_loop RequestAction.stops
    (P := fun x => ∃ t, InName t ∧ x = inHeader t) hloop ⟨nameFirst, Or.inl rfl, rfl⟩
  have hcolon : Walk (main relaxed) RequestAction.stops false (inHeader t') [58] [[.writeField]]
      (inHeader colonAt) :=
    walk_inHeader ht'.not_final (name_colon ht') Marks.noConfusion rfl rfl
  exact (hhead.append hname).append hcolon

/-- A value that is not empty and its CRLF. -/
theorem walk_value (ht : t = colonAt ∨ t = colonBlank) (hc : isValueChar c = true)
    (hblank : c ≠ 32) (hw : ∀ d ∈ w, isValueChar d = true) :
    Walk (main relaxed) RequestAction.stops false (inHeader t) (c :: w ++ [13, 10])
      ([.startValue] :: List.replicate w.length [] ++ [[.writeValue], []])
      (inHeader headerEnd) := by
  have hf : final messageHeader t = false := by rcases ht with rfl | rfl <;> rfl
  have hhead : Walk (main relaxed) RequestAction.stops false (inHeader t) [c] [[.startValue]]
      (inHeader valueAt) :=
    walk_inHeader hf (value_start ht hc hblank) Marks.noConfusion rfl rfl
  have hloop : ∀ x, (∃ t, InValue t ∧ x = inHeader t) → ∀ d ∈ w,
      (∃ t, InValue t ∧ shift false (main relaxed) x d = inHeader t) ∧
        shift false (main relaxed) x d ≠ .none ∧ fired false (main relaxed) x d = [] := by
    rintro x ⟨t, ht, rfl⟩ d hd
    obtain ⟨hshift, hacts⟩ := inHeader_step relaxed (c := d) ht.not_final
    obtain ⟨hnext, hnil⟩ := value_next ht (hw d hd)
    rw [hshift, fired, hacts, hnil]
    exact ⟨⟨_, hnext, rfl⟩, inHeader_ne_none hnext.ne_none, rfl⟩
  obtain ⟨x, ⟨t', ht', rfl⟩, hvalue⟩ := walk_loop RequestAction.stops
    (P := fun x => ∃ t, InValue t ∧ x = inHeader t) hloop ⟨valueAt, Or.inl rfl, rfl⟩
  have hcr : Walk (main relaxed) RequestAction.stops false (inHeader t') [13] [[.writeValue]]
      (inHeader crAt) :=
    walk_inHeader ht'.not_final (value_end ht') Marks.noConfusion rfl rfl
  have hlf : Walk (main relaxed) RequestAction.stops false (inHeader crAt) [10] [[]]
      (inHeader headerEnd) :=
    walk_inHeader rfl header_lf Marks.noConfusion rfl rfl
  exact (hhead.append hvalue).append (hcr.append hlf)

/-- An empty value and its CRLF. -/
theorem walk_value_none : Walk (main relaxed) RequestAction.stops false (inHeader colonAt) [13, 10]
    [[.startValue, .writeValue], []] (inHeader headerEnd) := by
  have hcr : Walk (main relaxed) RequestAction.stops false (inHeader colonAt) [13]
      [[.startValue, .writeValue]] (inHeader crAt) :=
    walk_inHeader rfl value_none Marks.noConfusion rfl rfl
  have hlf : Walk (main relaxed) RequestAction.stops false (inHeader crAt) [10] [[]]
      (inHeader headerEnd) :=
    walk_inHeader rfl header_lf Marks.noConfusion rfl rfl
  exact hcr.append hlf

theorem walk_blank : Walk (main relaxed) RequestAction.stops false (inHeader colonAt) [32]
    [[.startValue]] (inHeader colonBlank) :=
  walk_inHeader rfl value_blank Marks.noConfusion rfl rfl

variable (relaxed) in
/-- The blank line. A header name begins on its CR, and `done` runs on its LF. -/
theorem blank_line (ht : BetweenLines t) :
    completes (main relaxed) RequestAction.stops false t [13, 10] = true ∧
      trace (main relaxed) false t [13, 10] = [[.startField], [.done]] := by
  rcases ht with rfl | rfl <;> revert relaxed <;> decide +kernel

/-! ### The method and the version -/

/-- In the method, with the marks `t` in it. -/
def inMethod (t : Marks) : Marks := .join (.join (.join t .none) .none) .none

variable (relaxed) in
/-- The actions of the machine are those of the request line while no header line has begun. -/
theorem line_step {l : Marks} (hf : final (requestLine relaxed) l = false) :
    shift false (main relaxed) (.join (.join l .none) .none) c =
        .join (.join (shift false (requestLine relaxed) l c) .none) .none ∧
      acts false false (main relaxed) (.join (.join l .none) .none) (some c) =
        acts false false (requestLine relaxed) l (some c) := by
  have hshift : shift false (main relaxed) (.join (.join l .none) .none) c =
      .join (.join (shift false (requestLine relaxed) l c) .none) .none := by
    rw [main_rule, shift, shift_alt, Marks.left_join, Marks.right_join, shift_idle, shift_seq,
      Marks.left_join, Marks.right_join, live_false, hf, shift_idle]
  refine ⟨hshift, ?_⟩
  have hl : live false (requestLine relaxed) l = false := hf
  have hfinal : final (alt (seq (requestLine relaxed) (seq (star messageHeader) crlf))
      (socketRequest relaxed)) (.join (.join (shift false (requestLine relaxed) l c) .none) .none) =
      false := by
    rw [final_alt, Marks.left_join, Marks.right_join, final_none, Bool.or_false]
    exact final_request (by rw [Marks.right_join, Marks.right_none])
  rw [main_rule] at hshift ⊢
  change shift false (alt _ _) _ _ = _ at hshift
  rw [acts_finish, hshift, hfinal, cond_false, List.append_nil, acts_alt, Marks.left_join,
    Marks.right_join, acts_idle, List.append_nil, acts_seq, Marks.left_join, Marks.right_join,
    live_false, hf, acts_idle, List.append_nil]
  exact acts_out_of_not_live hl

theorem requestLine_not_over {l : Marks} (h : l.right.right.right.right.right = .none) :
    final (requestLine relaxed) l = false := by rw [final_requestLine, h, final_none]

theorem first_blank {r : Machine} : first (seq (lit " ") r) c = (c == 32) := by
  show ((c == 32) || false) = (c == 32)
  rw [Bool.or_false]

theorem avoids_blank_method : avoids 32 method = true := by decide

/-- The blank that ends a part of the request line. -/
theorem blank_step {r : Machine} : shift true (seq (lit " ") r) .none 32 = .node .leaf .none ∧
    acts true false (seq (lit " ") r) .none (some 32) = [] := by
  have hlive : live true (lit " ") .none = false := rfl
  rw [shift_seq, acts_seq, Marks.left_none, Marks.right_none, hlive, shift_idle, acts_idle,
    acts_plain (r := lit " ") (by decide)]
  exact ⟨rfl, rfl⟩

theorem hosts_method : Hosts (main relaxed) method true .none inMethod 32 targetAt where
  ne_none ht h := by
    rw [inMethod, Marks.join_eq_none, Marks.join_eq_none, Marks.join_eq_none] at h
    exact ht h.1.1.1
  end_ne_none := Marks.noConfusion
  first {c} hc hf := by
    have hsocket : first (socketRequest relaxed) c = false := first_socketRequest hf
    have hmethod : live true method .none = false := rfl
    have hline : live true (requestLine relaxed) .none = false := rfl
    have hshift : shift true (main relaxed) .none c = inMethod (shift true method .none c) := by
      rw [main_rule, shift, shift_alt, Marks.left_none, Marks.right_none,
        shift_none_of_first hsocket, shift_seq, Marks.left_none, Marks.right_none, hline, shift_idle,
        requestLine_eq, shift_seq, Marks.left_none, Marks.right_none, hmethod, shift_idle]
      rfl
    refine ⟨hshift, ?_⟩
    have hfinal : final (alt (seq (requestLine relaxed) (seq (star messageHeader) crlf))
        (socketRequest relaxed)) (inMethod (shift true method .none c)) = false := by
      rw [inMethod, final_alt, Marks.left_join, Marks.right_join, final_none, Bool.or_false]
      exact final_request (by rw [Marks.right_join, Marks.right_none])
    rw [main_rule] at hshift ⊢
    change shift true (alt _ _) _ _ = _ at hshift
    rw [acts_finish, hshift, hfinal, cond_false, List.append_nil, acts_alt, Marks.left_none,
      Marks.right_none, acts_fresh (r := socketRequest relaxed) (x := some c) hsocket
        (Bool.and_false _), List.append_nil, acts_seq, Marks.left_none, Marks.right_none, hline,
      acts_idle, List.append_nil, acts_out_of_not_live hline, requestLine_eq, acts_seq,
      Marks.left_none, Marks.right_none, hmethod, acts_idle, List.append_nil]
    exact acts_out_of_not_live hmethod
  next {t c} hc := by
    have hmethod : first (afterMethod relaxed) c = false := by
      rw [first_afterMethod, beq_eq_false_iff_ne]
      exact hc
    obtain ⟨hshift, hacts⟩ := line_step relaxed (c := c) (l := .join t .none)
      (requestLine_not_over (by simp only [Marks.right_join, Marks.right_none]))
    rw [inMethod, hshift, hacts, requestLine_eq, shift_seq, Marks.left_join, Marks.right_join,
      shift_none_of_first hmethod, acts_seq, Marks.left_join, Marks.right_join,
      acts_fresh (r := afterMethod relaxed) (x := some c) hmethod (Bool.and_false _),
      List.append_nil, starts_some, hmethod, Bool.and_false, Bool.or_false]
    exact ⟨rfl, rfl⟩
  last {t} ht := by
    obtain ⟨hshift, hacts⟩ := line_step relaxed (c := 32) (l := .join t .none)
      (requestLine_not_over (by simp only [Marks.right_join, Marks.right_none]))
    have hblank : first (afterMethod relaxed) 32 = true := first_afterMethod
    have hdead : shift false method t 32 = .none := shift_of_avoids avoids_blank_method
    rw [inMethod, hshift, hacts, requestLine_eq, shift_seq, Marks.left_join, Marks.right_join, hdead,
      acts_seq, Marks.left_join, Marks.right_join, live_false, ht, starts_some, hblank, Bool.true_or,
      acts_of_shift_none hdead]
    change Marks.join (.join (.join .none (shift true (seq (lit " ") _) .none 32)) .none) .none = _ ∧
      _ ++ acts true false (seq (lit " ") _) .none (some 32) = _
    rw [blank_step.1, blank_step.2, List.append_nil]
    exact ⟨rfl, rfl⟩

/-- A method of upper case letters. -/
theorem walk_method (hlen : w.length < 20) (hc : isUpper c = true)
    (hw : ∀ d ∈ w, isUpper d = true) :
    Walk (main relaxed) RequestAction.stops true .none (c :: w ++ [32])
      ([.mark] :: List.replicate w.length [] ++ [[.requestMethod]]) targetAt := by
  have hclass : ∀ {d}, isUpper d = true → (isUpper d || isDigit d) = true :=
    fun hd => by rw [hd, Bool.true_or]
  have hmem : c :: w ∈ lang (seq (sym fun c => isUpper c || isDigit c)
      (upTo 19 (sym fun c => isUpper c || isDigit c)) : Machine) :=
    mem_lang_seq.mpr ⟨[c], ⟨c, hclass hc, rfl⟩, w, mem_lang_upTo (by omega)
      fun d hd => hclass (hw d hd), rfl⟩
  obtain ⟨t', hscan⟩ := scans_of_mem_lang (by decide) hmem
  have hmethod : Scans method true .none (c :: w)
      ([.mark] :: List.replicate w.length [] ++ [[.requestMethod]]) t' := by
    have h := hscan.enter (a := .mark) |>.leave (a := .requestMethod)
    rw [List.length_cons, List.replicate_succ, List.replicate_succ', onHead, ← List.cons_append,
      onLast_concat] at h
    exact h
  refine hosts_method.walk hmethod (List.cons_ne_nil _ _) ?_ ?_ ?_
  · have hblank : ∀ d ∈ c :: w, isUpper d = true := List.forall_mem_cons.mpr ⟨hc, hw⟩
    exact fun h => absurd (hblank 32 h) (by decide)
  · simp only [List.cons_append, List.mem_cons, List.mem_append, List.mem_replicate]
    rintro l (rfl | ⟨-, rfl⟩ | rfl | h)
    · rfl
    · rfl
    · rfl
    · cases h
  · simp only [List.cons_append, List.mem_cons, List.mem_append, List.mem_replicate]
    rintro l (rfl | ⟨-, rfl⟩ | rfl | h)
    · rfl
    · rfl
    · rfl
    · cases h

theorem walk_version :
    Walk (main relaxed) RequestAction.stops false versionAt (text "HTTP/1.1\r\n")
      ([.mark] :: List.replicate 7 [] ++ [[.httpVersion], []]) lineEnd := by
  constructor <;> revert relaxed <;> decide +kernel

/-! ### The target -/

/-- The request line behind the target. -/
def afterTarget : Machine := seq (lit " ") (seq httpVersion crlf)

theorem requestLine_target :
    requestLine relaxed = seq method (seq (lit " ") (seq (uriReference relaxed) afterTarget)) := rfl

theorem hosts_target :
    Hosts (main relaxed) (uriReference relaxed) false targetAt inTarget 32 versionAt where
  ne_none ht h := by
    simp only [inTarget, Marks.join_eq_none] at h
    exact ht h.1.1.2.2.1
  end_ne_none := Marks.noConfusion
  first {c} hc hf := by
    have hdead : first afterTarget c = false := first_blank.trans (beq_eq_false_iff_ne.mpr hc)
    have hlit : shift false (lit " ") .leaf c = .none := rfl
    have hlive : live false (lit " ") .leaf = true := rfl
    obtain ⟨hshift, hacts⟩ := line_step relaxed (c := c)
      (l := .join .none (.join .leaf .none))
      (requestLine_not_over (by simp only [Marks.right_join, Marks.right_none]))
    change shift false (main relaxed) targetAt c = _ at hshift
    change acts false false (main relaxed) targetAt (some c) = _ at hacts
    rw [hshift, hacts, requestLine_target]
    simp only [shift_seq, acts_seq, Marks.left_join, Marks.right_join, Marks.left_none,
      Marks.right_none, shift_idle, acts_idle, live_none, Bool.false_and, hlit, hlive,
      shift_none_of_first hdead, acts_fresh (r := afterTarget) (x := some c) hdead
        (Bool.and_false _), starts_some, hdead, Bool.and_false, Bool.or_false, List.nil_append,
      List.append_nil, acts_plain (r := lit " ") (by decide)]
    exact ⟨rfl, trivial⟩
  next {t c} hc := by
    have hdead : first afterTarget c = false := first_blank.trans (beq_eq_false_iff_ne.mpr hc)
    obtain ⟨hshift, hacts⟩ := line_step relaxed (c := c)
      (l := .join .none (.join .none (.join t .none)))
      (requestLine_not_over (by simp only [Marks.right_join, Marks.right_none]))
    rw [inTarget, hshift, hacts, requestLine_target]
    simp only [shift_seq, acts_seq, Marks.left_join, Marks.right_join, shift_idle, acts_idle,
      live_none, Bool.false_and, shift_none_of_first hdead, acts_fresh (r := afterTarget)
        (x := some c) hdead (Bool.and_false _), starts_some, hdead, Bool.and_false, Bool.or_false,
      List.nil_append, List.append_nil]
    exact ⟨rfl, trivial⟩
  last {t} ht := by
    have hdead : shift false (uriReference relaxed) t 32 = .none :=
      shift_of_avoids avoids_blank_uriReference
    obtain ⟨hshift, hacts⟩ := line_step relaxed (c := 32)
      (l := .join .none (.join .none (.join t .none)))
      (requestLine_not_over (by simp only [Marks.right_join, Marks.right_none]))
    have hblank : first afterTarget 32 = true := first_blank
    obtain ⟨hs, ha⟩ := blank_step (r := seq httpVersion crlf)
    change shift true afterTarget .none 32 = _ at hs
    change acts true false afterTarget .none (some 32) = _ at ha
    rw [inTarget, hshift, hacts, requestLine_target]
    simp only [shift_seq, acts_seq, Marks.left_join, Marks.right_join, shift_idle, acts_idle,
      live_none, live_false, Bool.false_and, hdead, ht, hs, ha, starts_some, hblank, Bool.true_or,
      List.nil_append, List.append_nil, acts_of_shift_none hdead]
    exact ⟨rfl, trivial⟩

/-- The actions from the symbol behind the path to the symbol behind a query of `k` bytes. -/
def queryTrace : Nat → List (List RequestAction)
  | 0 => [[.requestPath, .requestUri]]
  | k + 1 => [.requestPath] :: [.startQuery] :: List.replicate k [] ++ [[.queryString, .requestUri]]

/-- The actions behind those, up to the symbol behind a fragment of `k` bytes. -/
def fragmentTrace : Nat → List (List RequestAction)
  | 0 => []
  | k + 1 => [.mark] :: List.replicate k [] ++ [[.fragment]]

variable {path query fragment : List UInt8}

theorem plain_relativePart : plain (relativePart relaxed) = true := by
  revert relaxed
  decide +kernel

theorem plain_queryChars : plain (queryChars relaxed) = true := rfl

theorem avoids_blank_parts : avoids 32 (relativePart relaxed) = true ∧
    avoids 32 (queryChars relaxed) = true := by
  revert relaxed
  decide +kernel

theorem avoids_mark_relativePart : avoids 63 (relativePart relaxed) = true ∧
    avoids 35 (relativePart relaxed) = true := by
  revert relaxed
  decide +kernel

/-- A separator that stands in front of a part. -/
theorem scans_separated {r s : Machine} {d : UInt8} {tr : List (List RequestAction)} {t' : Marks}
    {as : List RequestAction} (hsep : Scans s true .none [d] [[], as] .leaf)
    (hdead : ∀ e, shift false s .leaf e = .none) (hs : nullable s = false)
    (hr : Scans r true .none (c :: w) tr t') :
    Scans (opt (seq s r)) true .none (d :: c :: w) ([] :: glue [as] tr)
      (.join (.join .none t') .none) := by
  have hstays : Stays s r true .none [d] := by
    refine ⟨fun hl => ?_, trivial⟩
    rw [live_none, hs] at hl
    cases hl
  have hseq := hsep.seq hr hstays (fun e _ => hdead e)
  exact Scans.opt_some hseq

/-- The rule for a path and its query. -/
def pathQuery (relaxed : Bool) : Machine :=
  leave .requestUri (enter .mark (seq (leave .requestPath (relativePart relaxed))
    (opt (seq (leave .startQuery (lit "?")) (Http11.query relaxed)))))

/-- The path, and the query if there is one. -/
theorem scans_query (hpath : c :: path ∈ lang (relativePart relaxed))
    (hquery : query ∈ lang (queryChars relaxed)) :
    ∃ t, Scans (pathQuery relaxed) true .none (c :: path ++ (HttpRequest.mark "?" query ++ query))
      ([.mark] :: List.replicate path.length [] ++ queryTrace query.length) t := by
  have havoid : avoids 63 (relativePart relaxed) = true := avoids_mark_relativePart.1
  obtain ⟨t₁, hpart⟩ := scans_of_mem_lang plain_relativePart hpath
  have hpart' : Scans (leave .requestPath (relativePart relaxed)) true .none (c :: path)
      ([] :: List.replicate path.length [] ++ [[.requestPath]]) t₁ := by
    have h := hpart.leave (a := .requestPath)
    rw [List.length_cons, List.replicate_succ', List.replicate_succ, onLast_concat] at h
    exact h
  -- What follows the path begins with a question mark.
  have hstays : Stays (leave .requestPath (relativePart relaxed))
      (opt (seq (leave .startQuery (lit "?")) (Http11.query relaxed))) true .none (c :: path) := by
    refine Stays.of_forall fun d hd => ?_
    have hne : d ≠ 63 := by
      rintro rfl
      exact notMem_of_avoids havoid hpath hd
    show ((d == 63 || false) || false) = false
    rw [beq_eq_false_iff_ne.mpr hne]
    rfl
  cases query with
  | nil =>
      have hopt : Scans (opt (seq (leave .startQuery (lit "?")) (Http11.query relaxed))) true .none
          [] [[]] .none := Scans.opt_none rfl
      have h := (hpart'.seq hopt hstays (by rintro d ⟨⟩)).enter (a := .mark) |>.leave
        (a := .requestUri)
      rw [glue_concat] at h
      change Scans _ _ _ _ (onLast RequestAction.requestUri
        (([RequestAction.mark] :: List.replicate path.length []) ++ [[.requestPath]])) _ at h
      rw [onLast_concat] at h
      exact ⟨_, h⟩
  | cons d query =>
      obtain ⟨t₂, hchars⟩ := scans_of_mem_lang plain_queryChars hquery
      have hquery' : Scans (Http11.query relaxed) true .none (d :: query)
          ([] :: List.replicate query.length [] ++ [[.queryString]]) t₂ := by
        have h := hchars.leave (a := .queryString)
        rw [List.length_cons, List.replicate_succ', List.replicate_succ, onLast_concat] at h
        exact h
      have hmark : Scans (leave .startQuery (lit "?") : Machine) true .none [63]
          [[], [.startQuery]] .leaf := by
        have h : Scans (lit "?" : Machine) true .none [63] [[], []] .leaf := Scans.symbol rfl
        exact h.leave (a := .startQuery)
      have hopt := scans_separated hmark (fun _ => rfl) rfl hquery'
      have h := (hpart'.seq hopt hstays ?_).enter (a := .mark) |>.leave (a := .requestUri)
      · rw [glue_concat] at h
        change Scans _ _ _ _ (onLast RequestAction.requestUri
          ([RequestAction.mark] :: List.replicate path.length [] ++
            ([[.requestPath], [.startQuery]] ++
              (List.replicate query.length [] ++ [[.queryString]])))) _ at h
        rw [← List.append_assoc, ← List.append_assoc, onLast_concat, List.append_assoc,
          List.append_assoc] at h
        exact ⟨_, h⟩
      · intro e he
        obtain rfl : 63 = e := Option.some.inj he
        exact shift_of_avoids havoid

theorem avoids_hash_queryChars : avoids 35 (queryChars relaxed) = true := by
  revert relaxed
  decide +kernel

theorem first_uri_slash : first (uri relaxed) 47 = false := by
  revert relaxed
  decide

/-- No byte of the path and the query is a number sign. -/
theorem hash_notMem (hpath : c :: path ∈ lang (relativePart relaxed))
    (hquery : query ∈ lang (queryChars relaxed)) :
    35 ∉ c :: path ++ (HttpRequest.mark "?" query ++ query) := by
  rw [List.mem_append, List.mem_append, not_or, not_or]
  refine ⟨notMem_of_avoids avoids_mark_relativePart.2 hpath, ?_,
    notMem_of_avoids avoids_hash_queryChars hquery⟩
  rw [HttpRequest.mark]
  cases query.isEmpty <;> decide

/-- The target of a request. -/
theorem scans_target (hpath : 47 :: path ∈ lang (relativePart relaxed))
    (hquery : query ∈ lang (queryChars relaxed))
    (hfragment : fragment ∈ lang (queryChars relaxed)) :
    ∃ t, Scans (uriReference relaxed) true .none
      (47 :: path ++ (HttpRequest.mark "?" query ++ query) ++
        (HttpRequest.mark "#" fragment ++ fragment))
      ([.mark] :: List.replicate path.length [] ++ queryTrace query.length ++
        fragmentTrace fragment.length) t := by
  obtain ⟨t₁, hleft⟩ := scans_query hpath hquery
  have huri : first (uri relaxed) 47 = false := first_uri_slash
  have hstays : Stays (pathQuery relaxed) (opt (seq (lit "#") (Http11.fragment relaxed))) true .none
      (47 :: path ++ (HttpRequest.mark "?" query ++ query)) := by
    refine Stays.of_forall fun d hd => ?_
    have hne : d ≠ 35 := by
      rintro rfl
      exact hash_notMem hpath hquery hd
    show ((d == 35 || false) || false) = false
    rw [beq_eq_false_iff_ne.mpr hne]
    rfl
  -- The trace of the first part ends with what runs on the symbol behind it.
  obtain ⟨tr, l, htr⟩ : ∃ tr l, [RequestAction.mark] :: List.replicate path.length [] ++
      queryTrace query.length = tr ++ [l] := by
    cases query with
    | nil => exact ⟨_, _, rfl⟩
    | cons d query =>
        exact ⟨[.mark] :: List.replicate path.length [] ++
          ([.requestPath] :: [.startQuery] :: List.replicate query.length []), _,
          (List.append_assoc ..).symm⟩
  cases fragment with
  | nil =>
      have hopt : Scans (opt (seq (lit "#") (Http11.fragment relaxed))) true .none [] [[]] .none :=
        Scans.opt_none rfl
      have h := hleft.seq hopt hstays (by rintro d ⟨⟩)
      rw [htr, glue_concat, List.append_nil l, ← htr] at h
      rw [List.length_nil, fragmentTrace, List.append_nil (_ ++ queryTrace _)]
      exact ⟨_, Scans.alt_right h huri⟩
  | cons d fragment =>
      obtain ⟨t₂, hchars⟩ := scans_of_mem_lang plain_queryChars hfragment
      have hfragment' : Scans (Http11.fragment relaxed) true .none (d :: fragment)
          ([.mark] :: List.replicate fragment.length [] ++ [[.fragment]]) t₂ := by
        have h := hchars.enter (a := .mark) |>.leave (a := .fragment)
        rw [List.length_cons, List.replicate_succ, List.replicate_succ', onHead, ← List.cons_append,
          onLast_concat] at h
        exact h
      have hhash : Scans (lit "#" : Machine) true .none [35] [[], []] .leaf := Scans.symbol rfl
      have hopt := scans_separated hhash (fun _ => rfl) rfl hfragment'
      have h := hleft.seq hopt hstays ?_
      · rw [htr, glue_concat, List.append_nil, List.append_cons tr, ← htr] at h
        exact ⟨_, Scans.alt_right h huri⟩
      · intro e he
        obtain rfl : 35 = e := Option.some.inj he
        refine shift_of_avoids ?_
        show (avoids 35 (relativePart relaxed) && (avoids 35 (queryChars relaxed) && true)) = true
        rw [avoids_mark_relativePart.2, avoids_hash_queryChars]
        rfl

theorem blank_notMem_mark {s : String} {part : List UInt8} (hs : 32 ∉ text s) :
    32 ∉ HttpRequest.mark s part := by
  rw [HttpRequest.mark]
  cases part.isEmpty with
  | true => exact List.not_mem_nil
  | false => exact hs

theorem blank_notMem (hpath : c :: path ∈ lang (relativePart relaxed))
    (hquery : query ∈ lang (queryChars relaxed))
    (hfragment : fragment ∈ lang (queryChars relaxed)) :
    32 ∉ c :: path ++ (HttpRequest.mark "?" query ++ query) ++
      (HttpRequest.mark "#" fragment ++ fragment) := by
  have hpart : avoids 32 (relativePart relaxed) = true := avoids_blank_parts.1
  have hchars : avoids 32 (queryChars relaxed) = true := avoids_blank_parts.2
  simp only [List.mem_append, not_or]
  exact ⟨⟨notMem_of_avoids hpart hpath, blank_notMem_mark (by decide),
    notMem_of_avoids hchars hquery⟩, blank_notMem_mark (by decide),
    notMem_of_avoids hchars hfragment⟩

/-- The actions on a target are different ones on each symbol, and none of them ends the scan. -/
theorem targetTrace_ok {n k j : Nat} : ∀ l ∈ [RequestAction.mark] :: List.replicate n [] ++
    queryTrace k ++ fragmentTrace j, l.eraseDups = l ∧ l.all (fun a => !a.stops) = true := by
  intro l hl
  simp only [List.cons_append, List.mem_cons, List.mem_append, List.mem_replicate] at hl
  rcases hl with rfl | (⟨-, rfl⟩ | hl) | hl
  · exact ⟨rfl, rfl⟩
  · exact ⟨rfl, rfl⟩
  · cases k with
    | zero =>
        rw [List.mem_singleton.mp hl]
        exact ⟨rfl, rfl⟩
    | succ k =>
        simp only [queryTrace, List.cons_append, List.mem_cons, List.mem_append,
          List.mem_replicate] at hl
        rcases hl with rfl | rfl | ⟨-, rfl⟩ | rfl | hl
        · exact ⟨rfl, rfl⟩
        · exact ⟨rfl, rfl⟩
        · exact ⟨rfl, rfl⟩
        · exact ⟨rfl, rfl⟩
        · cases hl
  · cases j with
    | zero => cases hl
    | succ j =>
        simp only [fragmentTrace, List.cons_append, List.mem_cons, List.mem_append,
          List.mem_replicate] at hl
        rcases hl with rfl | ⟨-, rfl⟩ | rfl | hl
        · exact ⟨rfl, rfl⟩
        · exact ⟨rfl, rfl⟩
        · exact ⟨rfl, rfl⟩
        · cases hl

/-- The target and the blank behind it. -/
theorem walk_target (hpath : 47 :: path ∈ lang (relativePart relaxed))
    (hquery : query ∈ lang (queryChars relaxed))
    (hfragment : fragment ∈ lang (queryChars relaxed)) :
    Walk (main relaxed) RequestAction.stops false targetAt
      (47 :: path ++ (HttpRequest.mark "?" query ++ query) ++
        (HttpRequest.mark "#" fragment ++ fragment) ++ [32])
      ([.mark] :: List.replicate path.length [] ++ queryTrace query.length ++
        fragmentTrace fragment.length) versionAt := by
  obtain ⟨t, hscan⟩ := scans_target hpath hquery hfragment
  exact hosts_target.walk hscan (List.cons_ne_nil _ _) (blank_notMem hpath hquery hfragment)
    (fun l hl => (targetTrace_ok l hl).1) fun l hl => (targetTrace_ok l hl).2

end

end Sylar.Http
