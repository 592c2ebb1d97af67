import Sylar.Lib.Actions
import Sylar.Lib.Lang
import Sylar.Spec.HttpRequestParser

/-!
# `Sylar.Proofs.Http.RequestMachine`: where the request machine can be

The machine follows all alternatives of the grammar at once, and CR and LF are allowed both in a
header name and in a header value, so it is not obvious that it is ever in one header line only.
`Zones` says that it is: the request line and the header lines exclude each other, and a header line
begins only when the one before it is over.

`emits_brackets` draws the conclusion for the actions: a value is written with the length of the
name in front of it. `method_of_mem_fired` says where `request_method` runs.
-/

set_option autoImplicit false

namespace Sylar.Http

open Lib Lib.Rx Http11

/-- The part of a header line in front of its CRLF. -/
def headerField : Machine := seqs [fieldName, lit ":", star lws, fieldValue]

/-- The marks in the request line. -/
def lineMarks (t : Marks) : Marks := t.left.left

/-- The marks in the header lines. -/
def headerMarks (t : Marks) : Marks := t.left.right.left

/-- The marks in a header line behind the name. -/
def valueMarks (t : Marks) : Marks := (headerMarks t).left.right

/-- A header line may begin here. -/
def headerStarts (relaxed m : Bool) (t : Marks) : Bool :=
  live m (requestLine relaxed) (lineMarks t) || final messageHeader (headerMarks t)

section
variable {relaxed m o : Bool} {t : Marks} {c d : UInt8} {w : List UInt8} {a : RequestAction}

/-! ### The end of a line -/

theorem crlf_eq :
    crlf = alt (seq (sym (· == 13)) (sym (· == 10))) (sym (· == 10)) := rfl

theorem eq_of_final_crlf (h : final crlf (shift m crlf t c) = true) : c = 10 := by
  rw [crlf_eq, shift_alt, shift_seq, final_alt, final_seq] at h
  by_contra hc
  have hc' : (c == 10) = false := beq_eq_false_iff_ne.mpr hc
  simp [shift, final, nullable, hc', Marks.isLeaf] at h

/-- Nothing can follow a CRLF in it. -/
theorem shift_crlf_of_final (h : final crlf (shift m crlf t c) = true) :
    shift false crlf (shift m crlf t c) d = .none := by
  rw [eq_of_final_crlf h]
  simp [crlf_eq, shift_alt, shift_seq, shift_sym, live, nullable, final, Marks.isLeaf]

theorem final_requestLine :
    final (requestLine relaxed) t = final crlf t.right.right.right.right.right := by
  show final (seq _ (seq _ (seq _ (seq _ (seq _ crlf))))) t = _
  simp only [final_seq, show nullable crlf = false from rfl, nullable, Bool.and_false,
    Bool.false_or]

theorem avoids_lf_uriReference : avoids 10 (uriReference relaxed) = true := by
  revert relaxed
  decide

/-- Only the CRLF of the request line has an LF. -/
theorem shift_requestLine_of_final
    (h : final (requestLine relaxed) (shift m (requestLine relaxed) t c) = true) :
    shift false (requestLine relaxed) (shift m (requestLine relaxed) t c) d = .none := by
  have hmethod : avoids 10 method = true := by decide
  have hblank : avoids 10 (lit " ") = true := by decide
  have huri : avoids 10 (uriReference relaxed) = true := avoids_lf_uriReference
  have hversion : avoids 10 httpVersion = true := by decide
  rw [final_requestLine] at h
  have hline : requestLine relaxed = seq method (seq (lit " ") (seq (uriReference relaxed)
      (seq (lit " ") (seq httpVersion crlf)))) := rfl
  rw [hline] at h ⊢
  simp only [shift_seq, Marks.right_join] at h
  obtain rfl := eq_of_final_crlf h
  have hdead := shift_crlf_of_final (d := d) h
  simp only [shift_seq, Marks.left_join, Marks.right_join, shift_of_avoids hmethod,
    shift_of_avoids hblank, shift_of_avoids huri, shift_of_avoids hversion, shift_idle, live_none,
    Bool.false_and, Marks.join_eq_none, true_and]
  exact hdead

/-! ### Zones -/

theorem lineMarks_shift :
    lineMarks (shift m (main relaxed) t c) = shift m (requestLine relaxed) (lineMarks t) c := by
  show (shift m (alt (seq (requestLine relaxed) _) _) t c).left.left = _
  rw [shift_alt, Marks.left_join, shift_seq, Marks.left_join]
  rfl

theorem headerMarks_shift :
    headerMarks (shift m (main relaxed) t c) =
      shift (headerStarts relaxed m t) messageHeader (headerMarks t) c := by
  show (shift m (alt (seq (requestLine relaxed) (seq (star messageHeader) _)) _)
    t c).left.right.left = _
  rw [shift_alt, Marks.left_join, shift_seq, Marks.right_join, shift_seq, Marks.left_join]
  rfl

theorem messageHeader_eq : messageHeader = guarded headerField crlf := rfl

theorem final_messageHeader : final messageHeader t = final crlf t.right := by
  rw [messageHeader_eq, final_guarded, show nullable crlf = false from rfl, Bool.and_false,
    Bool.false_or]

/-- The machine is in the request line or in one header line. -/
structure Zones (relaxed : Bool) (t : Marks) : Prop where
  line : lineMarks t ≠ .none → headerMarks t = .none
  lineEnd : final (requestLine relaxed) (lineMarks t) = true →
    ∀ c, shift false (requestLine relaxed) (lineMarks t) c = .none
  header : (headerMarks t).left ≠ .none → (headerMarks t).right = .none
  headerEnd : final messageHeader (headerMarks t) = true →
    ∀ c, shift false crlf (headerMarks t).right c = .none

theorem zones_none : Zones relaxed .none where
  line h := absurd rfl h
  lineEnd h := by rw [show lineMarks .none = .none from rfl, final_none] at h; cases h
  header h := absurd rfl h
  headerEnd h := by rw [show headerMarks .none = .none from rfl, final_none] at h; cases h

/-- Where a header line may begin, no other is under way. -/
theorem Zones.left_of_starts (hz : Zones relaxed t) (hs : headerStarts relaxed false t = true) :
    (headerMarks t).left = .none := by
  by_contra hne
  rcases Bool.or_eq_true _ _ |>.mp hs with hl | hf
  · have hline : lineMarks t ≠ .none := by
      intro hnone
      rw [hnone, live_none, Bool.false_and] at hl
      cases hl
    rw [hz.line hline] at hne
    exact hne rfl
  · rw [final_messageHeader, hz.header hne, final_none] at hf
    cases hf

theorem Zones.shift_crlf (hz : Zones relaxed t) (hs : headerStarts relaxed false t = true) :
    shift false crlf (headerMarks t).right c = .none := by
  rcases Bool.or_eq_true _ _ |>.mp hs with hl | hf
  · have hline : lineMarks t ≠ .none := by
      intro hnone
      rw [hnone, live_none, Bool.false_and] at hl
      cases hl
    rw [hz.line hline, Marks.right_none, shift_idle]
  · exact hz.headerEnd hf c

theorem live_headerField : live m headerField t = final headerField t := by
  rw [live, show nullable headerField = false from rfl, Bool.and_false, Bool.false_or]

theorem zones_shift (hz : Zones relaxed t) (hm : m = true → t = .none) :
    Zones relaxed (shift m (main relaxed) t c) where
  line := by
    rw [lineMarks_shift, headerMarks_shift]
    intro hline
    cases m with
    | true =>
        obtain rfl := hm rfl
        rfl
    | false =>
        have hold : lineMarks t ≠ .none := by
          intro hnone
          rw [hnone, shift_idle] at hline
          exact hline rfl
        have hnf : final (requestLine relaxed) (lineMarks t) = false := by
          rw [← Bool.not_eq_true]
          exact fun hf => hline (hz.lineEnd hf c)
        rw [headerStarts, hz.line hold, live_false, hnf, final_none, Bool.or_false, shift_idle]
  lineEnd := by
    rw [lineMarks_shift]
    exact fun hf d => shift_requestLine_of_final hf
  header := by
    rw [headerMarks_shift, messageHeader_eq, shift_guarded, Marks.left_join, Marks.right_join,
      live_headerField]
    intro hne
    cases hf : final headerField (headerMarks t).left with
    | true =>
        -- The field could end here and goes on, so no CRLF begins.
        have hc : first crlf c = false := by
          rw [← Bool.not_eq_true]
          intro hc
          rw [hf, hc] at hne
          exact hne rfl
        have hleft : (headerMarks t).left ≠ .none := by
          intro hnone
          rw [hnone, final_none] at hf
          cases hf
        rw [hz.header hleft, shift_none_of_first hc]
    | false =>
        rw [hf, Bool.false_and, cond_false] at hne
        cases m with
        | true =>
            obtain rfl := hm rfl
            rfl
        | false =>
            cases hs : headerStarts relaxed false t with
            | true => exact hz.shift_crlf hs
            | false =>
                rw [hs] at hne
                have hleft : (headerMarks t).left ≠ .none := by
                  intro hnone
                  rw [hnone, shift_idle] at hne
                  exact hne rfl
                rw [hz.header hleft, shift_idle]
  headerEnd := by
    rw [headerMarks_shift, final_messageHeader, messageHeader_eq, shift_guarded, Marks.right_join]
    exact fun hf d => shift_crlf_of_final hf

/-! ### The actions of a header line -/

/-- What stands behind the name of a header. -/
def headerValue : Machine := seqs [lit ":", star lws, fieldValue]

theorem headerField_eq : headerField = seq fieldName headerValue := rfl

/-- The actions of a header line. -/
def RequestAction.ofHeader : RequestAction → Bool
  | .startField | .writeField | .startValue | .writeValue => true
  | _ => false

theorem lacks_of_ofHeader (relaxed : Bool) (ha : a.ofHeader = true) :
    lacks a (requestLine relaxed) = true ∧ lacks a crlf = true ∧
      lacks a (socketRequest relaxed) = true ∧ a ≠ .done := by
  cases a with
  | startField | writeField | startValue | writeValue =>
      clear ha
      revert relaxed
      decide
  | _ => cases ha

theorem mem_fired_ofHeader (ha : a.ofHeader = true) :
    a ∈ fired m (main relaxed) t c ↔
      a ∈ acts (headerStarts relaxed m t) (first messageHeader c || first crlf c) messageHeader
        (headerMarks t) (some c) := by
  obtain ⟨hline, hcrlf, hsocket, hdone⟩ := lacks_of_ofHeader relaxed ha
  rw [mem_fired]
  show a ∈ acts m false (finish _ (alt (seq _ (seq (star _) crlf)) _)) t (some c) ↔ _
  simp only [mem_acts_finish, acts_alt, acts_seq, acts_star, List.mem_append, notMem_acts hline,
    notMem_acts hcrlf, notMem_acts hsocket, starts_some, Bool.and_false, Bool.or_false, false_or,
    or_false]
  exact or_iff_left fun h => hdone h.1

theorem acts_messageHeader :
    acts m o messageHeader t (some c) =
      bif live m headerField t.left && first crlf c then acts m true headerField t.left none
      else acts m false headerField t.left (some c) := by
  rw [messageHeader_eq, acts_guarded, acts_plain (show plain crlf = true from rfl),
    List.append_nil, starts_some, show nullable crlf = false from rfl, Bool.false_and]

/-- Nothing is written before the colon. -/
theorem acts_headerValue_none {x : Option UInt8} : acts m o headerValue .none x = [] := by
  show acts m o (seq (lit ":") (seq (star lws) fieldValue)) .none x = []
  rw [acts_seq, Marks.left_none, Marks.right_none, acts_plain (show plain (lit ":") = true from rfl),
    live_none, show nullable (lit ":") = false from rfl, Bool.and_false, acts_idle, List.append_nil]

theorem mem_acts_headerField (ha : a.ofHeader = true) (h : a ∈ fired m (main relaxed) t c) :
    ∃ o x, a ∈ acts (headerStarts relaxed m t) o headerField (headerMarks t).left x := by
  rw [mem_fired_ofHeader ha, acts_messageHeader] at h
  cases hk : live (headerStarts relaxed m t) headerField (headerMarks t).left && first crlf c with
  | true =>
      rw [hk] at h
      exact ⟨_, _, h⟩
  | false =>
      rw [hk] at h
      exact ⟨_, _, h⟩

/-- A value is written behind the colon only. -/
theorem valueMarks_of_writeValue (h : RequestAction.writeValue ∈ fired m (main relaxed) t c) :
    valueMarks t ≠ .none := by
  intro hnone
  obtain ⟨o, x, h⟩ := mem_acts_headerField rfl h
  rw [headerField_eq, acts_seq, show (headerMarks t).left.right = .none from hnone,
    acts_headerValue_none, List.append_nil] at h
  exact notMem_acts (by decide) h

/-- A name begins only where a header line may begin. -/
theorem headerStarts_of_startField (h : RequestAction.startField ∈ fired m (main relaxed) t c) :
    headerStarts relaxed m t = true := by
  obtain ⟨o, x, h⟩ := mem_acts_headerField rfl h
  rw [headerField_eq, acts_seq, List.mem_append] at h
  rcases h with h | h
  · rw [fieldName, mem_acts_leave, mem_acts_enter] at h
    rcases h with (⟨-, hs, -⟩ | h) | ⟨h, -⟩
    · exact hs
    · exact absurd h (notMem_acts (by decide))
    · cases h
  · exact absurd h (notMem_acts (by decide))

theorem valueMarks_shift (h : valueMarks (shift m (main relaxed) t c) ≠ .none) :
    valueMarks (shift m (main relaxed) t c) =
      shift (live (headerStarts relaxed m t) fieldName (headerMarks t).left.left) headerValue
        (valueMarks t) c ∧
    (live (headerStarts relaxed m t) headerField (headerMarks t).left && first crlf c) = false := by
  rw [valueMarks, headerMarks_shift, messageHeader_eq, shift_guarded, Marks.left_join] at h ⊢
  cases hk : live (headerStarts relaxed m t) headerField (headerMarks t).left && first crlf c with
  | true =>
      rw [hk] at h
      exact absurd rfl h
  | false =>
      rw [cond_false, headerField_eq, shift_seq, Marks.right_join]
      exact ⟨rfl, rfl⟩

/-- The colon is read with the name written. -/
theorem writeField_of_valueMarks (hnone : valueMarks t = .none)
    (h : valueMarks (shift m (main relaxed) t c) ≠ .none) :
    RequestAction.writeField ∈ fired m (main relaxed) t c := by
  obtain ⟨heq, hk⟩ := valueMarks_shift h
  rw [heq, hnone] at h
  rw [mem_fired_ofHeader rfl, acts_messageHeader, hk, cond_false, headerField_eq, acts_seq,
    List.mem_append]
  cases hl : live (headerStarts relaxed m t) fieldName (headerMarks t).left.left with
  | false =>
      rw [hl, shift_idle] at h
      exact absurd rfl h
  | true =>
      have hf : first headerValue c = true := by
        rw [← Bool.not_eq_false]
        exact fun hf => h (shift_none_of_first hf)
      have hl' : live (headerStarts relaxed m t) (enter RequestAction.startField
          (plus (sym isToken))) (headerMarks t).left.left = true := hl
      rw [starts_some, hf, Bool.true_or, fieldName, acts_leave, Bool.true_and, hl']
      exact Or.inl (List.mem_append_right _ (List.mem_singleton_self _))

/-- A name begins with nothing behind the colon, before it and after it. -/
theorem valueMarks_of_startField (hz : Zones relaxed t) (hm : m = true → t = .none)
    (h : RequestAction.startField ∈ fired m (main relaxed) t c) :
    valueMarks t = .none ∧ valueMarks (shift m (main relaxed) t c) = .none := by
  have hs := headerStarts_of_startField h
  have hleft : (headerMarks t).left = .none := by
    cases m with
    | true => rw [hm rfl]; rfl
    | false => exact hz.left_of_starts hs
  have hnone : valueMarks t = .none := by rw [valueMarks, hleft]; rfl
  refine ⟨hnone, ?_⟩
  by_contra hne
  obtain ⟨heq, -⟩ := valueMarks_shift hne
  rw [heq, hnone, hleft, Marks.left_none, live_none, show nullable fieldName = false from rfl,
    Bool.and_false, shift_idle] at hne
  exact hne rfl

/-! ### Names and values -/

/-- Each value in the list of actions is written behind a name, with no other name begun in
between. `b` says that a name has been written. -/
def brackets : Bool → List RequestAction → Bool
  | _, [] => true
  | b, a :: as =>
    match a with
    | .startField => brackets false as
    | .writeField => brackets true as
    | .writeValue => b && brackets b as
    | _ => brackets b as

variable {b : Bool} {l as : List RequestAction}

theorem brackets_true (h : brackets b as = true) : brackets true as = true := by
  induction as generalizing b with
  | nil => rfl
  | cons a as ih =>
      cases a with
      | startField => exact h
      | writeField => exact h
      | writeValue =>
          rw [brackets, Bool.and_eq_true] at h
          exact ih h.2
      | _ => exact ih h

theorem brackets_append_of_false (hv : RequestAction.writeValue ∉ l)
    (h : brackets false as = true) : brackets b (l ++ as) = true := by
  induction l generalizing b with
  | nil =>
      cases b with
      | true => exact brackets_true h
      | false => exact h
  | cons a l ih =>
      rw [List.mem_cons, not_or] at hv
      cases a with
      | writeValue => exact absurd rfl hv.1
      | _ => exact ih hv.2

theorem brackets_append_of_true (hs : RequestAction.startField ∉ l)
    (h : brackets true as = true) : brackets true (l ++ as) = true := by
  induction l with
  | nil => exact h
  | cons a l ih =>
      rw [List.mem_cons, not_or] at hs
      cases a with
      | startField => exact absurd rfl hs.1
      | _ => exact ih hs.2

theorem brackets_append_of_writeField (hs : RequestAction.startField ∉ l)
    (hv : RequestAction.writeValue ∉ l) (hw : RequestAction.writeField ∈ l)
    (h : brackets true as = true) : brackets b (l ++ as) = true := by
  induction l generalizing b with
  | nil => cases hw
  | cons a l ih =>
      rw [List.mem_cons, not_or] at hs hv
      cases a with
      | startField => exact absurd rfl hs.1
      | writeValue => exact absurd rfl hv.1
      | writeField => exact brackets_append_of_true hs.2 h
      | _ => exact ih hs.2 hv.2 ((List.mem_cons.mp hw).resolve_left (by decide))

theorem brackets_suffix (h : brackets b (l ++ as) = true) : brackets true as = true := by
  induction l generalizing b with
  | nil => exact brackets_true h
  | cons a l ih =>
      cases a with
      | writeValue =>
          rw [List.cons_append, brackets, Bool.and_eq_true] at h
          exact ih h.2
      | _ => exact ih h

theorem emits_brackets (hz : Zones relaxed t) (hm : m = true → t = .none) :
    brackets (!(valueMarks t).isNone) (emits (main relaxed) m t w) = true := by
  induction w generalizing m t with
  | nil => rfl
  | cons c w ih =>
      have hrest := ih (zones_shift (c := c) hz hm) (m := false) (fun h => absurd h (by decide))
      rw [emits]
      by_cases hs : RequestAction.startField ∈ fired m (main relaxed) t c
      · obtain ⟨hbefore, hafter⟩ := valueMarks_of_startField hz hm hs
        rw [hafter] at hrest
        exact brackets_append_of_false (fun hv => valueMarks_of_writeValue hv hbefore) hrest
      · by_cases hbefore : valueMarks t = .none
        · have hv : RequestAction.writeValue ∉ fired m (main relaxed) t c :=
            fun hv => valueMarks_of_writeValue hv hbefore
          by_cases hafter : valueMarks (shift m (main relaxed) t c) = .none
          · rw [hafter] at hrest
            exact brackets_append_of_false hv hrest
          · exact brackets_append_of_writeField hs hv (writeField_of_valueMarks hbefore hafter)
              (brackets_true hrest)
        · have hb : (!(valueMarks t).isNone) = true := by
            rw [Bool.not_eq_true', ← Bool.not_eq_true, Marks.isNone_iff]
            exact hbefore
          rw [hb]
          exact brackets_append_of_true hs (brackets_true hrest)

/-! ### The method -/

theorem lineMarks_after :
    lineMarks (after m (main relaxed) t w) = after m (requestLine relaxed) (lineMarks t) w := by
  induction w generalizing m t with
  | nil => rfl
  | cons c w ih => rw [after, ih, lineMarks_shift, after]

/-- The request line behind the method. -/
def afterMethod (relaxed : Bool) : Machine :=
  seqs [lit " ", uriReference relaxed, lit " ", httpVersion, crlf]

theorem requestLine_eq : requestLine relaxed = seq method (afterMethod relaxed) := rfl

theorem main_eq : main relaxed = finish .done (alt (seq (requestLine relaxed)
    (seq (star messageHeader) crlf)) (socketRequest relaxed)) := rfl

theorem lacks_requestMethod (relaxed : Bool) :
    lacks RequestAction.requestMethod (afterMethod relaxed) = true ∧
      lacks RequestAction.requestMethod (socketRequest relaxed) = true := by
  revert relaxed
  decide

theorem first_afterMethod : first (afterMethod relaxed) c = (c == 32) := by
  show ((c == 32) || false) = (c == 32)
  rw [Bool.or_false]

/-- `request_method` runs on the blank behind the method. -/
theorem method_of_mem_fired
    (h : RequestAction.requestMethod ∈
      fired (true && w.isEmpty) (main relaxed) (after true (main relaxed) .none w) c) :
    c = 32 ∧ w ∈ lang method := by
  obtain ⟨hline, hsocket⟩ := lacks_requestMethod relaxed
  have hheaders : lacks RequestAction.requestMethod (seq (star messageHeader) crlf) = true := by
    decide
  rw [mem_fired] at h
  nth_rewrite 1 [main_eq] at h
  rw [mem_acts_finish, acts_alt, List.mem_append, acts_seq, List.mem_append, requestLine_eq,
    acts_seq, List.mem_append] at h
  rcases h with (((h | h) | h) | h) | h
  · rw [method, mem_acts_leave] at h
    obtain ⟨-, ho, hl⟩ := h.resolve_left (notMem_acts (by decide))
    refine ⟨?_, ?_⟩
    · rw [starts_some, first_afterMethod, show nullable (afterMethod relaxed) = false from rfl,
        Bool.false_and, Bool.or_false, beq_iff_eq] at ho
      exact ho
    · change live _ _ (lineMarks _).left = true at hl
      rw [lineMarks_after, requestLine_eq, after_seq_left, Bool.true_and] at hl
      exact mem_lang_of_live hl
  · exact absurd h (notMem_acts hline)
  · exact absurd h (notMem_acts hheaders)
  · exact absurd h (notMem_acts hsocket)
  · cases h.1

/-! ### The end of the head -/

theorem lacks_done : lacks RequestAction.done
    (alt (seq (requestLine relaxed) (seq (star messageHeader) crlf)) (socketRequest relaxed)) =
      true := by
  revert relaxed
  decide

/-- `done` runs where the machine accepts. -/
theorem done_mem_fired :
    RequestAction.done ∈ fired m (main relaxed) t c ↔
      final (main relaxed) (shift m (main relaxed) t c) = true := by
  rw [mem_fired, main_eq, mem_acts_finish]
  refine (or_iff_right (notMem_acts lacks_done)).trans ?_
  exact and_iff_right rfl

theorem final_of_completes (h : completes (main relaxed) RequestAction.stops m t w = true) :
    final (main relaxed) (after m (main relaxed) t w) = true := by
  induction w generalizing m t with
  | nil => cases h
  | cons c w ih =>
      cases w with
      | nil =>
          rw [completes, lastStops, Bool.and_eq_true, Bool.and_eq_true] at h
          refine done_mem_fired.mp ?_
          cases hlast : (fired m (main relaxed) t c).getLast? with
          | none =>
              rw [hlast] at h
              cases h.2.2
          | some a =>
              rw [hlast] at h
              have hstop : a.stops = true := h.2.2
              cases a with
              | done => exact List.mem_of_getLast? hlast
              | _ => cases hstop
      | cons d w =>
          rw [completes, Bool.and_eq_true] at h
          exact ih h.2

theorem not_final_of_reads (hw : w ≠ [])
    (h : reads (main relaxed) RequestAction.stops m t w = true) :
    final (main relaxed) (after m (main relaxed) t w) = false := by
  induction w generalizing m t with
  | nil => exact absurd rfl hw
  | cons c w ih =>
      rw [reads, Bool.and_eq_true, Bool.and_eq_true] at h
      cases w with
      | nil =>
          rw [← Bool.not_eq_true]
          intro hf
          have hdone := List.all_eq_true.mp h.1.2 _ (done_mem_fired.mpr hf)
          cases hdone
      | cons d w => exact ih (List.cons_ne_nil _ _) h.2

theorem mem_lang_lit {s : String} : w ∈ lang (lit s) ↔ w = text s := mem_lang_word

theorem mem_lang_requestLine (h : w ∈ lang (requestLine relaxed)) :
    ∃ u ∈ lang method, ∃ uri ∈ lang (uriReference relaxed), ∃ v ∈ lang httpVersion, ∃ e,
      w = u ++ 32 :: (uri ++ 32 :: (v ++ e)) := by
  obtain ⟨u, hu, w₁, h₁, rfl⟩ := mem_lang_seq.mp h
  obtain ⟨b, hb, w₂, h₂, rfl⟩ := mem_lang_seq.mp h₁
  obtain ⟨uri, huri, w₃, h₃, rfl⟩ := mem_lang_seq.mp h₂
  obtain ⟨b', hb', w₄, h₄, rfl⟩ := mem_lang_seq.mp h₃
  obtain ⟨v, hv, e, -, rfl⟩ := mem_lang_seq.mp h₄
  rw [mem_lang_lit.mp hb, mem_lang_lit.mp hb']
  exact ⟨u, hu, uri, huri, v, hv, e, rfl⟩

theorem mem_lang_httpVersion (h : w ∈ lang httpVersion) :
    w = text "HTTP/1.0" ∨ w = text "HTTP/1.1" := by
  obtain ⟨x, hx, y, hy, rfl⟩ := mem_lang_seq.mp h
  obtain ⟨z, hz, d, hd, rfl⟩ := mem_lang_seq.mp hy
  rw [mem_lang_lit.mp hx, mem_lang_lit.mp hz]
  rcases hd with hd | hd
  · rw [mem_lang_lit.mp hd]
    exact Or.inl (by decide)
  · rw [mem_lang_lit.mp hd]
    exact Or.inr (by decide)

theorem avoids_blank_uriReference : avoids 32 (uriReference relaxed) = true := by
  revert relaxed
  decide

/-- A request and a socket message begin differently. -/
theorem first_socketRequest (h : first method c = true) :
    first (socketRequest relaxed) c = false := by
  have hsocket : first (socketRequest relaxed) c = (c == 60 || c == 64) := by
    show (c == 60 || false || false || false || (c == 64 || false || false)) = _
    simp only [Bool.or_false]
  rw [hsocket, ← Bool.not_eq_true, Bool.or_eq_true, beq_iff_eq, beq_iff_eq]
  rintro (rfl | rfl) <;> exact absurd h (by decide)

/-- The target of a request has no blank, and a version follows it. What stands behind the request
does not matter. -/
theorem not_search_of_mem_lang {u x post : List UInt8} (hu : u ∈ lang method)
    (hh : u ++ 32 :: x ∈ lang (main relaxed)) : ¬ text "- SEARCH" <+: x ++ post := by
  have hblank : ∀ {w : List UInt8}, w ∈ lang method → (32 : UInt8) ∉ w :=
    fun hw => notMem_of_avoids (r := method) (by decide) hw
  rcases hh with hh | hh
  · obtain ⟨y, hy, z, -, hyz⟩ := mem_lang_seq.mp hh
    obtain ⟨w, hw, uri, huri, v, hv, e, rfl⟩ := mem_lang_requestLine hy
    rw [List.append_assoc, List.cons_append] at hyz
    obtain ⟨-, rfl⟩ := append_cons_inj_left (hblank hw) (hblank hu) hyz
    rintro ⟨s, hx⟩
    rw [List.append_assoc, List.append_assoc, List.cons_append] at hx
    obtain ⟨-, htail⟩ := append_cons_inj_left (v := [45])
      (notMem_of_avoids avoids_blank_uriReference huri) (by decide) hx.symm
    -- The version begins with an H.
    have hhead := congrArg List.head? htail
    rcases mem_lang_httpVersion hv with rfl | rfl <;> cases hhead
  · cases u with
    | nil => exact absurd (nil_mem_lang.mp hu) (by decide)
    | cons c u =>
        have hf := first_of_mem_lang (r := socketRequest relaxed) hh
        rw [first_socketRequest (first_of_mem_lang hu)] at hf
        cases hf

end

end Sylar.Http
