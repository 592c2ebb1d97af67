import Sylar.Lib.Drive

/-!
# `Lib.Actions`: which actions an expression runs, and in what order

`lacks` says that an action does not occur in an expression, and `behind a b r` that each `b` in `r`
stands behind a part that is left with `a`. The machine then never runs `b` before `a`
(`emits_awaits`).
-/

set_option autoImplicit false

namespace Lib

namespace Rx

variable {σ A : Type} [DecidableEq A]

/-- The action does not occur in the expression. -/
def lacks (a : A) : Rx σ A → Bool
  | eps => true
  | sym _ => true
  | seq r s => lacks a r && lacks a s
  | guarded r s => lacks a r && lacks a s
  | alt r s => lacks a r && lacks a s
  | star r => lacks a r
  | enter b r => a != b && lacks a r
  | leave b r => a != b && lacks a r
  | finish b r => a != b && lacks a r

/-- The first of `a` and `b` in the list is not `b`. -/
def awaits (a b : A) : List A → Bool
  | [] => true
  | x :: l => x == a || x != b && awaits a b l

/-- The expression is left with `a`, and `b` does not occur in it. -/
def opens (a b : A) : Rx σ A → Bool
  | leave a' r => a' == a && lacks b (leave a' r)
  | _ => false

/-- Each `b` stands behind a part that is left with `a`. -/
def behind (a b : A) : Rx σ A → Bool
  | eps => true
  | sym _ => true
  | seq r s => opens a b r || behind a b r && behind a b s
  | guarded r s => behind a b r && behind a b s
  | alt r s => behind a b r && behind a b s
  | star r => behind a b r
  | enter b' r => b' != b && behind a b r
  | leave b' r => b' != b && behind a b r
  | finish b' r => b' != b && behind a b r

/-- A match is under way behind a part that was left with `a`. -/
def opened (a b : A) : Rx σ A → Marks → Bool
  | eps, _ => false
  | sym _, _ => false
  | seq r s, t =>
    bif opens a b r then !t.right.isNone else opened a b r t.left || opened a b s t.right
  | guarded r s, t => opened a b r t.left || opened a b s t.right
  | alt r s, t => opened a b r t.left || opened a b s t.right
  | star r, t => opened a b r t
  | enter _ r, t => opened a b r t
  | leave _ r, t => opened a b r t
  | finish _ r, t => opened a b r t

section
variable {r s : Rx σ A} {m o : Bool} {t : Marks} {x : Option σ} {c : σ} {w : List σ} {a b : A}
  {l l' : List A}

omit [DecidableEq A] in
theorem mem_acts_enter : a ∈ acts m o (enter b r) t x ↔
    a = b ∧ m = true ∧ (starts r x || nullable r && o) = true ∨ a ∈ acts m o r t x := by
  rw [acts_enter, List.mem_append, ← Bool.and_eq_true]
  refine or_congr_left ?_
  cases m && (starts r x || nullable r && o) <;> simp

omit [DecidableEq A] in
theorem mem_acts_leave : a ∈ acts m o (leave b r) t x ↔
    a ∈ acts m o r t x ∨ a = b ∧ o = true ∧ live m r t = true := by
  rw [acts_leave, List.mem_append, ← Bool.and_eq_true]
  refine or_congr_right ?_
  cases o && live m r t <;> simp

omit [DecidableEq A] in
theorem mem_acts_finish : a ∈ acts m o (finish b r) t (some c) ↔
    a ∈ acts m o r t (some c) ∨ a = b ∧ final r (shift m r t c) = true := by
  rw [acts_finish, List.mem_append]
  refine or_congr_right ?_
  cases final r (shift m r t c) <;> simp

theorem notMem_acts (h : lacks a r = true) : a ∉ acts m o r t x := by
  induction r generalizing m o t x with
  | eps => exact List.not_mem_nil
  | sym p => exact List.not_mem_nil
  | seq r s ihr ihs =>
      rw [lacks, Bool.and_eq_true] at h
      rw [acts_seq, List.mem_append]
      exact not_or.mpr ⟨ihr h.1, ihs h.2⟩
  | guarded r s ihr ihs =>
      rw [lacks, Bool.and_eq_true] at h
      rw [acts_guarded, List.mem_append]
      refine not_or.mpr ⟨?_, ihs h.2⟩
      cases live m r t.left && starts s x with
      | true => exact ihr h.1
      | false => exact ihr h.1
  | alt r s ihr ihs =>
      rw [lacks, Bool.and_eq_true] at h
      rw [acts_alt, List.mem_append]
      exact not_or.mpr ⟨ihr h.1, ihs h.2⟩
  | star r ih =>
      rw [acts]
      exact ih h
  | enter b r ih =>
      rw [lacks, Bool.and_eq_true, bne_iff_ne] at h
      rw [mem_acts_enter]
      exact not_or.mpr ⟨fun hb => h.1 hb.1, ih h.2⟩
  | leave b r ih =>
      rw [lacks, Bool.and_eq_true, bne_iff_ne] at h
      rw [mem_acts_leave]
      exact not_or.mpr ⟨ih h.2, fun hb => h.1 hb.1⟩
  | finish b r ih =>
      rw [lacks, Bool.and_eq_true, bne_iff_ne] at h
      cases x with
      | none =>
          rw [acts, List.append_nil]
          exact ih h.2
      | some c =>
          rw [mem_acts_finish]
          exact not_or.mpr ⟨ih h.2, fun hb => h.1 hb.1⟩

theorem mem_fired : a ∈ fired m r t c ↔ a ∈ acts m false r t (some c) := List.mem_eraseDups

/-! ### Order -/

theorem awaits_of_notMem (h : b ∉ l) : awaits a b l = true := by
  induction l with
  | nil => rfl
  | cons x l ih =>
      rw [List.mem_cons, not_or] at h
      rw [awaits, ih h.2, Bool.and_true, bne_iff_ne.mpr (Ne.symm h.1), Bool.or_true]

theorem awaits_append (hl : awaits a b l = true) (hl' : a ∈ l ∨ awaits a b l' = true) :
    awaits a b (l ++ l') = true := by
  induction l with
  | nil => exact hl'.resolve_left List.not_mem_nil
  | cons x l ih =>
      rw [List.cons_append, awaits]
      by_cases hx : x = a
      · rw [beq_iff_eq.mpr hx, Bool.true_or]
      · rw [awaits, beq_eq_false_iff_ne.mpr hx, Bool.false_or, Bool.and_eq_true] at hl
        rw [beq_eq_false_iff_ne.mpr hx, Bool.false_or, Bool.and_eq_true]
        refine ⟨hl.1, ih hl.2 (hl'.imp_left fun ha => ?_)⟩
        exact (List.mem_cons.mp ha).resolve_left (Ne.symm hx)

theorem awaits_filter {p : A → Bool} (ha : p a = true) (h : awaits a b l = true) :
    awaits a b (l.filter p) = true := by
  induction l with
  | nil => rfl
  | cons x l ih =>
      by_cases hx : x = a
      · rw [List.filter_cons_of_pos (by rwa [hx]), awaits, beq_iff_eq.mpr hx, Bool.true_or]
      · rw [awaits, beq_eq_false_iff_ne.mpr hx, Bool.false_or, Bool.and_eq_true] at h
        cases hp : p x with
        | true =>
            rw [List.filter_cons_of_pos hp, awaits, h.1, ih h.2, Bool.true_and, Bool.or_true]
        | false =>
            rw [List.filter_cons_of_neg (by rw [hp]; exact Bool.false_ne_true)]
            exact ih h.2

/-- The first place of each action is kept. -/
theorem awaits_eraseDups (h : awaits a b l = true) : awaits a b l.eraseDups = true := by
  induction hn : l.length using Nat.strong_induction_on generalizing l with
  | _ n ih =>
      cases l with
      | nil => rfl
      | cons x l =>
          rw [List.eraseDups_cons, awaits]
          by_cases hx : x = a
          · rw [beq_iff_eq.mpr hx, Bool.true_or]
          · rw [awaits, beq_eq_false_iff_ne.mpr hx, Bool.false_or, Bool.and_eq_true] at h
            have hlen : (l.filter fun y => !y == x).length < n := by
              rw [← hn, List.length_cons, Nat.lt_succ_iff]
              exact List.length_filter_le ..
            rw [h.1, Bool.true_and, ih _ hlen (awaits_filter ?_ h.2) rfl, Bool.or_true]
            rw [beq_eq_false_iff_ne.mpr (Ne.symm hx), Bool.not_false]

theorem opened_none (a b : A) (r : Rx σ A) : opened a b r .none = false := by
  induction r with
  | eps => rfl
  | sym p => rfl
  | seq r s ihr ihs =>
      rw [opened, Marks.left_none, Marks.right_none, ihr, ihs]
      cases opens a b r <;> rfl
  | guarded r s ihr ihs => rw [opened, Marks.left_none, Marks.right_none, ihr, ihs, Bool.or_false]
  | alt r s ihr ihs => rw [opened, Marks.left_none, Marks.right_none, ihr, ihs, Bool.or_false]
  | star r ih => exact ih
  | enter a r ih => exact ih
  | leave a r ih => exact ih
  | finish a r ih => exact ih

/-- A part that `opens` runs `a` when it is left. -/
theorem mem_acts_of_opens (h : opens a b r = true) (hl : live m r t = true) :
    a ∈ acts m true r t x := by
  cases r with
  | leave a' r =>
      rw [opens, Bool.and_eq_true, beq_iff_eq] at h
      have hr : live m r t = true := hl
      rw [acts, hr, h.1]
      exact List.mem_append_right _ (List.mem_singleton_self a)
  | _ => cases h

theorem notMem_acts_of_opens (h : opens a b r = true) : b ∉ acts m o r t x := by
  cases r with
  | leave a' r =>
      rw [opens, Bool.and_eq_true] at h
      exact notMem_acts h.2
  | _ => cases h

/-- Before anything is opened, `b` comes behind `a`. -/
theorem awaits_acts (h : behind a b r = true) (hop : opened a b r t = false) :
    awaits a b (acts m o r t x) = true := by
  induction r generalizing m o t x with
  | eps => rfl
  | sym p => rfl
  | seq r s ihr ihs =>
      rw [acts_seq]
      rw [behind, Bool.or_eq_true, Bool.and_eq_true] at h
      cases hr : opens a b r with
      | true =>
          rw [opened, hr, cond_true, Bool.not_eq_false', Marks.isNone_iff] at hop
          rw [hop]
          refine awaits_append (awaits_of_notMem (notMem_acts_of_opens hr)) ?_
          cases hl : live m r t.left with
          | false => exact Or.inr (by rw [acts_idle]; rfl)
          | true =>
              -- Either `s` is entered or passed, and `a` runs, or nothing happens in `s`.
              cases hgo : starts s x || nullable s && o with
              | true => exact Or.inl (mem_acts_of_opens hr hl)
              | false =>
                  rw [Bool.or_eq_false_iff] at hgo
                  exact Or.inr (by rw [acts_fresh hgo.1 hgo.2]; rfl)
      | false =>
          rw [opened, hr, cond_false, Bool.or_eq_false_iff] at hop
          rw [hr] at h
          obtain ⟨hr, hs⟩ := h.resolve_left Bool.false_ne_true
          exact awaits_append (ihr hr hop.1) (Or.inr (ihs hs hop.2))
  | guarded r s ihr ihs =>
      rw [behind, Bool.and_eq_true] at h
      rw [opened, Bool.or_eq_false_iff] at hop
      rw [acts_guarded]
      refine awaits_append ?_ (Or.inr (ihs h.2 hop.2))
      cases live m r t.left && starts s x with
      | true => exact ihr h.1 hop.1
      | false => exact ihr h.1 hop.1
  | alt r s ihr ihs =>
      rw [behind, Bool.and_eq_true] at h
      rw [opened, Bool.or_eq_false_iff] at hop
      rw [acts_alt]
      exact awaits_append (ihr h.1 hop.1) (Or.inr (ihs h.2 hop.2))
  | star r ih =>
      rw [acts]
      exact ih h hop
  | enter b' r ih =>
      rw [behind, Bool.and_eq_true, bne_iff_ne] at h
      rw [acts]
      refine awaits_append (awaits_of_notMem ?_) (Or.inr (ih h.2 hop))
      cases m && (starts r x || nullable r && o) with
      | true => simpa using Ne.symm h.1
      | false => exact List.not_mem_nil
  | leave b' r ih =>
      rw [behind, Bool.and_eq_true, bne_iff_ne] at h
      rw [acts]
      refine awaits_append (ih h.2 hop) (Or.inr (awaits_of_notMem ?_))
      cases o && live m r t with
      | true => simpa using Ne.symm h.1
      | false => exact List.not_mem_nil
  | finish b' r ih =>
      rw [behind, Bool.and_eq_true, bne_iff_ne] at h
      cases x with
      | none =>
          rw [acts, List.append_nil]
          exact ih h.2 hop
      | some c =>
          simp only [acts]
          refine awaits_append (ih h.2 hop) (Or.inr (awaits_of_notMem ?_))
          cases final r (shift m r t c) with
          | true => simpa using Ne.symm h.1
          | false => exact List.not_mem_nil

/-- What was just opened was opened with `a`. -/
theorem mem_acts_of_opened (hop : opened a b r t = false)
    (hop' : opened a b r (shift m r t c) = true) : a ∈ acts m o r t (some c) := by
  induction r generalizing m o t with
  | eps => cases hop'
  | sym p => cases hop'
  | seq r s ihr ihs =>
      rw [shift_seq, opened, Marks.left_join, Marks.right_join] at hop'
      rw [acts_seq, List.mem_append]
      cases hr : opens a b r with
      | true =>
          rw [opened, hr, cond_true, Bool.not_eq_false', Marks.isNone_iff] at hop
          rw [hr, cond_true, Bool.not_eq_true', hop] at hop'
          -- The match in `s` has begun on this symbol.
          cases hl : live m r t.left with
          | false =>
              rw [hl, shift_idle] at hop'
              cases hop'
          | true =>
              have hf : first s c = true := by
                rw [← Bool.not_eq_false]
                intro hf
                rw [shift_none_of_first hf] at hop'
                cases hop'
              rw [starts_some, hf, Bool.true_or]
              exact Or.inl (mem_acts_of_opens hr hl)
      | false =>
          rw [opened, hr, cond_false, Bool.or_eq_false_iff] at hop
          rw [hr, cond_false, Bool.or_eq_true] at hop'
          exact hop'.imp (ihr hop.1) (ihs hop.2)
  | guarded r s ihr ihs =>
      rw [shift_guarded, opened, Marks.left_join, Marks.right_join, Bool.or_eq_true] at hop'
      rw [opened, Bool.or_eq_false_iff] at hop
      rw [acts_guarded, List.mem_append, starts_some]
      refine hop'.imp ?_ (ihs hop.2)
      cases live m r t.left && first s c with
      | true =>
          intro hnone
          rw [cond_true, opened_none] at hnone
          cases hnone
      | false => exact ihr hop.1
  | alt r s ihr ihs =>
      rw [shift_alt, opened, Marks.left_join, Marks.right_join, Bool.or_eq_true] at hop'
      rw [opened, Bool.or_eq_false_iff] at hop
      rw [acts_alt, List.mem_append]
      exact hop'.imp (ihr hop.1) (ihs hop.2)
  | star r ih =>
      rw [acts]
      exact ih hop hop'
  | enter b' r ih =>
      rw [acts]
      exact List.mem_append_right _ (ih hop hop')
  | leave b' r ih =>
      rw [acts]
      exact List.mem_append_left _ (ih hop hop')
  | finish b' r ih =>
      simp only [acts]
      exact List.mem_append_left _ (ih hop hop')

/-- The machine runs no `b` before `a`. -/
theorem emits_awaits (h : behind a b r = true) (hop : opened a b r t = false) :
    awaits a b (emits r m t w) = true := by
  induction w generalizing m t with
  | nil => rfl
  | cons c w ih =>
      rw [emits]
      refine awaits_append (awaits_eraseDups (awaits_acts h hop)) ?_
      cases hop' : opened a b r (shift m r t c) with
      | true => exact Or.inl (mem_fired.mpr (mem_acts_of_opened hop hop'))
      | false => exact Or.inr (ih hop')

end

end Rx

end Lib
