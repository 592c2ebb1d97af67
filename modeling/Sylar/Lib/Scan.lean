import Sylar.Lib.Machine

/-!
# `Lib.Scan`: the actions of a machine on a word

`Scans r m t w tr t'` says that the expression `r` reads the word `w` from the marks `t`,
where `m` says that a match may begin with `w`. No symbol of `w` is refused, a match may end
after it, and the marks are then `t'`. The list `tr` has the actions of each symbol of `w`, and
as its last entry the actions that run when the match is left.

The rules below give the word and the actions of a compound expression from those of its parts.
In a sequence the last entry of the first part and the first entry of the second fall on the same
symbol, which is what `glue` says.
-/

set_option autoImplicit false

namespace Lib

namespace Rx

variable {σ A : Type}

inductive Scans (r : Rx σ A) : Bool → Marks → List σ → List (List A) → Marks → Prop where
  | done {m : Bool} {t : Marks} (hl : live m r t = true) :
      Scans r m t [] [acts m true r t none] t
  | read {m : Bool} {t : Marks} {c : σ} {w : List σ} {tr : List (List A)} {t' : Marks}
      (hc : shift m r t c ≠ .none) (hw : Scans r false (shift m r t c) w tr t') :
      Scans r m t (c :: w) (acts m false r t (some c) :: tr) t'

/-- Two traces one after the other: the last entry of the first meets the first entry of the
second. -/
def glue : List (List A) → List (List A) → List (List A)
  | [], tr => tr
  | [l], [] => [l]
  | [l], l' :: tr => (l ++ l') :: tr
  | l :: l' :: tr, tr' => l :: glue (l' :: tr) tr'

/-- The marks after a word. -/
def after (m : Bool) (r : Rx σ A) : Marks → List σ → Marks
  | t, [] => t
  | t, c :: w => after false r (shift m r t c) w

/-- Nowhere inside the word can `s` take over from `r`. -/
def Stays (r s : Rx σ A) : Bool → Marks → List σ → Prop
  | _, _, [] => True
  | m, t, c :: w => (live m r t = true → first s c = false) ∧ Stays r s false (shift m r t c) w

/-- The action comes first on the first symbol. -/
def onHead (a : A) : List (List A) → List (List A)
  | [] => []
  | l :: tr => (a :: l) :: tr

/-- The action comes last when the match is left. -/
def onLast (a : A) : List (List A) → List (List A)
  | [] => []
  | [l] => [l ++ [a]]
  | l :: l' :: tr => l :: onLast a (l' :: tr)

section
variable {r s : Rx σ A} {m : Bool} {t t' t₁ t₂ : Marks} {u v w : List σ} {c : σ}
  {tr tr₁ tr₂ : List (List A)} {a : A} {o : Bool} {x : Option σ}

theorem Scans.ne_nil (h : Scans r m t w tr t') : tr ≠ [] := by
  cases h <;> exact List.cons_ne_nil _ _

theorem Scans.after_eq (h : Scans r m t w tr t') : after m r t w = t' := by
  induction h with
  | done hl => rfl
  | read hc hw ih => exact ih

/-- The first symbol of a match can begin a match. -/
theorem Scans.first_head (h : Scans r true .none (c :: w) tr t') : first r c = true := by
  cases h with
  | read hc hw =>
      rw [← Bool.not_eq_false]
      exact fun hf => hc (shift_none_of_first hf)

theorem after_append :
    after m r t (u ++ v) = after (m && u.isEmpty) r (after m r t u) v := by
  induction u generalizing m t with
  | nil => rw [List.nil_append, List.isEmpty_nil, Bool.and_true]; rfl
  | cons c u ih =>
      rw [List.cons_append, after, ih, List.isEmpty_cons, Bool.and_false, Bool.false_and, after]

theorem after_seq_left : (after m (seq r s) t w).left = after m r t.left w := by
  induction w generalizing m t with
  | nil => rfl
  | cons c w ih => rw [after, ih, shift_seq, Marks.left_join, after]

theorem glue_cons (l : List A) (h : tr ≠ []) : glue (l :: tr) tr₂ = l :: glue tr tr₂ := by
  cases tr with
  | nil => exact absurd rfl h
  | cons l' tr => rfl

theorem Stays.of_forall (h : ∀ c ∈ u, first s c = false) : Stays r s m t u := by
  induction u generalizing m t with
  | nil => trivial
  | cons c u ih =>
      exact ⟨fun _ => h c (List.mem_cons_self ..), ih fun c hc => h c (List.mem_cons_of_mem _ hc)⟩

/-- One symbol. -/
theorem Scans.symbol {p : σ → Bool} (hc : p c = true) :
    Scans (sym p : Rx σ A) true .none [c] [[], []] .leaf := by
  have hshift : shift true (sym p : Rx σ A) .none c = .leaf := by rw [shift_sym, hc]; rfl
  have hdone : Scans (sym p : Rx σ A) false .leaf [] [acts false true (sym p : Rx σ A) .leaf none]
      .leaf := Scans.done rfl
  rw [← hshift] at hdone
  have hread := Scans.read (by rw [hshift]; exact Marks.noConfusion) hdone
  rwa [hshift] at hread

/-! ### Sequences -/

/-- A fresh part that nothing passes through runs no action. -/
theorem acts_fresh (hx : starts r x = false) (ho : (nullable r && o) = false) :
    acts m o r .none x = [] := by
  have hnone : acts m o r .none x = acts m o r .none none := by
    cases x with
    | none => rfl
    | some c => exact acts_of_shift_none (shift_none_of_first hx)
  rw [hnone]
  cases o with
  | false => exact acts_false_none m r .none
  | true =>
      rw [Bool.and_true] at ho
      rw [acts_out_of_not_live, acts_false_none]
      rw [live_none, ho, Bool.and_false]

/-- The second part of a sequence, once the first is over. -/
theorem Scans.seq_right (h : Scans s m t w tr t') (hm : m = false) :
    Scans (seq r s) false (.join .none t) w tr (.join .none t') := by
  induction h with
  | @done m t hl =>
      subst hm
      have hacts : acts false true s t none = acts false true (seq r s) (.join .none t) none := by
        rw [acts_seq, Marks.left_join, Marks.right_join, acts_idle, live_false, final_none]
        rfl
      rw [hacts]
      refine Scans.done ?_
      rw [live_seq, Marks.left_join, Marks.right_join, live_false, final_none]
      exact hl
  | @read m t c w tr t' hc hw ih =>
      subst hm
      have hshift : shift false (seq r s) (.join .none t) c = .join .none (shift false s t c) := by
        rw [shift_seq, Marks.left_join, Marks.right_join, shift_idle, live_false, final_none]
      have hacts : acts false false s t (some c) =
          acts false false (seq r s) (.join .none t) (some c) := by
        rw [acts_seq, Marks.left_join, Marks.right_join, acts_idle, live_false, final_none]
        rfl
      rw [hacts]
      refine Scans.read ?_ ?_
      · rw [hshift, ne_eq, Marks.join_eq_none]
        exact fun hj => hc hj.2
      · rw [hshift]
        exact ih rfl

/-- A symbol inside the first part of a sequence. -/
theorem shift_seq_left (hstay : live m r t = true → first s c = false) :
    shift m (seq r s) (.join t .none) c = .join (shift m r t c) .none := by
  rw [shift_seq, Marks.left_join, Marks.right_join]
  cases hl : live m r t with
  | false => rw [shift_idle]
  | true => rw [shift_none_of_first (hstay hl)]

theorem acts_seq_left (hstay : live m r t = true → first s c = false) :
    acts m false (seq r s) (.join t .none) (some c) = acts m false r t (some c) := by
  rw [acts_seq, Marks.left_join, Marks.right_join, Bool.and_false, Bool.or_false, starts_some]
  cases hl : live m r t with
  | false => rw [acts_idle, acts_out_of_not_live hl, List.append_nil]
  | true => rw [hstay hl, acts_fresh (x := some c) (hstay hl) (Bool.and_false _), List.append_nil]

/-- The symbol on which the second part takes over from the first. -/
theorem shift_seq_cross (hl : live m r t = true) (hd : shift m r t c = .none) :
    shift m (seq r s) (.join t .none) c = .join .none (shift true s .none c) := by
  rw [shift_seq, Marks.left_join, Marks.right_join, hl, hd]

theorem acts_seq_cross (hl : live m r t = true) (hd : shift m r t c = .none)
    (hf : first s c = true) :
    acts m false (seq r s) (.join t .none) (some c) =
      acts m true r t none ++ acts true false s .none (some c) := by
  rw [acts_seq, Marks.left_join, Marks.right_join, hl, starts_some, hf, Bool.true_or,
    acts_of_shift_none hd]

/-- A match of a sequence. The first part is not left before the end of `u`, and it cannot read
the first symbol of `v`. -/
theorem Scans.seq (hr : Scans r m t u tr₁ t₁) (hs : Scans s true .none v tr₂ t₂)
    (hstay : Stays r s m t u)
    (hdies : ∀ c ∈ v.head?, shift (m && u.isEmpty) r t₁ c = .none) :
    Scans (seq r s) m (.join t .none) (u ++ v) (glue tr₁ tr₂)
      (.join (bif v.isEmpty then t₁ else .none) t₂) := by
  induction hr with
  | @done m t hl =>
      rw [List.isEmpty_nil, Bool.and_true] at hdies
      cases hs with
      | done hn =>
          have hacts : acts m true r t none ++ acts true true s .none none =
              acts m true (Rx.seq r s) (.join t .none) none := by
            rw [live_none, Bool.true_and] at hn
            rw [acts_seq, Marks.left_join, Marks.right_join, hl, hn]
            rfl
          rw [List.append_nil, glue, hacts, List.isEmpty_nil, cond_true]
          refine Scans.done ?_
          rw [live_seq, Marks.left_join, Marks.right_join, hl, hn]
      | @read _ _ c v tr₂ t₂ hc hw =>
          have hd := hdies c rfl
          have hf : first s c = true := (Scans.read hc hw).first_head
          rw [List.nil_append, glue, ← acts_seq_cross hl hd hf, List.isEmpty_cons, cond_false]
          refine Scans.read ?_ ?_
          · rw [shift_seq_cross hl hd, ne_eq, Marks.join_eq_none]
            exact fun hj => hc hj.2
          · rw [shift_seq_cross hl hd]
            exact hw.seq_right rfl
  | @read m t c u tr₁ t₁ hc hw ih =>
      obtain ⟨hstay₁, hstay₂⟩ := hstay
      rw [List.isEmpty_cons, Bool.and_false] at hdies
      rw [List.cons_append, glue_cons _ hw.ne_nil, ← acts_seq_left hstay₁]
      refine Scans.read ?_ ?_
      · rw [shift_seq_left hstay₁, ne_eq, Marks.join_eq_none]
        exact fun hj => hc hj.1
      · rw [shift_seq_left hstay₁]
        exact ih hstay₂ (by rwa [Bool.false_and])

/-! ### Actions -/

theorem onLast_cons (l : List A) (h : tr ≠ []) : onLast a (l :: tr) = l :: onLast a tr := by
  cases tr with
  | nil => exact absurd rfl h
  | cons l' tr => rfl

theorem onLast_concat (l : List A) : onLast a (tr ++ [l]) = tr ++ [l ++ [a]] := by
  induction tr with
  | nil => rfl
  | cons l' tr ih =>
      have hne : tr ++ [l] ≠ [] := List.append_ne_nil_of_right_ne_nil _ (List.cons_ne_nil _ _)
      rw [List.cons_append, onLast_cons _ hne, ih, List.cons_append]

theorem glue_concat (l l' : List A) : glue (tr ++ [l]) (l' :: tr₂) = tr ++ (l ++ l') :: tr₂ := by
  induction tr with
  | nil => rfl
  | cons x tr ih =>
      have hne : tr ++ [l] ≠ [] := List.append_ne_nil_of_right_ne_nil _ (List.cons_ne_nil _ _)
      rw [List.cons_append, glue_cons _ hne, ih, List.cons_append]

/-- A leaving action runs when the match is left. -/
theorem Scans.leave (h : Scans r m t w tr t') : Scans (leave a r) m t w (onLast a tr) t' := by
  induction h with
  | @done m t hl =>
      have hacts : acts m true r t none ++ [a] = acts m true (Rx.leave a r) t none := by
        rw [acts_leave, hl]
        rfl
      rw [onLast, hacts]
      exact Scans.done hl
  | @read m t c w tr t' hc hw ih =>
      have hacts : acts m false r t (some c) = acts m false (Rx.leave a r) t (some c) := by
        rw [acts_leave, Bool.false_and, cond_false, List.append_nil]
      rw [onLast_cons _ hw.ne_nil, hacts]
      exact Scans.read hc ih

/-- Behind its first symbol a match does not see the entering action. -/
theorem Scans.enter_behind (h : Scans r m t w tr t') (hm : m = false) :
    Scans (enter a r) false t w tr t' := by
  induction h with
  | @done m t hl =>
      subst hm
      exact Scans.done hl
  | @read m t c w tr t' hc hw ih =>
      subst hm
      exact Scans.read hc (ih rfl)

/-- An entering action runs on the first symbol. -/
theorem Scans.enter (h : Scans r true .none w tr t') :
    Scans (enter a r) true .none w (onHead a tr) t' := by
  cases h with
  | done hl =>
      have hn : nullable r = true := by rwa [live_none, Bool.true_and] at hl
      have hacts : a :: acts true true r .none none = acts true true (Rx.enter a r) .none none := by
        rw [acts_enter, hn]
        rfl
      rw [onHead, hacts]
      exact Scans.done hl
  | @read _ _ c w tr t' hc hw =>
      have hf : first r c = true := (Scans.read hc hw).first_head
      have hacts : a :: acts true false r .none (some c) =
          acts true false (Rx.enter a r) .none (some c) := by
        rw [acts_enter, starts_some, hf]
        rfl
      rw [onHead, hacts]
      exact Scans.read hc (hw.enter_behind rfl)

/-! ### Alternatives -/

theorem Scans.alt_left_behind (h : Scans r m t w tr t') (hm : m = false) :
    Scans (alt r s) false (.join t .none) w tr (.join t' .none) := by
  induction h with
  | @done m t hl =>
      subst hm
      have hacts : acts false true r t none = acts false true (alt r s) (.join t .none) none := by
        rw [acts_alt, Marks.left_join, Marks.right_join, acts_idle, List.append_nil]
      rw [hacts]
      refine Scans.done ?_
      rw [live_alt, Marks.left_join, hl, Bool.true_or]
  | @read m t c w tr t' hc hw ih =>
      subst hm
      have hshift : shift false (alt r s) (.join t .none) c = .join (shift false r t c) .none := by
        rw [shift_alt, Marks.left_join, Marks.right_join, shift_idle]
      have hacts : acts false false r t (some c) =
          acts false false (alt r s) (.join t .none) (some c) := by
        rw [acts_alt, Marks.left_join, Marks.right_join, acts_idle, List.append_nil]
      rw [hacts]
      refine Scans.read ?_ ?_
      · rw [hshift, ne_eq, Marks.join_eq_none]
        exact fun hj => hc hj.1
      · rw [hshift]
        exact ih rfl

theorem Scans.alt_right_behind (h : Scans s m t w tr t') (hm : m = false) :
    Scans (alt r s) false (.join .none t) w tr (.join .none t') := by
  induction h with
  | @done m t hl =>
      subst hm
      have hacts : acts false true s t none = acts false true (alt r s) (.join .none t) none := by
        rw [acts_alt, Marks.left_join, Marks.right_join, acts_idle, List.nil_append]
      rw [hacts]
      refine Scans.done ?_
      rw [live_alt, Marks.right_join, hl, Bool.or_true]
  | @read m t c w tr t' hc hw ih =>
      subst hm
      have hshift : shift false (alt r s) (.join .none t) c = .join .none (shift false s t c) := by
        rw [shift_alt, Marks.left_join, Marks.right_join, shift_idle]
      have hacts : acts false false s t (some c) =
          acts false false (alt r s) (.join .none t) (some c) := by
        rw [acts_alt, Marks.left_join, Marks.right_join, acts_idle, List.nil_append]
      rw [hacts]
      refine Scans.read ?_ ?_
      · rw [hshift, ne_eq, Marks.join_eq_none]
        exact fun hj => hc hj.2
      · rw [hshift]
        exact ih rfl

/-- A match of the first alternative, where the second cannot read the first symbol. -/
theorem Scans.alt_left (h : Scans r true .none (c :: w) tr t') (hs : first s c = false) :
    Scans (alt r s) true .none (c :: w) tr (.join t' .none) := by
  cases h with
  | @read _ _ _ _ tr t' hc hw =>
      have hshift : shift true (alt r s) .none c = .join (shift true r .none c) .none := by
        rw [shift_alt, Marks.left_none, Marks.right_none, shift_none_of_first hs]
      have hacts : acts true false r .none (some c) = acts true false (alt r s) .none (some c) := by
        rw [acts_alt, Marks.left_none, Marks.right_none,
          acts_fresh (r := s) (x := some c) hs (Bool.and_false _), List.append_nil]
      rw [hacts]
      refine Scans.read ?_ ?_
      · rw [hshift, ne_eq, Marks.join_eq_none]
        exact fun hj => hc hj.1
      · rw [hshift]
        exact hw.alt_left_behind rfl

theorem Scans.alt_right (h : Scans s true .none (c :: w) tr t') (hr : first r c = false) :
    Scans (alt r s) true .none (c :: w) tr (.join .none t') := by
  cases h with
  | @read _ _ _ _ tr t' hc hw =>
      have hshift : shift true (alt r s) .none c = .join .none (shift true s .none c) := by
        rw [shift_alt, Marks.left_none, Marks.right_none, shift_none_of_first hr]
      have hacts : acts true false s .none (some c) = acts true false (alt r s) .none (some c) := by
        rw [acts_alt, Marks.left_none, Marks.right_none,
          acts_fresh (r := r) (x := some c) hr (Bool.and_false _), List.nil_append]
      rw [hacts]
      refine Scans.read ?_ ?_
      · rw [hshift, ne_eq, Marks.join_eq_none]
        exact fun hj => hc hj.2
      · rw [hshift]
        exact hw.alt_right_behind rfl

/-- An optional part that is there. -/
theorem Scans.opt_some (h : Scans r true .none (c :: w) tr t') :
    Scans (opt r) true .none (c :: w) tr (.join t' .none) := h.alt_left rfl

/-- An optional part that is missing. -/
theorem Scans.opt_none (hr : nullable r = false) : Scans (opt r) true .none [] [[]] .none := by
  have hacts : ([] : List A) = acts true true (opt r) .none none := by
    rw [opt, acts_alt, Marks.left_none, Marks.right_none,
      acts_fresh (r := r) (x := none) rfl (by rw [hr]; rfl)]
    rfl
  rw [hacts]
  refine Scans.done ?_
  rw [live_none, opt, nullable]
  exact Bool.or_true _

end

end Rx

end Lib
