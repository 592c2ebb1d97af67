import Mathlib

/-!
# `Lib.Machine`: scanners with embedded actions

A scanner generator in the manner of Ragel takes a regular expression with actions embedded in
it and emits a deterministic machine that reads one symbol at a time. The machine follows all
alternatives of the expression at once, and on each symbol it runs the actions of every
alternative that can read it. This module gives the meaning of such an expression.

`Rx σ A` is an expression over the symbols `σ` with actions of type `A`. `Marks` is a set of
positions in an expression, the ones where some alternative has just read a symbol. The set of
marks is the state of the deterministic machine.

* `enter a r` runs `a` on the first symbol of a match of `r`, or when control passes through
  `r` and the match is empty.
* `leave a r` runs `a` on the symbol that follows a match of `r`, or at the end of the input.
* `finish a r` runs `a` on each symbol that completes a match of `r`.
* `guarded r s` is `r` followed by `s`, where `s` takes over as soon as it can start.

When several actions fall on one symbol, an entering action comes before what it encloses, a
leaving or a finishing action after it, and otherwise the order is that of the expression. An
action that occurs twice on one symbol runs once, at its first place.
-/

set_option autoImplicit false

namespace Lib

/-- A regular expression with actions. -/
inductive Rx (σ A : Type) where
  /-- The empty word. -/
  | eps
  /-- One symbol of a class. -/
  | sym (p : σ → Bool)
  | seq (r s : Rx σ A)
  | guarded (r s : Rx σ A)
  | alt (r s : Rx σ A)
  | star (r : Rx σ A)
  | enter (a : A) (r : Rx σ A)
  | leave (a : A) (r : Rx σ A)
  | finish (a : A) (r : Rx σ A)

/-- A set of symbol positions of an expression. Only the expressions with two parts have a node
of their own, and a part without marks is `none`. -/
inductive Marks where
  | none
  | leaf
  | node (l r : Marks)
  deriving DecidableEq, Repr

namespace Marks

def left : Marks → Marks
  | node l _ => l
  | _ => none

def right : Marks → Marks
  | node _ r => r
  | _ => none

/-- The marks of the two parts together. -/
def join : Marks → Marks → Marks
  | none, none => none
  | l, r => node l r

def isNone : Marks → Bool
  | none => true
  | _ => false

def isLeaf : Marks → Bool
  | leaf => true
  | _ => false

@[simp] theorem left_none : none.left = none := rfl
@[simp] theorem right_none : none.right = none := rfl
@[simp] theorem join_none : join none none = none := rfl

@[simp] theorem left_join (l r : Marks) : (join l r).left = l := by
  cases l <;> cases r <;> rfl

@[simp] theorem right_join (l r : Marks) : (join l r).right = r := by
  cases l <;> cases r <;> rfl

@[simp] theorem join_eq_none {l r : Marks} : join l r = none ↔ l = none ∧ r = none := by
  cases l <;> cases r <;> simp [join]

theorem isNone_iff {t : Marks} : t.isNone = true ↔ t = none := by
  cases t <;> simp [isNone]

end Marks

namespace Rx

variable {σ A : Type}

/-! ### Grammars -/

def opt (r : Rx σ A) : Rx σ A := alt r eps

def plus (r : Rx σ A) : Rx σ A := seq r (star r)

/-- Exactly `n` copies. -/
def times : Nat → Rx σ A → Rx σ A
  | 0, _ => eps
  | 1, r => r
  | n + 2, r => seq r (times (n + 1) r)

/-- At most `n` copies. -/
def upTo : Nat → Rx σ A → Rx σ A
  | 0, _ => eps
  | n + 1, r => opt (seq r (upTo n r))

/-- One after the other. -/
def seqs : List (Rx σ A) → Rx σ A
  | [] => eps
  | [r] => r
  | r :: r' :: rs => seq r (seqs (r' :: rs))

/-- One of several. -/
def alts : List (Rx σ A) → Rx σ A
  | [] => eps
  | [r] => r
  | r :: r' :: rs => alt r (alts (r' :: rs))

/-- A fixed word. -/
def word [BEq σ] (w : List σ) : Rx σ A := seqs (w.map fun c => sym (· == c))

/-! ### The machine -/

/-- The empty word is a match. -/
def nullable : Rx σ A → Bool
  | eps => true
  | sym _ => false
  | seq r s => nullable r && nullable s
  | guarded r s => nullable r && nullable s
  | alt r s => nullable r || nullable s
  | star _ => true
  | enter _ r => nullable r
  | leave _ r => nullable r
  | finish _ r => nullable r

/-- A match that began earlier may end here. -/
def final : Rx σ A → Marks → Bool
  | eps, _ => false
  | sym _, t => t.isLeaf
  | seq r s, t =>
    bif t.isNone then false else final r t.left && nullable s || final s t.right
  | guarded r s, t =>
    bif t.isNone then false else final r t.left && nullable s || final s t.right
  | alt r s, t => bif t.isNone then false else final r t.left || final s t.right
  | star r, t => final r t
  | enter _ r, t => final r t
  | leave _ r, t => final r t
  | finish _ r, t => final r t

/-- A match may end here, where `m` says that one may also begin here. -/
def live (m : Bool) (r : Rx σ A) (t : Marks) : Bool := m && nullable r || final r t

/-- A match can begin with the symbol `c`. -/
def first : Rx σ A → σ → Bool
  | eps, _ => false
  | sym p, c => p c
  | seq r s, c => first r c || nullable r && first s c
  | guarded r s, c => first r c || nullable r && first s c
  | alt r s, c => first r c || first s c
  | star r, c => first r c
  | enter _ r, c => first r c
  | leave _ r, c => first r c
  | finish _ r, c => first r c

/-- `first` for the next symbol, or for the end of the input. -/
def starts (r : Rx σ A) : Option σ → Bool
  | none => false
  | some c => first r c

/-- No match begins here and none is under way. -/
def idle (m : Bool) (t : Marks) : Bool := !m && t.isNone

/-- The marks after the symbol `c`, where `m` says that a match may begin with it. -/
def shift (m : Bool) : Rx σ A → Marks → σ → Marks
  | eps, _, _ => .none
  | sym p, _, c => bif m && p c then .leaf else .none
  | seq r s, t, c =>
    bif idle m t then .none
    else .join (shift m r t.left c) (shift (live m r t.left) s t.right c)
  | guarded r s, t, c =>
    bif idle m t then .none
    -- The transitions of `r` on `c` give way to those that begin `s`.
    else .join (bif live m r t.left && first s c then .none else shift m r t.left c)
      (shift (live m r t.left) s t.right c)
  | alt r s, t, c =>
    bif idle m t then .none else .join (shift m r t.left c) (shift m s t.right c)
  | star r, t, c => shift (m || final r t) r t c
  | enter _ r, t, c => shift m r t c
  | leave _ r, t, c => shift m r t c
  | finish _ r, t, c => shift m r t c

/-- The actions on the next symbol `x`, or at the end of the input. `m` says that a match of the
expression may begin here, and `o` that what follows the expression goes on with `x`. -/
def acts (m o : Bool) : Rx σ A → Marks → Option σ → List A
  | eps, _, _ => []
  | sym _, _, _ => []
  | seq r s, t, x =>
    bif idle m t then []
    else acts m (starts s x || nullable s && o) r t.left x ++
      acts (live m r t.left) o s t.right x
  | guarded r s, t, x =>
    bif idle m t then []
    else (bif live m r t.left && starts s x then acts m true r t.left none
      else acts m (nullable s && o) r t.left x) ++ acts (live m r t.left) o s t.right x
  | alt r s, t, x =>
    bif idle m t then [] else acts m o r t.left x ++ acts m o s t.right x
  | star r, t, x => acts (m || final r t) (starts r x || o) r t x
  | enter a r, t, x =>
    (bif m && (starts r x || nullable r && o) then [a] else []) ++ acts m o r t x
  | leave a r, t, x => acts m o r t x ++ (bif o && live m r t then [a] else [])
  | finish a r, t, x =>
    acts m o r t x ++
      match x with
      | none => []
      | some c => bif final r (shift m r t c) then [a] else []

/-- Some symbol could still be read. -/
def hasNext (m : Bool) : Rx σ A → Marks → Bool
  | eps, _ => false
  | sym _, _ => m
  | seq r s, t => hasNext m r t.left || hasNext (live m r t.left) s t.right
  | guarded r s, t => hasNext m r t.left || hasNext (live m r t.left) s t.right
  | alt r s, t => hasNext m r t.left || hasNext m s t.right
  | star r, t => hasNext (m || final r t) r t
  | enter _ r, t => hasNext m r t
  | leave _ r, t => hasNext m r t
  | finish _ r, t => hasNext m r t

/-- Where a machine is: in its error state, or at a set of marks. `fresh` says that it has not
read anything yet. -/
inductive Cs where
  | error
  | at (fresh : Bool) (t : Marks)
  deriving DecidableEq, Repr

/-- The actions of one symbol. An action with `stops` ends the scan and the actions behind it are
skipped. -/
def runActs {S : Type} (act : A → S → S) (stops : A → Bool) : List A → S → S × Bool
  | [], st => (st, false)
  | a :: as, st => bif stops a then (act a st, true) else runActs act stops as (act a st)

/-- A scan of a word from the position `p`: the position where it ends, where the machine is then
and what its actions have done. A symbol that cannot be read is not consumed. -/
def exec {S : Type} [BEq A] (r : Rx σ A) (act : Nat → A → S → S) (stops : A → Bool) :
    Nat → Bool → Marks → List σ → S → Nat × Cs × S
  | p, m, t, [], st => (p, .at m t, st)
  | p, m, t, c :: w, st =>
    let t' := shift m r t c
    bif t'.isNone then (p, .error, st)
    else
      let res := runActs (act p) stops (acts m false r t (some c)).eraseDups st
      bif res.2 then (p + 1, .at false t', res.1) else exec r act stops (p + 1) false t' w res.1

/-! ### Equations without the short cut for idle parts -/

section
variable {m o : Bool} {r s : Rx σ A} {t : Marks} {c : σ} {x : Option σ} {a : A}

@[simp] theorem idle_true (t : Marks) : idle true t = false := rfl

theorem idle_iff : idle m t = true ↔ m = false ∧ t = .none := by
  cases m <;> simp [idle, Marks.isNone_iff]

@[simp] theorem final_none (r : Rx σ A) : final r .none = false := by
  induction r with
  | eps => rfl
  | sym p => rfl
  | seq r s _ _ => rfl
  | guarded r s _ _ => rfl
  | alt r s _ _ => rfl
  | star r ih => exact ih
  | enter a r ih => exact ih
  | leave a r ih => exact ih
  | finish a r ih => exact ih

@[simp] theorem live_none (m : Bool) (r : Rx σ A) : live m r .none = (m && nullable r) := by
  rw [live, final_none, Bool.or_false]

@[simp] theorem live_false (r : Rx σ A) (t : Marks) : live false r t = final r t := rfl

theorem final_seq : final (seq r s) t = (final r t.left && nullable s || final s t.right) := by
  show (bif t.isNone then false else _) = _
  cases t <;> simp [Marks.isNone]

theorem final_guarded :
    final (guarded r s) t = (final r t.left && nullable s || final s t.right) := by
  show (bif t.isNone then false else _) = _
  cases t <;> simp [Marks.isNone]

theorem final_alt : final (alt r s) t = (final r t.left || final s t.right) := by
  show (bif t.isNone then false else _) = _
  cases t <;> simp [Marks.isNone]

/-- A match of a sequence may end where one of its second part may. -/
theorem live_seq : live m (seq r s) t = live (live m r t.left) s t.right := by
  simp only [live, nullable, final_seq]
  grind

theorem live_guarded : live m (guarded r s) t = live (live m r t.left) s t.right := by
  simp only [live, nullable, final_guarded]
  grind

theorem live_alt : live m (alt r s) t = (live m r t.left || live m s t.right) := by
  simp only [live, nullable, final_alt]
  grind

@[simp] theorem starts_none (r : Rx σ A) : starts r none = false := rfl
@[simp] theorem starts_some (r : Rx σ A) (c : σ) : starts r (some c) = first r c := rfl

/-- A part that is idle stays idle. -/
@[simp] theorem shift_idle (r : Rx σ A) (c : σ) : shift false r .none c = .none := by
  induction r with
  | eps => rfl
  | sym p => rfl
  | seq r s _ _ => rfl
  | guarded r s _ _ => rfl
  | alt r s _ _ => rfl
  | star r ih =>
      show shift (false || final r .none) r .none c = .none
      rw [final_none]
      exact ih
  | enter a r ih => exact ih
  | leave a r ih => exact ih
  | finish a r ih => exact ih

theorem shift_sym {p : σ → Bool} :
    shift m (sym p : Rx σ A) t c = bif m && p c then .leaf else .none := rfl

theorem shift_star : shift m (star r) t c = shift (m || final r t) r t c := rfl

theorem shift_seq : shift m (seq r s) t c =
    .join (shift m r t.left c) (shift (live m r t.left) s t.right c) := by
  show (bif idle m t then Marks.none else _) = _
  cases h : idle m t with
  | false => rfl
  | true =>
      obtain ⟨rfl, rfl⟩ := idle_iff.mp h
      simp

theorem shift_guarded : shift m (guarded r s) t c =
    .join (bif live m r t.left && first s c then .none else shift m r t.left c)
      (shift (live m r t.left) s t.right c) := by
  show (bif idle m t then Marks.none else _) = _
  cases h : idle m t with
  | false => rfl
  | true =>
      obtain ⟨rfl, rfl⟩ := idle_iff.mp h
      simp

theorem shift_alt :
    shift m (alt r s) t c = .join (shift m r t.left c) (shift m s t.right c) := by
  show (bif idle m t then Marks.none else _) = _
  cases h : idle m t with
  | false => rfl
  | true =>
      obtain ⟨rfl, rfl⟩ := idle_iff.mp h
      simp

theorem acts_star :
    acts m o (star r) t x = acts (m || final r t) (starts r x || o) r t x := rfl

theorem acts_enter : acts m o (enter a r) t x =
    (bif m && (starts r x || nullable r && o) then [a] else []) ++ acts m o r t x := rfl

theorem acts_leave : acts m o (leave a r) t x =
    acts m o r t x ++ (bif o && live m r t then [a] else []) := rfl

theorem acts_finish : acts m o (finish a r) t (some c) =
    acts m o r t (some c) ++ (bif final r (shift m r t c) then [a] else []) := rfl

theorem acts_finish_none : acts m o (finish a r) t none = acts m o r t none :=
  List.append_nil _

/-- An idle part runs no action. -/
@[simp] theorem acts_idle (o : Bool) (r : Rx σ A) (x : Option σ) :
    acts false o r .none x = [] := by
  induction r generalizing o with
  | eps => rfl
  | sym p => rfl
  | seq r s _ _ => rfl
  | guarded r s _ _ => rfl
  | alt r s _ _ => rfl
  | star r ih =>
      rw [acts_star, final_none]
      exact ih _
  | enter a r ih => exact ih o
  | leave a r ih => simp [acts_leave, ih]
  | finish a r ih =>
      cases x with
      | none => rw [acts_finish_none, ih]
      | some c => simp [acts_finish, ih]

theorem acts_seq : acts m o (seq r s) t x =
    acts m (starts s x || nullable s && o) r t.left x ++
      acts (live m r t.left) o s t.right x := by
  show (bif idle m t then [] else _) = _
  cases h : idle m t with
  | false => rfl
  | true =>
      obtain ⟨rfl, rfl⟩ := idle_iff.mp h
      simp

theorem acts_guarded : acts m o (guarded r s) t x =
    (bif live m r t.left && starts s x then acts m true r t.left none
      else acts m (nullable s && o) r t.left x) ++ acts (live m r t.left) o s t.right x := by
  show (bif idle m t then [] else _) = _
  cases h : idle m t with
  | false => rfl
  | true =>
      obtain ⟨rfl, rfl⟩ := idle_iff.mp h
      simp

theorem acts_alt : acts m o (alt r s) t x =
    acts m o r t.left x ++ acts m o s t.right x := by
  show (bif idle m t then [] else _) = _
  cases h : idle m t with
  | false => rfl
  | true =>
      obtain ⟨rfl, rfl⟩ := idle_iff.mp h
      simp

/-! ### How a part meets its surroundings -/

/-- A part that cannot end here does not see whether what follows it could go on. -/
theorem acts_out_of_not_live (h : live m r t = false) :
    acts m o r t x = acts m false r t x := by
  induction r generalizing m o t with
  | eps => rfl
  | sym p => rfl
  | seq r s ihr ihs =>
      rw [live_seq] at h
      rw [acts_seq, acts_seq, ihs h]
      cases hl : live m r t.left with
      | false => rw [ihr hl, ihr (o := starts s x || nullable s && false) hl]
      | true =>
          -- `s` is then not nullable, so the way out never reaches `r`.
          have hs : nullable s = false := by
            rw [hl, live, Bool.true_and, Bool.or_eq_false_iff] at h
            exact h.1
          rw [hs, Bool.false_and, Bool.false_and]
  | guarded r s ihr ihs =>
      rw [live_guarded] at h
      rw [acts_guarded, acts_guarded, ihs h]
      cases hl : live m r t.left with
      | false => rw [ihr (o := nullable s && o) hl, Bool.and_false]
      | true =>
          have hs : nullable s = false := by
            rw [hl, live, Bool.true_and, Bool.or_eq_false_iff] at h
            exact h.1
          rw [hs, Bool.false_and, Bool.false_and]
  | alt r s ihr ihs =>
      rw [live_alt, Bool.or_eq_false_iff] at h
      rw [acts_alt, acts_alt, ihr h.1, ihs h.2]
  | star r ih =>
      obtain ⟨hm, hf⟩ := Bool.or_eq_false_iff.mp h
      rw [show m = false from (Bool.and_true m).symm.trans hm]
      change final r t = false at hf
      rw [acts_star, acts_star, hf, ih (m := false || false) (o := starts r x || o) hf,
        ih (m := false || false) (o := starts r x || false) hf]
  | enter a r ih =>
      have hn : (m && nullable r) = false := (Bool.or_eq_false_iff.mp h).1
      rw [acts_enter, acts_enter, ih h, Bool.and_or_distrib_left, ← Bool.and_assoc, hn,
        Bool.and_or_distrib_left, Bool.and_false, Bool.and_false, Bool.false_and]
  | leave a r ih =>
      have hr : live m r t = false := h
      rw [acts_leave, acts_leave, ih hr, hr, Bool.and_false, Bool.and_false]
  | finish a r ih =>
      have hr : live m r t = false := h
      cases x with
      | none => rw [acts_finish_none, acts_finish_none, ih hr]
      | some c => rw [acts_finish, acts_finish, ih hr]

/-- Without a symbol and without a way out there is nothing to run. -/
@[simp] theorem acts_false_none (m : Bool) (r : Rx σ A) (t : Marks) :
    acts m false r t none = [] := by
  induction r generalizing m t with
  | eps => rfl
  | sym p => rfl
  | seq r s ihr ihs => simp [acts_seq, ihr, ihs]
  | guarded r s ihr ihs => simp [acts_guarded, ihr, ihs]
  | alt r s ihr ihs => simp [acts_alt, ihr, ihs]
  | star r ih => simp [acts_star, ih]
  | enter a r ih => simp [acts_enter, ih]
  | leave a r ih => simp [acts_leave, ih]
  | finish a r ih => rw [acts_finish_none, ih]

/-- A symbol that can begin a match leaves a mark. -/
theorem shift_ne_none_of_first (h : first r c = true) : shift true r t c ≠ .none := by
  induction r generalizing t with
  | eps => cases h
  | sym p =>
      have hp : p c = true := h
      simp [shift_sym, hp]
  | seq r s ihr ihs =>
      rw [shift_seq, ne_eq, Marks.join_eq_none]
      rintro ⟨hl, hr⟩
      simp only [first, Bool.or_eq_true, Bool.and_eq_true] at h
      rcases h with h | ⟨hn, h⟩
      · exact ihr h hl
      · rw [live, hn] at hr
        exact ihs h hr
  | guarded r s ihr ihs =>
      rw [shift_guarded, ne_eq, Marks.join_eq_none]
      rintro ⟨hl, hr⟩
      simp only [first, Bool.or_eq_true, Bool.and_eq_true] at h
      -- Either `s` takes over, and it has the mark, or `r` reads the symbol itself.
      cases hs : live true r t.left && first s c with
      | true =>
          rw [Bool.and_eq_true] at hs
          rw [hs.1] at hr
          exact ihs hs.2 hr
      | false =>
          rw [hs] at hl
          rcases h with h | ⟨hn, h⟩
          · exact ihr h hl
          · simp [live, hn, h] at hs
  | alt r s ihr ihs =>
      rw [shift_alt, ne_eq, Marks.join_eq_none]
      rintro ⟨hl, hr⟩
      simp only [first, Bool.or_eq_true] at h
      rcases h with h | h
      · exact ihr h hl
      · exact ihs h hr
  | star r ih => exact ih h
  | enter a r ih => exact ih h
  | leave a r ih => exact ih h
  | finish a r ih => exact ih h

/-- A symbol that cannot begin a match leaves no mark in a fresh part. -/
theorem shift_none_of_first (h : first r c = false) : shift m r .none c = .none := by
  induction r generalizing m with
  | eps => rfl
  | sym p =>
      have hp : p c = false := h
      simp [shift_sym, hp]
  | seq r s ihr ihs =>
      simp only [first, Bool.or_eq_false_iff, Bool.and_eq_false_iff] at h
      rw [shift_seq, Marks.left_none, Marks.right_none, ihr h.1, live_none]
      rcases h.2 with hn | hs
      · rw [hn, Bool.and_false, shift_idle, Marks.join_none]
      · rw [ihs hs, Marks.join_none]
  | guarded r s ihr ihs =>
      simp only [first, Bool.or_eq_false_iff, Bool.and_eq_false_iff] at h
      rw [shift_guarded, Marks.left_none, Marks.right_none, ihr h.1, live_none, Bool.cond_self]
      rcases h.2 with hn | hs
      · rw [hn, Bool.and_false, shift_idle, Marks.join_none]
      · rw [ihs hs, Marks.join_none]
  | alt r s ihr ihs =>
      simp only [first, Bool.or_eq_false_iff] at h
      rw [shift_alt, Marks.left_none, Marks.right_none, ihr h.1, ihs h.2, Marks.join_none]
  | star r ih =>
      rw [shift_star, ih h]
  | enter a r ih => exact ih h
  | leave a r ih => exact ih h
  | finish a r ih => exact ih h

/-- On a symbol that it cannot read, a part runs what it runs when it is left. -/
theorem acts_of_shift_none (h : shift m r t c = .none) :
    acts m o r t (some c) = acts m o r t none := by
  induction r generalizing m o t with
  | eps => rfl
  | sym p => rfl
  | seq r s ihr ihs =>
      rw [shift_seq, Marks.join_eq_none] at h
      rw [acts_seq, acts_seq, ihs h.2, ihr h.1]
      congr 1
      cases hl : live m r t.left with
      | false => rw [acts_out_of_not_live hl, acts_out_of_not_live (o := _ || _) hl]
      | true =>
          rw [hl] at h
          have hf : first s c = false := by
            rw [← Bool.not_eq_true]
            exact fun hf => shift_ne_none_of_first hf h.2
          rw [starts_some, hf, starts_none]
  | guarded r s ihr ihs =>
      rw [shift_guarded, Marks.join_eq_none] at h
      have hg : (live m r t.left && first s c) = false := by
        rw [← Bool.not_eq_true, Bool.and_eq_true]
        rintro ⟨hl, hf⟩
        rw [hl] at h
        exact shift_ne_none_of_first hf h.2
      rw [hg] at h
      rw [acts_guarded, acts_guarded, ihs h.2, ihr h.1, starts_some, hg, starts_none, Bool.and_false]
  | alt r s ihr ihs =>
      rw [shift_alt, Marks.join_eq_none] at h
      rw [acts_alt, acts_alt, ihr h.1, ihs h.2]
  | star r ih =>
      rw [shift_star] at h
      rw [acts_star, acts_star, ih h]
      cases hm : m || final r t with
      | false =>
          have hl : live false r t = false := (Bool.or_eq_false_iff.mp hm).2
          rw [acts_out_of_not_live hl, acts_out_of_not_live (o := _ || _) hl]
      | true =>
          rw [hm] at h
          have hf : first r c = false := by
            rw [← Bool.not_eq_true]
            exact fun hf => shift_ne_none_of_first hf h
          rw [starts_some, hf, starts_none]
  | enter a r ih =>
      have hr : shift m r t c = .none := h
      rw [acts_enter, acts_enter, ih hr]
      congr 1
      cases m with
      | false => rfl
      | true =>
          have hf : first r c = false := by
            rw [← Bool.not_eq_true]
            exact fun hf => shift_ne_none_of_first hf hr
          rw [starts_some, hf, starts_none]
  | leave a r ih =>
      have hr : shift m r t c = .none := h
      rw [acts_leave, acts_leave, ih hr]
  | finish a r ih =>
      have hr : shift m r t c = .none := h
      rw [acts_finish, acts_finish_none, ih hr, hr, final_none, cond_false, List.append_nil]

/-! ### Symbols that an expression never reads -/

/-- No class of the expression has the symbol. -/
def avoids (c : σ) : Rx σ A → Bool
  | eps => true
  | sym p => !p c
  | seq r s => avoids c r && avoids c s
  | guarded r s => avoids c r && avoids c s
  | alt r s => avoids c r && avoids c s
  | star r => avoids c r
  | enter _ r => avoids c r
  | leave _ r => avoids c r
  | finish _ r => avoids c r

theorem shift_of_avoids (h : avoids c r = true) : shift m r t c = .none := by
  induction r generalizing m t with
  | eps => rfl
  | sym p =>
      have hp : p c = false := by simpa [avoids] using h
      rw [shift_sym, hp, Bool.and_false, cond_false]
  | seq r s ihr ihs =>
      rw [avoids, Bool.and_eq_true] at h
      rw [shift_seq, ihr h.1, ihs h.2, Marks.join_none]
  | guarded r s ihr ihs =>
      rw [avoids, Bool.and_eq_true] at h
      rw [shift_guarded, ihr h.1, ihs h.2, Bool.cond_self, Marks.join_none]
  | alt r s ihr ihs =>
      rw [avoids, Bool.and_eq_true] at h
      rw [shift_alt, ihr h.1, ihs h.2, Marks.join_none]
  | star r ih => exact ih h
  | enter a r ih => exact ih h
  | leave a r ih => exact ih h
  | finish a r ih => exact ih h

end

end Rx

end Lib
