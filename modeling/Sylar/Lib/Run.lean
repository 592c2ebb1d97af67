import Mathlib

/-!
# `Lib.Run`: runs of a partial step function

A system is a step function `step : σ → α → Option σ`. The action says who moves and what the
environment answers, and `none` says that the action is not enabled. A run is a list of actions.
`exec` follows it, and stops at the first action that is not enabled.

`Guarded step g s as` says that each action of the run meets the condition `g` in the state it is
taken from. It is the form in which a condition on the steps of a run enters a theorem.

`exec_invariant` is the one induction over runs: a property that holds at the start, and that each
guarded step keeps, holds in every state that a guarded run reaches. `exec_invariant_of_step` is
the same rule for all runs. When the condition is exactly what a step needs to keep the property,
the guarded runs are those that have it in every state (`guarded_iff_forall_states`).
-/

set_option autoImplicit false

namespace Lib

/-- The threads of a system with two of them. -/
def thread0 : Fin 2 := ⟨0, Nat.two_pos⟩

def thread1 : Fin 2 := ⟨1, Nat.one_lt_two⟩

section
variable {σ α : Type*} (step : σ → α → Option σ)

/-- The state that a list of actions leads to, or `none` when one of them is not enabled. -/
def exec : σ → List α → Option σ
  | s, [] => some s
  | s, a :: as =>
    match step s a with
    | none => none
    | some s' => exec s' as

/-- Each action of the run meets `g` in the state it is taken from. Actions after one that is
not enabled are not looked at. -/
def Guarded (g : σ → α → Prop) : σ → List α → Prop
  | _, [] => True
  | s, a :: as => g s a ∧
    match step s a with
    | none => True
    | some s' => Guarded g s' as

/-- A condition that can be decided step by step can be decided for a run. -/
instance decidableGuarded {g : σ → α → Prop} [∀ s a, Decidable (g s a)] :
    ∀ (s : σ) (as : List α), Decidable (Guarded step g s as)
  | _, [] => isTrue trivial
  | s, a :: as =>
    @instDecidableAnd (g s a) _ inferInstance
      (match step s a with
      | none => isTrue trivial
      | some s' => decidableGuarded s' as)

@[simp] theorem exec_nil (s : σ) : exec step s [] = some s := rfl

theorem exec_cons_eq_some {s s' : σ} {a : α} {as : List α} :
    exec step s (a :: as) = some s' ↔
      ∃ t, step s a = some t ∧ exec step t as = some s' := by
  simp only [exec]
  cases step s a with
  | none => simp
  | some t => simp

variable {step}

/-- The invariant rule for guarded runs. -/
theorem exec_invariant {g : σ → α → Prop} {I : σ → Prop}
    (hstep : ∀ s a s', I s → g s a → step s a = some s' → I s') :
    ∀ (as : List α) (s s' : σ), I s → Guarded step g s as →
      exec step s as = some s' → I s' := by
  intro as
  induction as with
  | nil =>
      intro s s' hs _ h
      rw [exec_nil, Option.some.injEq] at h
      exact h ▸ hs
  | cons a as ih =>
      intro s s' hs hg h
      obtain ⟨t, ht, hrest⟩ := (exec_cons_eq_some step).mp h
      simp only [Guarded, ht] at hg
      exact ih t s' (hstep s a t hs hg.1 ht) hg.2 hrest

/-- The invariant rule for all runs. -/
theorem exec_invariant_of_step {I : σ → Prop}
    (hstep : ∀ s a s', I s → step s a = some s' → I s') :
    ∀ (as : List α) (s s' : σ), I s → exec step s as = some s' → I s' := by
  intro as
  induction as with
  | nil =>
      intro s s' hs h
      rw [exec_nil, Option.some.injEq] at h
      exact h ▸ hs
  | cons a as ih =>
      intro s s' hs h
      obtain ⟨t, ht, hrest⟩ := (exec_cons_eq_some step).mp h
      exact ih t s' (hstep s a t hs ht) hrest

/-- A run is guarded if and only if each of its states has the property, when a step keeps the
property exactly under the condition. -/
theorem guarded_iff_forall_states {g : σ → α → Prop} {I : σ → Prop}
    (hstep : ∀ s a s', I s → step s a = some s' → (g s a ↔ I s'))
    (hnone : ∀ s a, step s a = none → g s a) :
    ∀ (as : List α) (s : σ), I s →
      (Guarded step g s as ↔ ∀ bs s', bs <+: as → exec step s bs = some s' → I s') := by
  intro as
  induction as with
  | nil =>
      intro s hs
      refine iff_of_true trivial fun bs s' hbs h => ?_
      rw [List.prefix_nil.mp hbs, exec_nil, Option.some.injEq] at h
      exact h ▸ hs
  | cons a as ih =>
      intro s hs
      cases ht : step s a with
      | none =>
          simp only [Guarded, ht, and_true]
          refine iff_of_true (hnone s a ht) fun bs s' hbs h => ?_
          rcases List.prefix_cons_iff.mp hbs with rfl | ⟨bs, rfl, -⟩
          · rw [exec_nil, Option.some.injEq] at h
            exact h ▸ hs
          · obtain ⟨t, ht', -⟩ := (exec_cons_eq_some step).mp h
            rw [ht] at ht'
            cases ht'
      | some t =>
          simp only [Guarded, ht]
          constructor
          · rintro ⟨hga, hg⟩ bs s' hbs h
            rcases List.prefix_cons_iff.mp hbs with rfl | ⟨bs, rfl, hpre⟩
            · rw [exec_nil, Option.some.injEq] at h
              exact h ▸ hs
            · obtain ⟨t', ht', hrest⟩ := (exec_cons_eq_some step).mp h
              obtain rfl : t = t' := Option.some.inj (ht.symm.trans ht')
              exact (ih t ((hstep s a t hs ht).mp hga)).mp hg bs s' hpre hrest
          · intro h
            -- The state after the first action is one of the states.
            have htI : I t := h [a] t (List.prefix_cons_inj a |>.mpr List.nil_prefix)
              ((exec_cons_eq_some step).mpr ⟨t, ht, rfl⟩)
            refine ⟨(hstep s a t hs ht).mpr htI, (ih t htI).mpr fun bs s' hbs hrest => ?_⟩
            exact h (a :: bs) s' ((List.prefix_cons_inj a).mpr hbs)
              ((exec_cons_eq_some step).mpr ⟨t, ht, hrest⟩)

end

end Lib
