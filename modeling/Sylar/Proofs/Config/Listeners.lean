import Sylar.Spec.ConfigVar

/-!
# `Sylar.Proofs.Config.Listeners`: when the listeners agree with the stored value

Two calls of `setValue` that are both between their sections have told the listeners their values in
one order, and may assign them in the other. `alone` is the condition that a call that finds a new
value finds no other call between its sections. In a run of such steps the listeners agree with the
stored value.
-/

set_option autoImplicit false

namespace Sylar.ConfigVar

open Lib

section
variable {T : Type} {n : Nat} {x x' : Var T n}

/-- A `setValue` with a new value starts while no other one is between its sections. -/
def alone (x : Var T n) : Action T n → Prop
  | .setValue _ v => v ≠ x.val → ∀ t, x.pc t = .idle
  | _ => True

instance [DecidableEq T] (x : Var T n) : (a : Action T n) → Decidable (alone x a)
  | .setValue _ v => inferInstanceAs (Decidable (v ≠ x.val → ∀ t, x.pc t = .idle))
  | .commit _ | .addListener _ | .delListener _ | .clearListeners => isTrue trivial

/-- The early listeners were last called with `v`. -/
def Heard (x : Var T n) (v : T) : Prop :=
  x.started = true → ∀ l ∈ x.cbs, l.early = true → lastNew x.notes l.key = some v

/-- The value that the listeners have heard is stored, or the one call in progress will store it. -/
structure Told (x : Var T n) : Prop where
  old : ∀ c ∈ x.changes, c.oldValue = c.stored
  heard : ((∀ t, x.pc t = .idle) ∧ Heard x x.val) ∨
    ∃ t v, x.pc t = .committing x.val v ∧ (∀ t', t' ≠ t → x.pc t' = .idle) ∧ Heard x v

theorem Told.agree (h : Told x) : ListenersAgree x where
  latest := by
    intro hidle
    rcases h.heard with ⟨-, hheard⟩ | ⟨t, v, hpc, -, -⟩
    · exact hheard
    · rw [hidle t] at hpc
      cases hpc
  old := h.old

/-- A listener that is called is called with the new value. -/
theorem lastNew_notify {l : Listener} (hl : l ∈ x.cbs) (v : T) :
    lastNew (notify x v) l.key = some v := by
  have hmem : ∀ c ∈ (x.cbs.map fun l => Note.mk l.key x.val v).reverse, c.newValue = v := by
    intro c hc
    rw [List.mem_reverse, List.mem_map] at hc
    obtain ⟨l', -, rfl⟩ := hc
    rfl
  have hfound : ((x.cbs.map fun l => Note.mk l.key x.val v).reverse.find?
      fun c => c.listener == l.key).isSome := by
    rw [List.find?_isSome]
    refine ⟨⟨l.key, x.val, v⟩, ?_, by simp⟩
    rw [List.mem_reverse]
    exact List.mem_map_of_mem hl
  obtain ⟨c, hc⟩ := Option.isSome_iff_exists.mp hfound
  rw [lastNew, notify, List.find?_append, hc]
  exact congrArg some (hmem c (List.mem_of_find?_eq_some hc))

/-- The two sections of one thread do not overlap those of another. -/
theorem update_idle_of_ne {t t' : Fin n} {pc : Pc T} (h : ∀ t', t' ≠ t → x.pc t' = .idle)
    (ht' : t' ≠ t) : Function.update x.pc t pc t' = .idle := by
  rw [Function.update_of_ne ht']
  exact h t' ht'

theorem told_setValue {t : Fin n} {v : T} (h : Told x) (hidle : ∀ t, x.pc t = .idle) :
    Told { x with
      started := true
      notes := notify x v
      pc := Function.update x.pc t (.committing x.val v) } where
  old := h.old
  heard := by
    refine Or.inr ⟨t, v, Function.update_self .., ?_, ?_⟩
    · intro t' ht'
      exact update_idle_of_ne (fun t _ => hidle t) ht'
    · intro _ l hl _
      exact lastNew_notify (x := x) hl v

theorem told_commit {t : Fin n} {old v : T} (h : Told x) (hpc : x.pc t = .committing old v) :
    Told { x with
      val := v
      changes := ⟨x.val, old, v⟩ :: x.changes
      pc := Function.update x.pc t .idle } := by
  rcases h.heard with ⟨hidle, -⟩ | ⟨u, w, hu, hothers, hheard⟩
  · rw [hidle t] at hpc
    cases hpc
  · -- The thread is the one that the invariant speaks about.
    obtain rfl : t = u := by
      by_contra hne
      rw [hothers t hne] at hpc
      cases hpc
    rw [hu] at hpc
    cases hpc
    refine ⟨?_, Or.inl ⟨?_, hheard⟩⟩
    · intro c hc
      rcases List.mem_cons.mp hc with rfl | hc
      · rfl
      · exact h.old c hc
    · intro t'
      by_cases ht' : t' = t
      · rw [ht']
        exact Function.update_self ..
      · exact update_idle_of_ne hothers ht'

/-- The listeners that stay, and new ones that come late or before the first change. -/
theorem told_listeners {cbs : List Listener} {lastKey : Nat} (h : Told x)
    (hcbs : x.started = true → ∀ l ∈ cbs, l.early = true → l ∈ x.cbs) :
    Told { x with cbs := cbs, lastKey := lastKey } where
  old := h.old
  heard := by
    have hkeep : ∀ v, Heard x v → Heard { x with cbs := cbs, lastKey := lastKey } v := by
      intro v hheard hstarted l hl hearly
      exact hheard hstarted l (hcbs hstarted l hl hearly) hearly
    rcases h.heard with ⟨hidle, hheard⟩ | ⟨t, v, hpc, hothers, hheard⟩
    · exact Or.inl ⟨hidle, hkeep _ hheard⟩
    · exact Or.inr ⟨t, v, hpc, hothers, hkeep _ hheard⟩

theorem told_new (defaultValue : T) : Told (new n defaultValue) where
  old := fun _ hc => nomatch hc
  heard := Or.inl ⟨fun _ => rfl, fun hstarted => nomatch hstarted⟩

variable [DecidableEq T]

theorem told_step {a : Action T n} (h : Told x) (ha : alone x a) (hstep : step x a = some x') :
    Told x' := by
  cases a with
  | setValue t v =>
      simp only [step] at hstep
      split at hstep
      · cases hstep
      · split at hstep
        next =>
          cases hstep
          exact h
        next hne =>
          cases hstep
          exact told_setValue h (ha hne)
  | commit t =>
      simp only [step] at hstep
      split at hstep
      · cases hstep
      next old v hpc =>
        cases hstep
        exact told_commit h hpc
  | addListener key =>
      simp only [step] at hstep
      split at hstep
      · cases hstep
        refine told_listeners h ?_
        intro hstarted l hl hearly
        rcases List.mem_append.mp hl with hl | hl
        · exact hl
        · rw [List.mem_singleton.mp hl] at hearly
          simp [hstarted] at hearly
      · cases hstep
  | delListener key =>
      cases hstep
      exact told_listeners h fun _ l hl _ => (List.mem_filter.mp hl).1
  | clearListeners =>
      cases hstep
      exact told_listeners h fun _ l hl _ => nomatch hl

/-- In a run in which no `setValue` finds a new value while another one is between its sections, the
listeners agree with the stored value in every state. -/
theorem listenersAgree_of_alone (n : Nat) (defaultValue : T) (as : List (Action T n))
    (x : Var T n) (hg : Guarded step alone (new n defaultValue) as)
    (hrun : exec step (new n defaultValue) as = some x) : ListenersAgree x :=
  (exec_invariant (fun _ _ _ h ha hstep => told_step h ha hstep) as _ _
    (told_new defaultValue) hg hrun).agree

end

/-- Two changes, one after the other, and a listener that comes between them. -/
def orderlyRun : List (Action Nat 2) :=
  [.addListener 1, .setValue 0 5, .addListener 2, .commit 0, .setValue 1 6, .setValue 0 5,
    .commit 1]

theorem listenersAgree_orderlyRun :
    ∃ x, exec step (new 2 0) orderlyRun = some x ∧ ListenersAgree x ∧ x.val = 6 := by
  obtain ⟨x, hx⟩ : ∃ x, exec step (new 2 0) orderlyRun = some x := ⟨_, rfl⟩
  refine ⟨x, hx, listenersAgree_of_alone 2 0 orderlyRun x (by decide +kernel) hx, ?_⟩
  cases hx
  rfl

/-- Two threads find a new value, and assign in the other order. The listener has heard 2, the
variable has 1, and the second assignment replaces a value that its listeners were not told. -/
def crossedRun : List (Action Nat 2) :=
  [.addListener 1, .setValue 0 1, .setValue 1 2, .commit 1, .commit 0]

theorem not_listenersAgree_crossedRun :
    ∃ x, exec step (new 2 0) crossedRun = some x ∧ (∀ t, x.pc t = .idle) ∧
      x.val = 1 ∧ lastNew x.notes 1 = some 2 ∧ ¬ ListenersAgree x := by
  refine ⟨_, rfl, by decide, rfl, rfl, ?_⟩
  intro h
  have hlatest := h.latest (by decide) rfl ⟨1, true⟩ (List.mem_singleton_self _) rfl
  revert hlatest
  decide

end Sylar.ConfigVar
