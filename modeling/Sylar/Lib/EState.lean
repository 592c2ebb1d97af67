import Mathlib

/-!
# `Lib.EState`: sequencing in `EStateM`

`EStateM ε σ` returns a state with both of its results. These are the two ways a sequence
`x >>= f` goes on: with the value and the state that `x` returns, or not at all. At the end, the
same for loops in `Except`.
-/

set_option autoImplicit false

namespace Lib

section
variable {ε σ α β : Type}

theorem estate_bind_ok {x : EStateM ε σ α} {f : α → EStateM ε σ β} {s s' : σ} {a : α}
    (h : x s = .ok a s') : (x >>= f) s = f a s' := by
  show EStateM.bind x f s = f a s'
  unfold EStateM.bind
  rw [h]

theorem estate_bind_error {x : EStateM ε σ α} {f : α → EStateM ε σ β} {s s' : σ} {e : ε}
    (h : x s = .error e s') : (x >>= f) s = .error e s' := by
  show EStateM.bind x f s = .error e s'
  unfold EStateM.bind
  rw [h]

/-- A sequence that returns has gone through both of its parts. -/
theorem estate_of_bind_ok {x : EStateM ε σ α} {f : α → EStateM ε σ β} {s s'' : σ} {b : β}
    (h : (x >>= f) s = .ok b s'') : ∃ a s', x s = .ok a s' ∧ f a s' = .ok b s'' := by
  cases hx : x s with
  | error e s' =>
      rw [estate_bind_error hx] at h
      cases h
  | ok a s' =>
      rw [estate_bind_ok hx] at h
      exact ⟨a, s', rfl, h⟩

@[simp] theorem estate_get (s : σ) : (get : EStateM ε σ σ) s = .ok s s := rfl

/-! ### Pre- and postconditions -/

/-- From each state with `P` the program returns a value and a state with `Q`, or throws in a state
with `E`. -/
structure Meets (P : σ → Prop) (x : EStateM ε σ α) (Q : α → σ → Prop) (E : σ → Prop) : Prop where
  ok {s s' : σ} {a : α} (hs : P s) (h : x s = .ok a s') : Q a s'
  error {s s' : σ} {e : ε} (hs : P s) (h : x s = .error e s') : E s'

/-- `I` holds before and behind the program, and the value has `R`. -/
abbrev Preserves (I : σ → Prop) (x : EStateM ε σ α) (R : α → Prop) : Prop :=
  Meets I x (fun a s => I s ∧ R a) I

variable {P P' I E E' : σ → Prop} {Q Q' : α → σ → Prop} {R R' : α → Prop}

theorem Meets.pure {a : α} (h : ∀ s, P s → Q a s) : Meets P (Pure.pure a : EStateM ε σ α) Q E where
  ok hs hrun := by
    cases hrun
    exact h _ hs
  error _ hrun := nomatch hrun

theorem Meets.throw (e : ε) (h : ∀ s, P s → E s) :
    Meets P (MonadExcept.throw e : EStateM ε σ α) Q E where
  ok _ hrun := nomatch hrun
  error hs hrun := by
    cases hrun
    exact h _ hs

theorem Meets.modify {g : σ → σ} {Q : PUnit → σ → Prop} (h : ∀ s, P s → Q ⟨⟩ (g s)) :
    Meets P (modifyThe σ g : EStateM ε σ PUnit) Q E where
  ok hs hrun := by
    cases hrun
    exact h _ hs
  error _ hrun := nomatch hrun

theorem Meets.bind {x : EStateM ε σ α} {f : α → EStateM ε σ β} {Q' : β → σ → Prop}
    (hx : Meets P x Q E) (hf : ∀ a, Meets (Q a) (f a) Q' E) : Meets P (x >>= f) Q' E where
  ok {s s'' b} hs hrun := by
    obtain ⟨a, s', hrun₁, hrun₂⟩ := estate_of_bind_ok hrun
    exact (hf a).ok (hx.ok hs hrun₁) hrun₂
  error {s s'' e} hs hrun := by
    cases hx' : x s with
    | error e' s' =>
        rw [estate_bind_error hx'] at hrun
        cases hrun
        exact hx.error hs hx'
    | ok a s' =>
        rw [estate_bind_ok hx'] at hrun
        exact (hf a).error (hx.ok hs hx') hrun

theorem Meets.mono {x : EStateM ε σ α} (h : Meets P x Q E) (hP : ∀ s, P' s → P s)
    (hQ : ∀ a s, Q a s → Q' a s) (hE : ∀ s, E s → E' s) : Meets P' x Q' E' where
  ok hs hrun := hQ _ _ (h.ok (hP _ hs) hrun)
  error hs hrun := hE _ (h.error (hP _ hs) hrun)

/-- A fact that does not speak about the state is a hypothesis. -/
theorem Meets.assume {x : EStateM ε σ α} {p : Prop} (h : p → Meets P x Q E) :
    Meets (fun s => P s ∧ p) x Q E where
  ok hs hrun := (h hs.2).ok hs.1 hrun
  error hs hrun := (h hs.2).error hs.1 hrun

theorem Preserves.pure {a : α} (h : R a) : Preserves I (Pure.pure a : EStateM ε σ α) R :=
  Meets.pure fun _ hs => ⟨hs, h⟩

theorem Preserves.throw (e : ε) : Preserves I (MonadExcept.throw e : EStateM ε σ α) R :=
  Meets.throw e fun _ hs => hs

theorem Preserves.bind {x : EStateM ε σ α} {f : α → EStateM ε σ β} {R' : β → Prop}
    (hx : Preserves I x R) (hf : ∀ a, R a → Preserves I (f a) R') : Preserves I (x >>= f) R' :=
  Meets.bind hx fun a => Meets.assume (hf a)

theorem Preserves.mono {x : EStateM ε σ α} (h : Preserves I x R) (hR : ∀ a, R a → R' a) :
    Preserves I x R' :=
  Meets.mono h (fun _ hs => hs) (fun a _ hs => ⟨hs.1, hR a hs.2⟩) fun _ hs => hs

end

/-- The same for `Except`, whose sequences are the bodies of the copy loops. -/
@[simp] theorem except_ok_bind {ε α β : Type} (a : α) (f : α → Except ε β) :
    ((Except.ok a : Except ε α) >>= f) = f a := rfl

section
variable {ε σ α : Type} {f : σ → α → Except ε σ}

/-- A loop that ends well has gone well at each element. -/
theorem ok_of_foldlM_ok {xs : List α} {s t : σ} (h : xs.foldlM f s = .ok t) :
    ∀ x ∈ xs, ∃ s' t', f s' x = .ok t' := by
  induction xs generalizing s with
  | nil => exact fun _ hx => nomatch hx
  | cons y xs ih =>
      rw [List.foldlM_cons] at h
      cases hy : f s y with
      | error e =>
          rw [hy] at h
          cases h
      | ok s' =>
          rw [hy, except_ok_bind] at h
          intro x hx
          rcases List.mem_cons.mp hx with rfl | hx
          · exact ⟨s, s', hy⟩
          · exact ih h x hx

/-- A loop that goes well at each element is a loop without errors. -/
theorem foldlM_eq_ok {g : σ → α → σ} {xs : List α} (h : ∀ x ∈ xs, ∀ s, f s x = .ok (g s x))
    (s : σ) : xs.foldlM f s = .ok (xs.foldl g s) := by
  induction xs generalizing s with
  | nil => rfl
  | cons y xs ih =>
      rw [List.foldlM_cons, h y List.mem_cons_self s, except_ok_bind, List.foldl_cons]
      exact ih (fun x hx => h x (List.mem_cons_of_mem y hx)) (g s y)

/-- The same for a loop that collects its results. -/
theorem mapM_map_eq_ok {β γ : Type} {f : β → Except ε γ} {g : α → β} {h : α → γ} {xs : List α}
    (heach : ∀ x ∈ xs, f (g x) = .ok (h x)) : (xs.map g).mapM f = .ok (xs.map h) := by
  induction xs with
  | nil => rfl
  | cons x xs ih =>
      rw [List.map_cons, List.mapM_cons, heach x List.mem_cons_self,
        ih fun y hy => heach y (List.mem_cons_of_mem x hy)]
      rfl

end

end Lib
