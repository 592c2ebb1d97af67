import Mathlib

/-!
# `Lib.Exclusive`: things with at most one holder

A family of parties `ws` may hold things. `Exclusive holds ws` says that no thing is held by two of
them. `Exclusive.step` is the rule for a step: what a party holds afterwards it held before, or
nobody else holds it afterwards.
-/

set_option autoImplicit false

namespace Lib

section
variable {ι α β : Type*} {holds : α → β → Prop} {ws ws' : ι → α}

/-- Nothing is held by two parties. -/
def Exclusive (holds : α → β → Prop) (ws : ι → α) : Prop :=
  ∀ i j b, holds (ws i) b → holds (ws j) b → i = j

/-- What one party holds, no other does. -/
theorem Exclusive.free (h : Exclusive holds ws) {i j : ι} {b : β} (hi : holds (ws i) b)
    (hne : j ≠ i) : ¬ holds (ws j) b := fun hj => hne (h j i b hj hi)

/-- A step. -/
theorem Exclusive.step (h : Exclusive holds ws)
    (hstep : ∀ i b, holds (ws' i) b →
      holds (ws i) b ∨ ∀ j, j ≠ i → ¬ holds (ws' j) b) : Exclusive holds ws' := by
  intro i j b hi hj
  by_contra hne
  -- Neither of the two can be new to the thing, so both held it before.
  rcases hstep i b hi with hold | hnew
  · rcases hstep j b hj with hold' | hnew'
    · exact hne (h i j b hold hold')
    · exact hnew' i hne hi
  · exact hnew j (fun heq => hne heq.symm) hj

end

end Lib
