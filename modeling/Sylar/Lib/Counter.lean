import Mathlib

/-!
# `Lib.Counter`: counters and what they count

A counter is kept in step with the number of parties in a certain condition. `countOf p ws` is
that number, for a finite family `ws` of parties. `countOf_update` says how it moves when one
party changes: by that party alone. `totalOf` is the same with a weight in place of the condition.

`wrapPred` is the decrement of an unsigned word of 64 bits, which wraps at zero.
-/

set_option autoImplicit false

namespace Lib

/-- The decrement of an unsigned word of 64 bits. -/
def wrapPred (n : Nat) : Nat := if n = 0 then 2 ^ 64 - 1 else n - 1

theorem wrapPred_of_pos {n : Nat} (h : 0 < n) : wrapPred n = n - 1 := if_neg (by omega)

section
variable {ι α : Type*} [Fintype ι]

/-- The sum of a weight over all parties. -/
def totalOf (w : α → Nat) (ws : ι → α) : Nat := ∑ i, w (ws i)

/-- One party changes: the others weigh as before. -/
theorem totalOf_update [DecidableEq ι] (w : α → Nat) (ws : ι → α) (i : ι) (x : α) :
    totalOf w (Function.update ws i x) + w (ws i) = totalOf w ws + w x := by
  have hrest : ∑ j ∈ Finset.univ.erase i, w (Function.update ws i x j)
      = ∑ j ∈ Finset.univ.erase i, w (ws j) := by
    refine Finset.sum_congr rfl ?_
    intro j hj
    rw [Function.update_of_ne (Finset.ne_of_mem_erase hj)]
  have hnew := Finset.add_sum_erase Finset.univ
    (fun j => w (Function.update ws i x j)) (Finset.mem_univ i)
  have hold := Finset.add_sum_erase Finset.univ (fun j => w (ws j)) (Finset.mem_univ i)
  simp only [Function.update_self] at hnew
  unfold totalOf
  omega

theorem totalOf_eq_zero {w : α → Nat} {ws : ι → α} (h : ∀ i, w (ws i) = 0) : totalOf w ws = 0 := by
  refine Finset.sum_eq_zero ?_
  intro i _
  exact h i

/-- The number of parties with the property `p`. -/
def countOf (p : α → Bool) (ws : ι → α) : Nat := ∑ i, (p (ws i)).toNat

/-- One party changes: the others count as before. -/
theorem countOf_update [DecidableEq ι] (p : α → Bool) (ws : ι → α) (i : ι) (w : α) :
    countOf p (Function.update ws i w) + (p (ws i)).toNat = countOf p ws + (p w).toNat :=
  totalOf_update (fun x => (p x).toNat) ws i w

/-- The party counts as before. -/
theorem countOf_update_same [DecidableEq ι] {p : α → Bool} {ws : ι → α} {i : ι} {w : α}
    (h : p w = p (ws i)) : countOf p (Function.update ws i w) = countOf p ws := by
  have hcount := countOf_update p ws i w
  rw [h] at hcount
  omega

/-- The party gets the property. -/
theorem countOf_update_enter [DecidableEq ι] {p : α → Bool} {ws : ι → α} {i : ι} {w : α}
    (hold : p (ws i) = false) (hnew : p w = true) :
    countOf p (Function.update ws i w) = countOf p ws + 1 := by
  have hcount := countOf_update p ws i w
  simp only [hold, hnew, Bool.toNat_false, Bool.toNat_true] at hcount
  omega

/-- The party loses the property. It was counted, so the decrement does not wrap. -/
theorem countOf_update_leave [DecidableEq ι] {p : α → Bool} {ws : ι → α} {i : ι} {w : α}
    (hold : p (ws i) = true) (hnew : p w = false) :
    countOf p (Function.update ws i w) = wrapPred (countOf p ws) := by
  have hcount := countOf_update p ws i w
  simp only [hold, hnew, Bool.toNat_false, Bool.toNat_true] at hcount
  rw [wrapPred_of_pos (by omega)]
  omega

theorem countOf_eq_zero {p : α → Bool} {ws : ι → α} (h : ∀ i, p (ws i) = false) :
    countOf p ws = 0 := by
  refine totalOf_eq_zero ?_
  intro i
  rw [h i]
  rfl

/-- A party with the property makes the number positive. -/
theorem countOf_pos {p : α → Bool} {ws : ι → α} {i : ι} (h : p (ws i) = true) :
    0 < countOf p ws := by
  have hle := Finset.single_le_sum (f := fun j => (p (ws j)).toNat)
    (fun j _ => Nat.zero_le _) (Finset.mem_univ i)
  simp only [h] at hle
  exact hle

end

end Lib
