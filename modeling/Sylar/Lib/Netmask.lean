import Mathlib

/-!
# `Lib.Netmask`: the top bits of a word

`netmask w p` is the word of `w` bits whose top `p` bits are 1. `network a p` keeps the top `p` bits
of `a` and clears the others, and `broadcast a p` sets the others. They are the least and the
greatest of the words that have the top `p` bits of `a`.
-/

set_option autoImplicit false

namespace Lib

/-- The word whose top `p` bits are 1 and the others 0. -/
def netmask (w p : Nat) : BitVec w := BitVec.allOnes w <<< (w - p)

section
variable {w : Nat}

/-- The top `p` bits of `a`, with zeros behind them. -/
def network (a : BitVec w) (p : Nat) : BitVec w := a &&& netmask w p

/-- The top `p` bits of `a`, with ones behind them. -/
def broadcast (a : BitVec w) (p : Nat) : BitVec w := a ||| ~~~netmask w p

/-- The bits of `a` behind the top `p`, with zeros in front of them. -/
def hostPart (a : BitVec w) (p : Nat) : BitVec w := a &&& ~~~netmask w p

/-- The words have the same top `p` bits. -/
def SameTop (p : Nat) (a b : BitVec w) : Prop := ∀ i, w - p ≤ i → i < w → a.getLsbD i = b.getLsbD i

variable (a b : BitVec w) (p : Nat)

theorem getLsbD_netmask (i : Nat) : (netmask w p).getLsbD i = decide (w - p ≤ i ∧ i < w) := by
  rw [netmask, BitVec.getLsbD_shiftLeft, BitVec.getLsbD_allOnes]
  by_cases hi : i < w
  · by_cases hp : w - p ≤ i
    · simp [hi, hp, Nat.lt_of_le_of_lt (Nat.sub_le i (w - p)) hi, Nat.not_lt.mpr hp]
    · simp [hi, hp, Nat.lt_of_not_le hp]
  · simp [hi]

theorem getLsbD_network (i : Nat) :
    (network a p).getLsbD i = (a.getLsbD i && decide (w - p ≤ i)) := by
  rw [network, BitVec.getLsbD_and, getLsbD_netmask]
  by_cases hi : i < w
  · simp [hi]
  · simp [BitVec.getLsbD_of_ge a i (Nat.le_of_not_lt hi)]

theorem getLsbD_broadcast {i : Nat} (hi : i < w) :
    (broadcast a p).getLsbD i = (a.getLsbD i || decide (i < w - p)) := by
  rw [broadcast, BitVec.getLsbD_or, BitVec.getLsbD_not, getLsbD_netmask]
  by_cases hp : w - p ≤ i
  · simp [hi, hp, Nat.not_lt.mpr hp]
  · simp [hi, hp, Nat.lt_of_not_le hp]

theorem getLsbD_hostPart (i : Nat) :
    (hostPart a p).getLsbD i = (a.getLsbD i && decide (i < w - p)) := by
  rw [hostPart, BitVec.getLsbD_and, BitVec.getLsbD_not, getLsbD_netmask]
  by_cases hi : i < w
  · by_cases hp : w - p ≤ i
    · simp [hi, hp, Nat.not_lt.mpr hp]
    · simp [hi, hp, Nat.lt_of_not_le hp]
  · simp [BitVec.getLsbD_of_ge a i (Nat.le_of_not_lt hi)]

/-- The two parts of a word have no bit in common. -/
theorem hostPart_eq_network_iff : hostPart a p = network a p ↔ a = 0#w := by
  constructor
  · intro h
    refine BitVec.eq_of_getLsbD_eq fun i _ => ?_
    have hbit := congrArg (fun b => b.getLsbD i) h
    simp only [getLsbD_hostPart, getLsbD_network] at hbit
    rw [BitVec.getLsbD_zero]
    by_cases hp : w - p ≤ i
    · simpa [hp, Nat.not_lt.mpr hp] using hbit.symm
    · simpa [hp, Nat.lt_of_not_le hp] using hbit
  · rintro rfl
    rw [hostPart, network, BitVec.zero_and, BitVec.zero_and]

theorem network_le : network a p ≤ a := by
  rw [BitVec.le_def, network, BitVec.toNat_and]
  exact Nat.and_le_left

theorem le_broadcast : a ≤ broadcast a p := by
  rw [BitVec.le_def, broadcast, BitVec.toNat_or]
  exact Nat.left_le_or

theorem network_network : network (network a p) p = network a p := by
  rw [network, network, BitVec.and_assoc, BitVec.and_self]

theorem broadcast_broadcast : broadcast (broadcast a p) p = broadcast a p := by
  rw [broadcast, broadcast, BitVec.or_assoc, BitVec.or_self]

variable {a b p}

theorem network_congr (h : SameTop p a b) : network a p = network b p := by
  refine BitVec.eq_of_getLsbD_eq fun i hi => ?_
  rw [getLsbD_network, getLsbD_network]
  by_cases hp : w - p ≤ i
  · rw [h i hp hi]
  · simp [hp]

theorem broadcast_congr (h : SameTop p a b) : broadcast a p = broadcast b p := by
  refine BitVec.eq_of_getLsbD_eq fun i hi => ?_
  rw [getLsbD_broadcast a p hi, getLsbD_broadcast b p hi]
  by_cases hp : w - p ≤ i
  · rw [h i hp hi]
  · simp [Nat.lt_of_not_le hp]

end

/-! ### Functions that compute the words -/

section
variable {α γ : Type} {w : Nat}

/-- `op` returns `ret s` for a value `s`. It returns `s` again for `s`, and a value with the number of
`s` for every value with `P` and the same top `p` bits. -/
def Settles (num : α → BitVec w) (op ret : α → γ) (P : α → Prop) (p : Nat) (a : α) : Prop :=
  ∃ s, op a = ret s ∧ op s = ret s ∧
    ∀ a', P a' → SameTop p (num a) (num a') → ∃ s', op a' = ret s' ∧ num s' = num s

/-- A function that computes an idempotent `f` of the top bits settles, and its results are ordered as
those of `f` are. `rest` is what a value is apart from its number. -/
theorem settles_of_exact {β : Type} {num : α → BitVec w} {op ret : α → γ} {P : α → Prop} {p : Nat}
    {f : BitVec w → BitVec w} {rest : α → β} {R : BitVec w → BitVec w → Prop}
    (hidem : ∀ x, f (f x) = f x) (hcongr : ∀ x y, SameTop p x y → f x = f y) (hR : ∀ x, R x (f x))
    (hret : Function.Injective ret) (hinj : ∀ a b, num a = num b → rest a = rest b → a = b)
    (hexact : ∀ a, P a → ∃ s, op a = ret s ∧ num s = f (num a) ∧ rest s = rest a ∧ P s)
    {a : α} (ha : P a) :
    Settles num op ret P p a ∧ ∀ s, op a = ret s → R (num a) (num s) := by
  obtain ⟨s, hrun, hnum, -, hs⟩ := hexact a ha
  obtain ⟨t, hrun', hnum', hrest, -⟩ := hexact s hs
  have hsame : t = s := by
    refine hinj t s ?_ hrest
    rw [hnum', hnum, hidem]
  rw [hsame] at hrun'
  refine ⟨⟨s, hrun, hrun', fun a' ha' htop => ?_⟩, fun s' hs' => ?_⟩
  · obtain ⟨s', hrun'', hnum'', -⟩ := hexact a' ha'
    exact ⟨s', hrun'', by rw [hnum'', hnum, hcongr _ _ htop]⟩
  · rw [← hret (hrun.symm.trans hs'), hnum]
    exact hR _

end

end Lib
