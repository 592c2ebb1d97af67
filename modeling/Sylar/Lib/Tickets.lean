import Mathlib

/-!
# `Lib.Tickets`: numbers that are issued, wait at one place, and are closed once

A system issues tickets with the numbers `0, 1, 2, …`. A ticket waits at a place, and is closed
when it leaves the place. `Tickets n pending done` says that the `n` tickets issued so far are
those that wait and those in the list `done`, that no ticket waits at two places, and that none is
closed twice. The two operations keep this: `issue` puts the next ticket on a place where none
waits, and `close` takes the ticket of a place away, if one waits there.
-/

set_option autoImplicit false

namespace Lib

section
variable {ι : Type*}

structure Tickets (n : Nat) (pending : ι → Option Nat) (done : List Nat) : Prop where
  once : done.Nodup
  all : ∀ c, c < n ↔ c ∈ done ∨ ∃ i, pending i = some c
  waits : ∀ i c, pending i = some c → c ∉ done
  apart : ∀ i j c, pending i = some c → pending j = some c → i = j

namespace Tickets

variable {n : Nat} {pending : ι → Option Nat} {done done' : List Nat}

theorem perm (h : Tickets n pending done) (hp : done.Perm done') : Tickets n pending done' where
  once := hp.nodup_iff.mp h.once
  all c := by rw [h.all c, hp.mem_iff]
  waits i c hi := fun hc => h.waits i c hi (hp.mem_iff.mpr hc)
  apart := h.apart

variable [DecidableEq ι]

theorem issue (h : Tickets n pending done) {i : ι} (hi : pending i = none) :
    Tickets (n + 1) (Function.update pending i (some n)) done := by
  have hne : ∀ {j c}, pending j = some c → j ≠ i := by
    rintro j c hj rfl
    rw [hi] at hj
    cases hj
  -- What waits was issued before.
  have hlt : ∀ {j c}, pending j = some c → c < n := fun hj => (h.all _).mpr (Or.inr ⟨_, hj⟩)
  have hcases : ∀ {j c}, Function.update pending i (some n) j = some c →
      j = i ∧ c = n ∨ j ≠ i ∧ pending j = some c := by
    intro j c hj
    by_cases hji : j = i
    · subst hji
      rw [Function.update_self] at hj
      exact Or.inl ⟨rfl, (Option.some.inj hj).symm⟩
    · rw [Function.update_of_ne hji] at hj
      exact Or.inr ⟨hji, hj⟩
  refine ⟨h.once, ?_, ?_, ?_⟩
  · intro c
    rw [Nat.lt_succ_iff_lt_or_eq]
    constructor
    · rintro (hc | rfl)
      · refine ((h.all c).mp hc).imp id ?_
        rintro ⟨j, hj⟩
        exact ⟨j, by rw [Function.update_of_ne (hne hj), hj]⟩
      · exact Or.inr ⟨i, Function.update_self ..⟩
    · rintro (hc | ⟨j, hj⟩)
      · exact Or.inl ((h.all c).mpr (Or.inl hc))
      · rcases hcases hj with ⟨-, rfl⟩ | ⟨-, hj⟩
        · exact Or.inr rfl
        · exact Or.inl (hlt hj)
  · intro j c hj hc
    rcases hcases hj with ⟨-, rfl⟩ | ⟨-, hj⟩
    · exact lt_irrefl _ ((h.all c).mpr (Or.inl hc))
    · exact h.waits j c hj hc
  · intro j k c hj hk
    rcases hcases hj with ⟨rfl, rfl⟩ | ⟨-, hj'⟩
    · rcases hcases hk with ⟨rfl, -⟩ | ⟨-, hk'⟩
      · rfl
      · exact absurd (hlt hk') (lt_irrefl _)
    · rcases hcases hk with ⟨rfl, rfl⟩ | ⟨-, hk'⟩
      · exact absurd (hlt hj') (lt_irrefl _)
      · exact h.apart j k c hj' hk'

theorem close (h : Tickets n pending done) (i : ι) :
    Tickets n (Function.update pending i none) (done ++ (pending i).toList) := by
  cases hi : pending i with
  | none =>
    rw [← hi, Function.update_eq_self, hi, Option.toList_none, List.append_nil]
    exact h
  | some d =>
    have hcases : ∀ {j c}, Function.update pending i none j = some c →
        j ≠ i ∧ pending j = some c := by
      intro j c hj
      by_cases hji : j = i
      · subst hji
        rw [Function.update_self] at hj
        cases hj
      · rw [Function.update_of_ne hji] at hj
        exact ⟨hji, hj⟩
    simp only [Option.toList_some]
    refine ⟨?_, ?_, ?_, ?_⟩
    · refine List.nodup_append.mpr ⟨h.once, List.nodup_singleton d, ?_⟩
      intro c hc e he
      rw [List.mem_singleton.mp he]
      rintro rfl
      exact h.waits i c hi hc
    · intro c
      rw [h.all c, List.mem_append, List.mem_singleton]
      constructor
      · rintro (hc | ⟨j, hj⟩)
        · exact Or.inl (Or.inl hc)
        · by_cases hji : j = i
          · subst hji
            exact Or.inl (Or.inr (Option.some.inj (hj.symm.trans hi)))
          · exact Or.inr ⟨j, by rw [Function.update_of_ne hji, hj]⟩
      · rintro ((hc | rfl) | ⟨j, hj⟩)
        · exact Or.inl hc
        · exact Or.inr ⟨i, hi⟩
        · exact Or.inr ⟨j, (hcases hj).2⟩
    · intro j c hj hc
      obtain ⟨hji, hj⟩ := hcases hj
      rcases List.mem_append.mp hc with hc | hc
      · exact h.waits j c hj hc
      · rw [List.mem_singleton.mp hc] at hj
        exact hji (h.apart j i d hj hi)
    · intro j k c hj hk
      exact h.apart j k c (hcases hj).2 (hcases hk).2

end Tickets

end

end Lib
