import Mathlib

/-!
# `Lib.Apart`: things that are each in one place

Some places are shared, and their contents together are the list `shared`. A family of parties has
places of its own, with the contents `own i`. `Apart shared own` says that nothing is in two places
and nothing is twice in one.

`Apart.step` is the rule for a step of one party: it moves things between the shared places and its
own, and may bring in new ones. All it has to know is that the contents of these places together are
the same up to order.
-/

set_option autoImplicit false

namespace Lib

section
variable {ι β : Type*} {shared shared' : List β} {own own' : ι → List β}

/-- Nothing is in two places, and nothing is twice in one. -/
structure Apart (shared : List β) (own : ι → List β) : Prop where
  nodup : shared.Nodup
  nodup_append : ∀ i, (shared ++ own i).Nodup
  disjoint : ∀ i j, i ≠ j → (own i).Disjoint (own j)

theorem Apart.step (h : Apart shared own) {i : ι} {new : List β} (hnew : new.Nodup)
    (hfresh : ∀ b ∈ new, b ∉ shared ∧ ∀ j, b ∉ own j)
    (hperm : (new ++ (shared ++ own i)).Perm (shared' ++ own' i))
    (hrest : ∀ j, j ≠ i → own' j = own j) : Apart shared' own' := by
  have hi : (shared' ++ own' i).Nodup := by
    refine hperm.nodup_iff.mp (List.nodup_append.mpr ⟨hnew, h.nodup_append i, ?_⟩)
    rintro b hb c hc rfl
    rcases List.mem_append.mp hc with hc | hc
    · exact (hfresh b hb).1 hc
    · exact (hfresh b hb).2 i hc
  -- What the step has touched, no other party has.
  have hother : ∀ j, j ≠ i → (shared' ++ own' i).Disjoint (own j) := by
    intro j hj b hb hbj
    rcases List.mem_append.mp (hperm.mem_iff.mpr hb) with hb | hb
    · exact (hfresh b hb).2 j hbj
    · rcases List.mem_append.mp hb with hb | hb
      · exact List.disjoint_of_nodup_append (h.nodup_append j) hb hbj
      · exact h.disjoint i j (Ne.symm hj) hb hbj
  refine ⟨hi.of_append_left, ?_, ?_⟩
  · intro j
    by_cases hj : j = i
    · rw [hj]
      exact hi
    · rw [hrest j hj]
      refine List.Nodup.append hi.of_append_left (h.nodup_append j).of_append_right ?_
      exact fun b hb => hother j hj (List.mem_append_left _ hb)
  · intro j k hjk
    by_cases hj : j = i
    · have hk : k ≠ i := fun hk => hjk (hj.trans hk.symm)
      rw [hj, hrest k hk]
      exact fun b hb => hother k hk (List.mem_append_right _ hb)
    · rw [hrest j hj]
      by_cases hk : k = i
      · rw [hk]
        exact fun b hb hbi => hother j hj (List.mem_append_right _ hbi) hb
      · rw [hrest k hk]
        exact h.disjoint j k hjk

end

end Lib
