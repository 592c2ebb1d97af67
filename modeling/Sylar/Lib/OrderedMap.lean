import Mathlib

/-!
# `Lib.OrderedMap`: a map kept in the order of a view of its keys

`std::map` with a comparator that looks at a view `f` of the keys. Two keys with the same view are
one key to the map. The entries stand in the strict order of the views, and the order is a field
of the map, so a map with two entries for one key cannot be built.

`set` is `m[k] = v`: an entry that is there keeps its own spelling of the key. `find_set` is all
that a reader of the map needs to know about it.
-/

set_option autoImplicit false

namespace Lib

/-- A map from keys `κ` to values `β`, ordered by the view `f`. -/
structure OrderedMap {κ ν : Type} [LinearOrder ν] (f : κ → ν) (β : Type) where
  entries : List (κ × β)
  sorted : entries.Pairwise fun x y => f x.1 < f y.1

namespace OrderedMap

variable {κ ν β : Type} [LinearOrder ν] {f : κ → ν}

def empty : OrderedMap f β := ⟨[], List.Pairwise.nil⟩

/-- The entries after `m[k] = v`. -/
def setEntries (f : κ → ν) (k : κ) (v : β) : List (κ × β) → List (κ × β)
  | [] => [(k, v)]
  | e :: es =>
    if f e.1 < f k then e :: setEntries f k v es
    else if f k < f e.1 then (k, v) :: e :: es
    else (e.1, v) :: es

/-- The keys afterwards are the keys before and `k`. -/
theorem mem_setEntries {k : κ} {v : β} {es : List (κ × β)} {e : κ × β}
    (h : e ∈ setEntries f k v es) : f e.1 = f k ∨ ∃ e' ∈ es, e'.1 = e.1 := by
  induction es with
  | nil =>
      rw [setEntries, List.mem_singleton] at h
      exact Or.inl (by rw [h])
  | cons x es ih =>
      rw [setEntries] at h
      split at h
      · rcases List.mem_cons.mp h with rfl | h
        · exact Or.inr ⟨e, List.mem_cons_self .., rfl⟩
        · rcases ih h with h | ⟨e', he', heq⟩
          · exact Or.inl h
          · exact Or.inr ⟨e', List.mem_cons_of_mem _ he', heq⟩
      · split at h
        · rcases List.mem_cons.mp h with rfl | h
          · exact Or.inl rfl
          · exact Or.inr ⟨e, h, rfl⟩
        · rcases List.mem_cons.mp h with rfl | h
          · exact Or.inr ⟨x, List.mem_cons_self .., rfl⟩
          · exact Or.inr ⟨e, List.mem_cons_of_mem _ h, rfl⟩

theorem sorted_setEntries {k : κ} {v : β} {es : List (κ × β)}
    (h : es.Pairwise fun x y => f x.1 < f y.1) :
    (setEntries f k v es).Pairwise fun x y => f x.1 < f y.1 := by
  induction es with
  | nil => exact List.pairwise_singleton _ _
  | cons x es ih =>
      obtain ⟨hx, hes⟩ := List.pairwise_cons.mp h
      rw [setEntries]
      split
      next hlt =>
        refine List.pairwise_cons.mpr ⟨?_, ih hes⟩
        intro e he
        rcases mem_setEntries he with heq | ⟨e', he', heq⟩
        · rw [heq]
          exact hlt
        · rw [← heq]
          exact hx e' he'
      next hge =>
        split
        next hlt =>
          refine List.pairwise_cons.mpr ⟨?_, h⟩
          intro e he
          rcases List.mem_cons.mp he with rfl | he
          · exact hlt
          · exact lt_trans hlt (hx e he)
        next => exact List.pairwise_cons.mpr ⟨hx, hes⟩

/-- `m[k] = v`. -/
def set (m : OrderedMap f β) (k : κ) (v : β) : OrderedMap f β :=
  ⟨setEntries f k v m.entries, sorted_setEntries m.sorted⟩

/-- The value at a key. -/
def find (m : OrderedMap f β) (k : κ) : Option β :=
  (m.entries.find? fun e => decide (f e.1 = f k)).map Prod.snd

@[simp] theorem find_empty (k : κ) : (empty : OrderedMap f β).find k = none := rfl

theorem find_set (m : OrderedMap f β) (k k' : κ) (v : β) :
    (m.set k v).find k' = if f k' = f k then some v else m.find k' := by
  obtain ⟨es, hes⟩ := m
  simp only [find, set]
  induction es with
  | nil =>
      by_cases h : f k' = f k
      · simp [setEntries, h]
      · simp [setEntries, h, Ne.symm h]
  | cons x es ih =>
      have ih := ih (List.pairwise_cons.mp hes).2
      rw [setEntries]
      split
      next hlt =>
        by_cases hx : f x.1 = f k'
        · have hne : f k' ≠ f k := by
            rw [← hx]
            exact ne_of_lt hlt
          simp [hx, hne]
        · simp only [List.find?_cons, hx, decide_false]
          exact ih
      next hge =>
        split
        next hlt =>
          by_cases h : f k' = f k
          · simp [h]
          · simp [h, Ne.symm h]
        next hle =>
          -- The views agree, so the entry is replaced.
          have hxk : f x.1 = f k := le_antisymm (not_lt.mp hle) (not_lt.mp hge)
          by_cases h : f k' = f k
          · simp [hxk, h]
          · simp [hxk, Ne.symm h, h]

theorem find_eq_none {m : OrderedMap f β} {k : κ} (h : ∀ e ∈ m.entries, f e.1 ≠ f k) :
    m.find k = none := by
  rw [find, Option.map_eq_none_iff, List.find?_eq_none]
  exact fun e he hkey => h e he (of_decide_eq_true hkey)

/-- All entries of `m'`, set one after the other. -/
theorem find_foldl_set (m m' : OrderedMap f β) (k : κ) :
    (m'.entries.foldl (fun m e => m.set e.1 e.2) m).find k = (m'.find k).or (m.find k) := by
  obtain ⟨es, hes⟩ := m'
  simp only [find.eq_def ⟨es, hes⟩]
  induction es generalizing m with
  | nil => rfl
  | cons e es ih =>
      obtain ⟨hlt, hes⟩ := List.pairwise_cons.mp hes
      rw [List.foldl_cons, ih (m.set e.1 e.2) hes, find_set]
      by_cases hk : f e.1 = f k
      · -- No entry behind this one has the key.
        have hnone : es.find? (fun e => decide (f e.1 = f k)) = none := by
          refine List.find?_eq_none.mpr fun e' he' => ?_
          rw [decide_eq_true_eq, ← hk]
          exact (hlt e' he').ne'
        rw [hnone, if_pos hk.symm, List.find?_cons_of_pos (by rw [decide_eq_true_eq]; exact hk)]
        rfl
      · rw [if_neg (Ne.symm hk), List.find?_cons_of_neg (by rw [decide_eq_true_eq]; exact hk)]

end OrderedMap

end Lib
