import Mathlib

/-!
# `Lib.KeyedSet`: a set kept in the order of a key of its elements

`std::set` with a comparator that looks at a key `f` of the elements. Two elements with the same key
are one element to the set, which keeps the first. The elements stand in the strict order of their
keys, and the order is a field of the set.

`foldl_insert_eq` says that inserting the elements of such a list one after the other builds the list
again.
-/

set_option autoImplicit false

namespace Lib

/-- A set of elements `α`, ordered by the key `f`. -/
@[ext] structure KeyedSet {α ν : Type} [LinearOrder ν] (f : α → ν) where
  elems : List α
  sorted : elems.Pairwise fun x y => f x < f y

namespace KeyedSet

variable {α ν : Type} [LinearOrder ν] {f : α → ν}

def empty : KeyedSet f := ⟨[], List.Pairwise.nil⟩

/-- The elements after `insert(x)`. -/
def insertElem (f : α → ν) (x : α) : List α → List α
  | [] => [x]
  | y :: ys =>
    if f y < f x then y :: insertElem f x ys
    else if f x < f y then x :: y :: ys
    else y :: ys

theorem mem_insertElem {x y : α} {ys : List α} (h : y ∈ insertElem f x ys) : y = x ∨ y ∈ ys := by
  induction ys with
  | nil => exact Or.inl (List.mem_singleton.mp h)
  | cons z ys ih =>
      rw [insertElem] at h
      split at h
      · rcases List.mem_cons.mp h with rfl | h
        · exact Or.inr List.mem_cons_self
        · exact (ih h).imp id (List.mem_cons_of_mem z)
      · split at h
        · exact List.mem_cons.mp h
        · exact Or.inr h

theorem sorted_insertElem {x : α} {ys : List α} (h : ys.Pairwise fun x y => f x < f y) :
    (insertElem f x ys).Pairwise fun x y => f x < f y := by
  induction ys with
  | nil => exact List.pairwise_singleton _ _
  | cons z ys ih =>
      obtain ⟨hz, hys⟩ := List.pairwise_cons.mp h
      rw [insertElem]
      split
      next hlt =>
        refine List.pairwise_cons.mpr ⟨?_, ih hys⟩
        intro y hy
        rcases mem_insertElem hy with rfl | hy
        · exact hlt
        · exact hz y hy
      next =>
        split
        next hlt =>
          refine List.pairwise_cons.mpr ⟨?_, h⟩
          intro y hy
          rcases List.mem_cons.mp hy with rfl | hy
          · exact hlt
          · exact hlt.trans (hz y hy)
        next => exact h

/-- `insert(x)`. -/
def insert (s : KeyedSet f) (x : α) : KeyedSet f :=
  ⟨insertElem f x s.elems, sorted_insertElem s.sorted⟩

/-- `find(x)`, where `k` is the key of `x`. -/
def find (s : KeyedSet f) (k : ν) : Option α := s.elems.find? fun y => decide (f y = k)

/-- Elements with the same key are the same. -/
theorem eq_of_key_eq (s : KeyedSet f) {x y : α} (hx : x ∈ s.elems) (hy : y ∈ s.elems)
    (h : f x = f y) : x = y := by
  have hnodup : (s.elems.map f).Nodup := List.pairwise_map.mpr (s.sorted.imp fun h => ne_of_lt h)
  exact List.inj_on_of_nodup_map hnodup hx hy h

theorem find_eq_some_iff (s : KeyedSet f) {k : ν} {x : α} :
    s.find k = some x ↔ x ∈ s.elems ∧ f x = k := by
  constructor
  · intro h
    exact ⟨List.mem_of_find?_eq_some h, by simpa using List.find?_some h⟩
  · rintro ⟨hx, rfl⟩
    obtain ⟨y, hy⟩ := Option.isSome_iff_exists.mp
      (List.find?_isSome.mpr ⟨x, hx, by simp⟩ : (s.find (f x)).isSome)
    have hkey : f y = f x := by simpa using List.find?_some hy
    rw [find, hy, s.eq_of_key_eq (List.mem_of_find?_eq_some hy) hx hkey]

theorem find_eq_none_iff (s : KeyedSet f) {k : ν} :
    s.find k = none ↔ ∀ x ∈ s.elems, f x ≠ k := by
  simp [find, List.find?_eq_none]

theorem insertElem_of_lt {x : α} {ys : List α} (h : ∀ y ∈ ys, f y < f x) :
    insertElem f x ys = ys ++ [x] := by
  induction ys with
  | nil => rfl
  | cons y ys ih =>
      rw [insertElem, if_pos (h y List.mem_cons_self),
        ih fun z hz => h z (List.mem_cons_of_mem y hz)]
      rfl

/-- Inserting elements in the order of their keys appends them. -/
theorem foldl_insert_eq (s : KeyedSet f) (xs : List α)
    (h : (s.elems ++ xs).Pairwise fun x y => f x < f y) :
    (xs.foldl insert s).elems = s.elems ++ xs := by
  induction xs generalizing s with
  | nil => simp
  | cons x xs ih =>
      have hlast : (s.insert x).elems = s.elems ++ [x] := by
        refine insertElem_of_lt ?_
        intro y hy
        exact (List.pairwise_append.mp h).2.2 y hy x List.mem_cons_self
      rw [List.foldl_cons, ih, hlast, List.append_assoc, List.singleton_append]
      rw [hlast, List.append_assoc, List.singleton_append]
      exact h

end KeyedSet

end Lib
