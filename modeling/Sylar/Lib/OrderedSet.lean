import Mathlib

/-!
# `Lib.OrderedSet`: a set kept in the order of a comparator

`std::set` as a list in the order of `lt`. An iterator is an index, and `end()` is the length of
the list. `lowerBound`, `find` and `insert` look at the comparator only, as the container does, so
they mean what their names say as long as the list is `Sorted`.

`StrictOrder lt` is what the container asks of its comparator, with one addition: elements that
compare as equal are equal.
-/

set_option autoImplicit false

namespace Lib

/-- A strict total order as a Boolean function. -/
structure StrictOrder {α : Type*} (lt : α → α → Bool) : Prop where
  irrefl : ∀ x, lt x x = false
  trans : ∀ x y z, lt x y = true → lt y z = true → lt x z = true
  tri : ∀ x y, lt x y = false → lt y x = false → x = y

namespace OrderedSet

section
variable {α : Type*} (lt : α → α → Bool)

/-- The list is strictly increasing. -/
def Sorted (l : List α) : Prop := l.Pairwise fun x y => lt x y = true

/-- `lower_bound`: the first position whose element is not less than `x`. -/
def lowerBound (x : α) (l : List α) : Nat := (l.takeWhile fun y => lt y x).length

/-- `find`, `none` for `end()`. -/
def find (x : α) (l : List α) : Option Nat :=
  match (l.drop (lowerBound lt x l)).head? with
  | none => none
  | some y => if lt x y then none else some (lowerBound lt x l)

/-- `insert`: the set and the position of the element. An element that is there stays. -/
def insert (x : α) (l : List α) : List α × Nat :=
  let i := lowerBound lt x l
  match (l.drop i).head? with
  | none => (l.take i ++ x :: l.drop i, i)
  | some y => if lt x y then (l.take i ++ x :: l.drop i, i) else (l, i)

variable {lt}

theorem Sorted.sublist {l l' : List α} (h : Sorted lt l) (hsub : l'.Sublist l) :
    Sorted lt l' := List.Pairwise.sublist hsub h

/-- The order of a list is that of its elements: another comparator that agrees on them will do. -/
theorem Sorted.congr {lt' : α → α → Bool} {l : List α} (h : Sorted lt l)
    (heq : ∀ x ∈ l, ∀ y ∈ l, lt' x y = lt x y) : Sorted lt' l := by
  refine List.Pairwise.imp_of_mem ?_ h
  intro x y hx hy hxy
  rw [heq x hx y hy]
  exact hxy

/-- A sorted list holds nothing twice. -/
theorem Sorted.nodup (hlt : StrictOrder lt) {l : List α} (h : Sorted lt l) : l.Nodup := by
  refine List.Pairwise.imp ?_ h
  rintro x y hxy rfl
  rw [hlt.irrefl] at hxy
  cases hxy

/-- The lower bound splits the list: what stands before it is less, what stands behind it is
not. -/
theorem split_lowerBound (hlt : StrictOrder lt) (x : α) {l : List α} (h : Sorted lt l) :
    ∃ below above, l = below ++ above ∧ lowerBound lt x l = below.length ∧
      (∀ y ∈ below, lt y x = true) ∧ ∀ y ∈ above, lt y x = false := by
  induction l with
  | nil => exact ⟨[], [], by simp [lowerBound]⟩
  | cons z l ih =>
      obtain ⟨hz, hl⟩ := List.pairwise_cons.mp h
      by_cases hzx : lt z x = true
      · obtain ⟨below, above, hsplit, hbound, hbelow, habove⟩ := ih hl
        refine ⟨z :: below, above, by rw [hsplit]; rfl, ?_, ?_, habove⟩
        · unfold lowerBound at hbound ⊢
          simp [hzx, hbound]
        · intro y hy
          rcases List.mem_cons.mp hy with rfl | hy
          · exact hzx
          · exact hbelow y hy
      · refine ⟨[], z :: l, rfl, ?_, ?_, ?_⟩
        · simp [lowerBound, hzx]
        · intro y hy
          cases hy
        · -- The elements behind `z` are greater than `z`, which is not less than `x`.
          intro y hy
          rcases List.mem_cons.mp hy with rfl | hy
          · simpa using hzx
          · by_contra hyx
            exact hzx (hlt.trans z y x (hz y hy) (by simpa using hyx))

/-- An element of the set is found, where it stands. -/
theorem find_of_mem (hlt : StrictOrder lt) {x : α} {l : List α} (h : Sorted lt l) (hx : x ∈ l) :
    ∃ before after, l = before ++ x :: after ∧ find lt x l = some before.length := by
  obtain ⟨below, above, hsplit, hbound, hbelow, habove⟩ := split_lowerBound hlt x h
  have hxabove : x ∈ above := by
    rw [hsplit, List.mem_append] at hx
    rcases hx with hx | hx
    · have hself := hbelow x hx
      rw [hlt.irrefl] at hself
      cases hself
    · exact hx
  cases above with
  | nil => cases hxabove
  | cons y after =>
      -- The head is not less than `x`, and everything behind the head is greater than it.
      have hyx : x = y := by
        rcases List.mem_cons.mp hxabove with hxy | hafter
        · exact hxy
        · rw [hsplit] at h
          have hless := List.rel_of_pairwise_cons (List.pairwise_append.mp h).2.1 hafter
          rw [habove y List.mem_cons_self] at hless
          cases hless
      subst hyx
      refine ⟨below, after, hsplit, ?_⟩
      subst hsplit
      simp [find, hbound, hlt.irrefl]

/-- Erasing what was found leaves the other elements. -/
theorem mem_eraseIdx_find (hlt : StrictOrder lt) {x : α} {l : List α} (h : Sorted lt l)
    (hx : x ∈ l) :
    ∃ i, find lt x l = some i ∧ Sorted lt (l.eraseIdx i) ∧
      ∀ y, y ∈ l.eraseIdx i ↔ y ∈ l ∧ y ≠ x := by
  obtain ⟨before, after, hsplit, hfind⟩ := find_of_mem hlt h hx
  refine ⟨before.length, hfind, h.sublist (List.eraseIdx_sublist ..), ?_⟩
  have hnodup := h.nodup hlt
  subst hsplit
  rw [List.nodup_append, List.nodup_cons] at hnodup
  obtain ⟨-, ⟨hafter, -⟩, hbefore⟩ := hnodup
  rw [List.eraseIdx_append_of_length_le le_rfl, Nat.sub_self, List.eraseIdx_cons_zero]
  intro y
  simp only [List.mem_append, List.mem_cons]
  constructor
  · rintro (hy | hy)
    · exact ⟨Or.inl hy, fun heq => hbefore y hy y (by simp [heq]) rfl⟩
    · exact ⟨Or.inr (Or.inr hy), fun heq => hafter (heq ▸ hy)⟩
  · rintro ⟨hy | rfl | hy, hne⟩
    · exact Or.inl hy
    · exact absurd rfl hne
    · exact Or.inr hy

/-- A new element goes where the order wants it. -/
theorem insert_of_not_mem (hlt : StrictOrder lt) {x : α} {l : List α} (h : Sorted lt l)
    (hx : x ∉ l) :
    ∃ below above, l = below ++ above ∧ insert lt x l = (below ++ x :: above, below.length) ∧
      Sorted lt (below ++ x :: above) := by
  obtain ⟨below, above, hsplit, hbound, hbelow, habove⟩ := split_lowerBound hlt x h
  -- No element behind the lower bound equals `x`, so all of them are greater.
  have hgreater : ∀ y ∈ above, lt x y = true := by
    intro y hy
    by_contra hxy
    refine hx ?_
    rw [hsplit, hlt.tri x y (by simpa using hxy) (habove y hy)]
    exact List.mem_append_right below hy
  subst hsplit
  refine ⟨below, above, rfl, ?_, ?_⟩
  · cases above with
    | nil =>
        rw [List.append_nil] at hbound
        simp [insert, hbound]
    | cons y after => simp [insert, hbound, hgreater y List.mem_cons_self]
  · obtain ⟨hbelow', habove', hcross⟩ := List.pairwise_append.mp h
    refine List.pairwise_append.mpr ⟨hbelow', List.pairwise_cons.mpr ⟨hgreater, habove'⟩, ?_⟩
    intro y hy z hz
    rcases List.mem_cons.mp hz with rfl | hz
    · exact hbelow y hy
    · exact hcross y hy z hz

theorem sorted_insert (hlt : StrictOrder lt) {x : α} {l : List α} (h : Sorted lt l) (hx : x ∉ l) :
    Sorted lt (insert lt x l).1 := by
  obtain ⟨below, above, -, hinsert, hsorted⟩ := insert_of_not_mem hlt h hx
  rw [hinsert]
  exact hsorted

theorem mem_insert (hlt : StrictOrder lt) {x : α} {l : List α} (h : Sorted lt l) (hx : x ∉ l)
    (y : α) : y ∈ (insert lt x l).1 ↔ y = x ∨ y ∈ l := by
  obtain ⟨below, above, hsplit, hinsert, -⟩ := insert_of_not_mem hlt h hx
  rw [hinsert, hsplit]
  simp only [List.mem_append, List.mem_cons]
  tauto

end

end OrderedSet

end Lib
