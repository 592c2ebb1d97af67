import Mathlib

/-!
# `Lib.Update`: replacing one element of a list

A table is a list of cells, and a step replaces one of them. What a quantity collected over all
cells does is then decided by the one cell: `flatMap_set_perm` for the collected list, up to order,
and `sum_map_set` for a sum. `sum_map_eraseIdx` is for a cell that is removed.
-/

set_option autoImplicit false

namespace Lib

section
variable {α β : Type*} {l : List α} {i : Nat} {old new : α}

/-- A list around one of its elements. -/
theorem eq_append_of_getElem? (h : l[i]? = some old) :
    l = l.take i ++ old :: l.drop (i + 1) := by
  obtain ⟨hi, rfl⟩ := List.getElem?_eq_some_iff.mp h
  rw [List.getElem_cons_drop, List.take_append_drop]

/-- If the old cell gives `ys` more than the new one, so does the whole table. -/
theorem flatMap_set_perm {f : α → List β} {ys : List β} (h : l[i]? = some old)
    (hf : (f old).Perm (ys ++ f new)) : (l.flatMap f).Perm (ys ++ (l.set i new).flatMap f) := by
  have hi : i < l.length := (List.getElem?_eq_some_iff.mp h).1
  have hl : l.flatMap f = (l.take i).flatMap f ++ (f old ++ (l.drop (i + 1)).flatMap f) := by
    conv_lhs => rw [eq_append_of_getElem? h]
    rw [List.flatMap_append, List.flatMap_cons]
  have hset : (l.set i new).flatMap f
      = (l.take i).flatMap f ++ (f new ++ (l.drop (i + 1)).flatMap f) := by
    rw [List.set_eq_take_append_cons_drop, if_pos hi, List.flatMap_append, List.flatMap_cons]
  rw [hl, hset]
  -- Put the new cell in place of the old one, then move `ys` to the front.
  refine ((hf.append_right _).append_left _).trans ?_
  rw [List.append_assoc, ← List.append_assoc, ← List.append_assoc ys]
  exact List.perm_append_comm.append_right _

theorem sum_map_set (f : α → Nat) (h : l[i]? = some old) (new : α) :
    ((l.set i new).map f).sum + f old = (l.map f).sum + f new := by
  have hi : i < l.length := (List.getElem?_eq_some_iff.mp h).1
  have hl : (l.map f).sum = ((l.take i).map f).sum + (f old + ((l.drop (i + 1)).map f).sum) := by
    conv_lhs => rw [eq_append_of_getElem? h]
    rw [List.map_append, List.sum_append, List.map_cons, List.sum_cons]
  rw [hl, List.set_eq_take_append_cons_drop, if_pos hi, List.map_append, List.sum_append,
    List.map_cons, List.sum_cons]
  omega

theorem sum_map_eraseIdx (f : α → Nat) (h : l[i]? = some old) :
    ((l.eraseIdx i).map f).sum + f old = (l.map f).sum := by
  have hl : (l.map f).sum = ((l.take i).map f).sum + (f old + ((l.drop (i + 1)).map f).sum) := by
    conv_lhs => rw [eq_append_of_getElem? h]
    rw [List.map_append, List.sum_append, List.map_cons, List.sum_cons]
  rw [hl, List.eraseIdx_eq_take_drop_succ, List.map_append, List.sum_append]
  omega

end

end Lib
