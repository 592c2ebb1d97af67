import Mathlib

/-!
# `Lib.Splice`: overwriting a segment of a list

`splice l off src` replaces the elements of `l` at the positions `off, …, off + src.length - 1`
by `src`. It is the effect of one `memcpy` on the bytes of its target.

The lemmas say what a splice does to the length and to each element, and how it meets `++`: a
splice that stays on one side of a seam acts on that side only, and a splice across the seam is
one splice on each side. The last form is what a copy loop over a chain of blocks computes.
-/

set_option autoImplicit false

namespace Lib

section
variable {α : Type*}

/-- `l` with the elements from `off` on replaced by `src`. -/
def splice (l : List α) (off : Nat) (src : List α) : List α :=
  l.take off ++ src ++ l.drop (off + src.length)

@[simp] theorem splice_nil (l : List α) (off : Nat) : splice l off [] = l := by
  simp [splice]

theorem length_splice {l src : List α} {off : Nat} (h : off + src.length ≤ l.length) :
    (splice l off src).length = l.length := by
  simp only [splice, List.length_append, List.length_take, List.length_drop]
  omega

/-- An element inside the segment comes from the source. -/
theorem getElem?_splice_inside {l src : List α} {off i : Nat}
    (h : off + src.length ≤ l.length) (hi : i < src.length) :
    (splice l off src)[off + i]? = src[i]? := by
  have hoff : (l.take off).length = off := by
    rw [List.length_take]
    omega
  rw [splice, List.append_assoc, List.getElem?_append_right (by omega), hoff,
    Nat.add_sub_cancel_left, List.getElem?_append_left hi]

/-- An element outside the segment stays. -/
theorem getElem?_splice_outside {l src : List α} {off i : Nat}
    (h : off + src.length ≤ l.length) (hi : i < off ∨ off + src.length ≤ i) :
    (splice l off src)[i]? = l[i]? := by
  have hoff : (l.take off).length = off := by
    rw [List.length_take]
    omega
  rcases hi with hi | hi
  · rw [splice, List.append_assoc, List.getElem?_append_left (by omega),
      List.getElem?_take_of_lt hi]
  · have hlen : (l.take off ++ src).length = off + src.length := by
      rw [List.length_append, hoff]
    rw [splice, List.getElem?_append_right (by omega), hlen, List.getElem?_drop]
    congr 1
    omega

/-- A splice that ends before the seam acts on the left part. -/
theorem splice_append_left {a src : List α} (b : List α) {off : Nat}
    (h : off + src.length ≤ a.length) :
    splice (a ++ b) off src = splice a off src ++ b := by
  rw [splice, splice, List.take_append_of_le_length (by omega),
    List.drop_append_of_le_length h]
  simp only [List.append_assoc]

/-- A splice that starts after the seam acts on the right part. -/
theorem splice_append_right (a b src : List α) (off : Nat) :
    splice (a ++ b) (a.length + off) src = a ++ splice b off src := by
  rw [splice, splice, List.take_length_add_append, Nat.add_assoc, List.drop_length_add_append]
  simp only [List.append_assoc]

/-- A splice across the seam: the first bytes fill the left part to its end, and the others
start at the head of the right part. -/
theorem splice_append_across {a src : List α} (b : List α) {off : Nat}
    (hoff : off ≤ a.length) (h : a.length ≤ off + src.length) :
    splice (a ++ b) off src =
      splice a off (src.take (a.length - off)) ++ splice b 0 (src.drop (a.length - off)) := by
  have hsplit : a.take off ++ src
      = a.take off ++ src.take (a.length - off) ++ src.drop (a.length - off) := by
    rw [List.append_assoc, List.take_append_drop]
  have htake : (src.take (a.length - off)).length = a.length - off := by
    rw [List.length_take]
    omega
  have hdrop : a.drop (off + (src.take (a.length - off)).length) = [] := by
    rw [htake]
    exact List.drop_eq_nil_of_le (by omega)
  have htail : (a ++ b).drop (off + src.length)
      = b.drop (0 + (src.drop (a.length - off)).length) := by
    rw [List.length_drop, List.drop_append,
      List.drop_eq_nil_of_le (by omega : a.length ≤ off + src.length), List.nil_append]
    congr 1
    omega
  rw [splice, splice, splice, hdrop, htail, List.take_append_of_le_length hoff,
    List.take_zero, List.append_nil, List.nil_append, hsplit]
  simp only [List.append_assoc]

/-- Cutting the list behind the segment commutes with the splice. -/
theorem take_splice {l src : List α} {off s : Nat} (hoff : off ≤ s)
    (h : off + src.length ≤ l.length) :
    (splice l off src).take (max s (off + src.length)) = splice (l.take s) off src := by
  have hlen : (l.take off ++ src).length = off + src.length := by
    rw [List.length_append, List.length_take]
    omega
  rw [splice, splice, List.take_append, hlen,
    List.take_of_length_le (by rw [hlen]; exact Nat.le_max_right _ _), List.take_take,
    Nat.min_eq_left hoff, List.drop_take]
  congr 2
  omega

/-- Two splices side by side are one. -/
theorem splice_splice {l a : List α} (b : List α) {off : Nat} (h : off ≤ l.length) :
    splice (splice l off a) (off + a.length) b = splice l off (a ++ b) := by
  have hlen : (l.take off ++ a).length = off + a.length := by
    rw [List.length_append, List.length_take]
    omega
  have hdrop : (l.take off ++ a ++ l.drop (off + a.length)).drop (off + a.length + b.length)
      = l.drop (off + (a ++ b).length) := by
    rw [List.drop_append, hlen, List.drop_of_length_le (by omega), List.nil_append,
      List.drop_drop, List.length_append]
    congr 1
    omega
  rw [splice, splice, hdrop, List.take_left' hlen, splice, ← List.append_assoc (l.take off)]

end

end Lib
