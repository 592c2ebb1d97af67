import Mathlib

/-!
# `Lib.Blocks`: positions in a chain of equal blocks

A chain of `n` blocks of `b` cells holds the positions `0, …, b * n`. `cursor b n first off` is
the block that holds the position `off`, counted from `first`. The position after the last cell
has no block, and `cursor` is `none` there. It is also `none` nowhere else.

The lemmas are the steps of a walk along the chain: a position inside the first block, the end
of the first block, and a position that lies past some whole blocks.
-/

set_option autoImplicit false

namespace Lib

/-- The index of the block of the position `off`, in a chain of `n` blocks of `b` cells whose
first block has the index `first`. -/
def cursor (b n first off : Nat) : Option Nat :=
  if off = b * n then none else some (first + off / b)

section
variable {b : Nat}

/-- A position inside the first block. -/
theorem cursor_of_lt {n first off : Nat} (hn : 0 < n) (h : off < b) :
    cursor b n first off = some first := by
  have hle : b * 1 ≤ b * n := Nat.mul_le_mul_left b hn
  rw [cursor, if_neg (by omega), Nat.div_eq_of_lt h, Nat.add_zero]

/-- The position past `k` whole blocks, seen from the block that follows them. -/
theorem cursor_add_blocks (hb : 0 < b) (k n first off : Nat) :
    cursor b (k + n) first (b * k + off) = cursor b n (first + k) off := by
  have hdiv : (b * k + off) / b = k + off / b := Nat.mul_add_div hb k off
  have hiff : b * k + off = b * (k + n) ↔ off = b * n := by
    rw [Nat.mul_add]
    omega
  simp only [cursor, hdiv, hiff, Nat.add_assoc]

/-- The end of the first block is the next block, if there is one. -/
theorem cursor_block_end (hb : 0 < b) (n first : Nat) :
    cursor b (n + 1) first b = if n = 0 then none else some (first + 1) := by
  have h := cursor_add_blocks hb 1 n first 0
  rw [Nat.mul_one, Nat.add_zero, Nat.add_comm 1 n] at h
  rw [h, cursor, Nat.zero_div, Nat.add_zero]
  rcases Nat.eq_zero_or_pos n with hn | hn
  · simp [hn]
  · have hpos : 0 < b * n := Nat.mul_pos hb hn
    rw [if_neg (by omega), if_neg (by omega)]

/-- A position of the chain lies in a block of the chain. -/
theorem cursor_eq_some {n off : Nat} (h : off < b * n) :
    cursor b n 0 off = some (off / b) ∧ off / b < n := by
  refine ⟨?_, Nat.div_lt_of_lt_mul h⟩
  rw [cursor, if_neg (by omega), Nat.zero_add]

end

/-- The cells of a chain of equal blocks. -/
theorem length_flatMap_of_length {α β : Type*} {f : α → List β} {b : Nat} {l : List α}
    (h : ∀ a ∈ l, (f a).length = b) : (l.flatMap f).length = b * l.length := by
  rw [List.length_flatMap, List.map_congr_left h]
  simp [Nat.mul_comm]

end Lib
