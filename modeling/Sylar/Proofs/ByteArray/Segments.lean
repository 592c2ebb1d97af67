import Sylar.Proofs.ByteArray.Invariant
import Sylar.Spec.ByteArrayViews

/-!
# `Sylar.Proofs.ByteArray.Segments`: lists of `iovec`s

What follows from `Covers`. The bytes of a list that covers `[p, p + n)` are those of the chain
(`Covers.gather_eq`), its lengths add up to `n` (`Covers.sum_len`), and no byte is in two of its
`iovec`s (`Covers.pairwise_disjoint`).
-/

set_option autoImplicit false

namespace Sylar.ByteArray

section
variable {ba : ByteArray} {v : Iovec} {iovs : List Iovec} {p n : Nat}

/-! ### What a list covers -/

theorem Covers.sum_len (h : Covers ba iovs p n) : (iovs.map Iovec.len).sum = n := by
  induction iovs generalizing p n with
  | nil => exact Eq.symm h
  | cons v vs ih =>
      obtain ⟨-, -, -, hle, hrest⟩ := h
      rw [List.map_cons, List.sum_cons, ih hrest]
      omega

/-- What a list covers depends on the number and the size of the blocks. -/
theorem Covers.congr {ba' : ByteArray} (h : Covers ba' iovs p n) (hb : ba'.baseSize = ba.baseSize)
    (hlen : ba'.chain.length = ba.chain.length) : Covers ba iovs p n := by
  induction iovs generalizing p n with
  | nil => exact h
  | cons v vs ih =>
      obtain ⟨hnode, hoff, hstart, hle, hrest⟩ := h
      exact ⟨hlen ▸ hnode, hb ▸ hoff, hb ▸ hstart, hle, ih hrest⟩

theorem Covers.le_start (h : Covers ba iovs p n) (hv : v ∈ iovs) :
    p ≤ ba.baseSize * v.node + v.off := by
  induction iovs generalizing p n with
  | nil => cases hv
  | cons w vs ih =>
      obtain ⟨-, -, hstart, -, hrest⟩ := h
      rcases List.mem_cons.mp hv with rfl | hv
      · exact Nat.le_of_eq hstart.symm
      · have hle := ih hrest hv
        omega

theorem Covers.pairwise_disjoint (h : Covers ba iovs p n) : iovs.Pairwise Iovec.Disjoint := by
  induction iovs generalizing p n with
  | nil => exact List.Pairwise.nil
  | cons v vs ih =>
      obtain ⟨-, -, hstart, -, hrest⟩ := h
      refine List.pairwise_cons.mpr ⟨fun w hw => ?_, ih hrest⟩
      -- a later one begins behind the end of `v`, so in one block the offsets are in order
      have hle := hrest.le_start hw
      by_cases hnode : v.node = w.node
      · rw [hnode] at hstart
        exact .inr (.inl (by omega))
      · exact .inl hnode

/-- An `iovec` inside a block covers bytes of the chain. -/
theorem bytes_iovec {b : Nat} {chain : List Node} (hu : Uniform b chain)
    (hnode : v.node < chain.length) (hoff : v.off + v.len ≤ b) :
    v.bytes chain = ((flat chain).drop (b * v.node + v.off)).take v.len := by
  have hptr : (chain[v.node]).ptr.length = b := by
    rw [Node.ptr_length]
    exact hu _ (List.getElem_mem hnode)
  have hbefore : (flat (chain.take v.node)).length = b * v.node := by
    rw [(hu.take v.node).length_flat, List.length_take, Nat.min_eq_left (Nat.le_of_lt hnode)]
  have hsplit : flat chain =
      flat (chain.take v.node) ++ ((chain[v.node]).ptr ++ flat (chain.drop (v.node + 1))) := by
    rw [← flat_cons, ← flat_append, ← List.drop_eq_getElem_cons hnode, List.take_append_drop]
  rw [Iovec.bytes, List.getElem?_eq_getElem hnode, hsplit, ← hbefore, List.drop_length_add_append,
    List.drop_append_of_le_length (by omega), List.take_append_of_le_length]
  rw [List.length_drop]
  omega

theorem Covers.gather_eq (h : Covers ba iovs p n) (hwf : Wf ba) :
    gather ba.chain iovs = (ba.bytes.drop p).take n := by
  induction iovs generalizing p n with
  | nil =>
      have hn : n = 0 := h
      subst hn
      rw [List.take_zero]
      rfl
  | cons v vs ih =>
      obtain ⟨hnode, hoff, rfl, hle, hrest⟩ := h
      obtain ⟨m, rfl⟩ := Nat.exists_eq_add_of_le hle
      rw [Nat.add_sub_cancel_left] at hrest
      have htail : gather ba.chain vs = _ := ih hrest
      rw [gather, List.flatMap_cons, ← gather, htail, bytes_iovec hwf.uniform hnode hoff,
        List.take_add, List.drop_drop]
      rfl

end

end Sylar.ByteArray
