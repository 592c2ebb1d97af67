import Sylar.Lib.Blocks
import Sylar.Lib.EState
import Sylar.Spec.ByteArrayViews

/-!
# `Sylar.Proofs.ByteArray.Loops`: the copy loops over a uniform chain

The loops of `write`, `read` and `getWriteBuffers` walk the chain from `m_cur` on, with an
offset in the first block. The results here are about blocks of one size `b`, which is what the
chain of a `ByteArray` holds.

`writeLoop_ok`: the loop returns when the chain has room. It splices the buffer into the bytes
of the chain, keeps the shape of the chain, and leaves the cursor at the block after the last
byte. `readLoop_ok` says the same of the loop of `read`, which changes no byte, and `iovLoop_covers`
which bytes the `iovec`s are. `seek_ok` is the walk of `setPosition`.

All four proofs are inductions on the chain. The step compares the end of the segment with the
end of the first block, as the source does.
-/

set_option autoImplicit false

namespace Sylar.ByteArray

open Lib (cursor splice)

/-- Every block of the chain has `b` bytes. -/
def Uniform (b : Nat) (nodes : List Node) : Prop := ∀ n ∈ nodes, n.size = b

/-- The bytes of a chain. -/
def flat (nodes : List Node) : List UInt8 := nodes.flatMap Node.ptr

@[simp] theorem flat_cons (n : Node) (nodes : List Node) :
    flat (n :: nodes) = n.ptr ++ flat nodes := List.flatMap_cons

@[simp] theorem flat_append (l r : List Node) : flat (l ++ r) = flat l ++ flat r :=
  List.flatMap_append

section
variable {b : Nat}

theorem Uniform.head {n : Node} {nodes : List Node} (h : Uniform b (n :: nodes)) : n.size = b :=
  h n List.mem_cons_self

theorem Uniform.tail {n : Node} {nodes : List Node} (h : Uniform b (n :: nodes)) :
    Uniform b nodes := fun m hm => h m (List.mem_cons_of_mem n hm)

theorem Uniform.cons {n : Node} {nodes : List Node} (hn : n.size = b) (h : Uniform b nodes) :
    Uniform b (n :: nodes) := by
  intro m hm
  rcases List.mem_cons.mp hm with rfl | hm
  · exact hn
  · exact h m hm

theorem Uniform.append {l r : List Node} (hl : Uniform b l) (hr : Uniform b r) :
    Uniform b (l ++ r) := by
  intro n hn
  rcases List.mem_append.mp hn with hn | hn
  · exact hl n hn
  · exact hr n hn

theorem Uniform.take {nodes : List Node} (h : Uniform b nodes) (k : Nat) :
    Uniform b (nodes.take k) := fun n hn => h n (List.mem_of_mem_take hn)

theorem Uniform.length_flat {nodes : List Node} (h : Uniform b nodes) :
    (flat nodes).length = b * nodes.length :=
  Lib.length_flatMap_of_length fun n hn => by rw [n.ptr_length, h n hn]

/-- A segment that ends past the first block needs a second one. -/
theorem Uniform.exists_next {rest : List Node} (h : Uniform b rest) {e : Nat} (he : b < e)
    (hroom : e ≤ b * rest.length + b) :
    0 < rest.length ∧ ∃ m, rest.head? = some m ∧ m.size = b := by
  cases rest with
  | nil =>
      rw [List.length_nil] at hroom
      omega
  | cons m rest => exact ⟨Nat.succ_pos _, m, rfl, h.head⟩

/-- A copy that stays inside the block. -/
theorem store_ok (n : Node) (off : Nat) (src : List UInt8) (h : off + src.length ≤ n.size) :
    ∃ n' : Node, n.store off src = .ok n' ∧ n'.size = n.size ∧
      n'.ptr = splice n.ptr off src := by
  unfold Node.store
  rw [dif_pos h]
  exact ⟨_, rfl, rfl, rfl⟩

theorem load_ok {n : Node} {off len : Nat} (h : off + len ≤ n.size) :
    n.load off len = .ok ((n.ptr.drop off).take len) := if_pos h

/-- `m_cur->size - npos` for an offset inside the block. -/
theorem subSize_of_le {a c : Nat} (h : c ≤ a) : subSize a c = a - c := if_pos h

/-- `cur->next` is the cursor at the end of the block. -/
theorem nextOf_eq_cursor (hb : 0 < b) (rest : List Node) (k : Nat) :
    nextOf rest k = cursor b (rest.length + 1) k b := by
  rw [Lib.cursor_block_end hb, nextOf]
  cases rest with
  | nil => rfl
  | cons m rest => simp

/-- The cursor after a segment that ends in the first block. -/
theorem cursor_in_block (hb : 0 < b) (rest : List Node) (k : Nat) {e : Nat} (he : e ≤ b) :
    (if b = e then nextOf rest k else some k) = cursor b (rest.length + 1) k e := by
  by_cases hend : b = e
  · subst hend
    rw [if_pos rfl, nextOf_eq_cursor hb]
  · rw [if_neg hend, Lib.cursor_of_lt (Nat.succ_pos _) (by omega)]

/-- The cursor after a segment that leaves the first block, seen from the next one. -/
theorem cursor_past_block (hb : 0 < b) (n k : Nat) {e : Nat} (he : b ≤ e) :
    cursor b n (k + 1) (e - b) = cursor b (n + 1) k e := by
  have h := Lib.cursor_add_blocks hb 1 n k (e - b)
  rw [Nat.mul_one, Nat.add_comm 1 n, Nat.add_sub_of_le he] at h
  exact h.symm

end

/-! ### The loops -/

section
variable {b : Nat} (hb : 0 < b)
include hb

/-- The `while` loop of `write`, on a chain with room for `buf`. -/
theorem writeLoop_ok : ∀ (nodes : List Node) (cur position npos : Nat) (buf : List UInt8),
    Uniform b nodes → npos < b → 0 < nodes.length → npos + buf.length ≤ b * nodes.length →
    ∃ nodes', writeLoop nodes cur position npos (b - npos) buf
        = .ok (nodes', cursor b nodes.length cur (npos + buf.length), position + buf.length) ∧
      Uniform b nodes' ∧ nodes'.length = nodes.length ∧
      flat nodes' = splice (flat nodes) npos buf := by
  intro nodes
  induction nodes with
  | nil =>
      intro cur position npos buf _ _ hpos
      exact absurd hpos (Nat.lt_irrefl 0)
  | cons n rest ih =>
      intro cur position npos buf hu hnpos _ hroom
      have hn : n.size = b := hu.head
      have hptr : n.ptr.length = b := by rw [n.ptr_length, hn]
      rw [List.length_cons, Nat.mul_succ] at hroom
      unfold writeLoop
      by_cases hzero : buf.length = 0
      · -- Nothing to copy: the cursor is still inside its block.
        have hbuf : buf = [] := List.length_eq_zero_iff.mp hzero
        subst hbuf
        refine ⟨n :: rest, ?_, hu, rfl, (Lib.splice_nil _ _).symm⟩
        rw [if_pos List.length_nil, List.length_nil, Nat.add_zero, List.length_cons,
          Lib.cursor_of_lt (Nat.succ_pos _) hnpos, Nat.add_zero]
      · rw [if_neg hzero]
        by_cases hfit : buf.length ≤ b - npos
        · -- The last copy of the loop.
          obtain ⟨n', hstore, hsize, hbytes⟩ := store_ok n npos buf (by omega)
          refine ⟨n' :: rest, ?_, hu.tail.cons (hsize.trans hn), rfl, ?_⟩
          · rw [if_pos hfit, hstore, Lib.except_ok_bind, hn,
              cursor_in_block hb rest cur (by omega), List.length_cons]
          · rw [flat_cons, flat_cons, hbytes, Lib.splice_append_left _ (by omega)]
        · -- The block is filled to its end and the loop goes on in the next one.
          have htake : (buf.take (b - npos)).length = b - npos := by
            rw [List.length_take]
            omega
          obtain ⟨n', hstore, hsize, hbytes⟩ := store_ok n npos (buf.take (b - npos)) (by omega)
          obtain ⟨hrest, m, hm, hmb⟩ := hu.tail.exists_next (by omega) hroom
          have hdrop : (buf.drop (b - npos)).length = npos + buf.length - b := by
            rw [List.length_drop]
            omega
          obtain ⟨nodes', hloop, hu', hlen', hflat'⟩ := ih (cur + 1) (position + (b - npos)) 0
            (buf.drop (b - npos)) hu.tail hb hrest (by omega)
          refine ⟨n' :: nodes', ?_, hu'.cons (hsize.trans hn), by simp [hlen'], ?_⟩
          · rw [if_neg hfit, hstore, Lib.except_ok_bind, hm]
            simp only [hmb]
            rw [Nat.sub_zero] at hloop
            rw [hloop, Lib.except_ok_bind, hdrop, Nat.zero_add,
              cursor_past_block hb _ _ (by omega), List.length_cons]
            have hposition : position + (b - npos) + (npos + buf.length - b)
                = position + buf.length := by omega
            rw [hposition]
          · rw [flat_cons, flat_cons, hbytes, hflat',
              Lib.splice_append_across _ (by omega) (by omega), hptr]

/-- The `while` loop of `read`, on a chain with `size` bytes from `npos` on. -/
theorem readLoop_ok : ∀ (nodes : List Node) (cur position npos size : Nat),
    Uniform b nodes → npos < b → 0 < nodes.length → npos + size ≤ b * nodes.length →
    readLoop nodes cur position npos (b - npos) size
      = .ok (((flat nodes).drop npos).take size, cursor b nodes.length cur (npos + size),
          position + size) := by
  intro nodes
  induction nodes with
  | nil =>
      intro cur position npos size _ _ hpos
      exact absurd hpos (Nat.lt_irrefl 0)
  | cons n rest ih =>
      intro cur position npos size hu hnpos _ hroom
      have hn : n.size = b := hu.head
      have hptr : n.ptr.length = b := by rw [n.ptr_length, hn]
      rw [List.length_cons, Nat.mul_succ] at hroom
      unfold readLoop
      by_cases hzero : size = 0
      · subst hzero
        rw [if_pos rfl, List.take_zero, Nat.add_zero, List.length_cons,
          Lib.cursor_of_lt (Nat.succ_pos _) hnpos, Nat.add_zero]
      · rw [if_neg hzero]
        have hdropn : (n.ptr.drop npos).length = b - npos := by
          rw [List.length_drop, hptr]
        have hflat : (flat (n :: rest)).drop npos = n.ptr.drop npos ++ flat rest := by
          rw [flat_cons, List.drop_append_of_le_length (by omega)]
        by_cases hfit : size ≤ b - npos
        · -- The last copy of the loop: the bytes end in this block.
          rw [if_pos hfit, load_ok (by omega), Lib.except_ok_bind, hn,
            cursor_in_block hb rest cur (by omega), List.length_cons, hflat,
            List.take_append_of_le_length (by omega)]
        · -- The block is read to its end and the loop goes on in the next one.
          obtain ⟨hrest, m, hm, hmb⟩ := hu.tail.exists_next (by omega) hroom
          have hloop := ih (cur + 1) (position + (b - npos)) 0 (size - (b - npos)) hu.tail hb
            hrest (by omega)
          rw [Nat.sub_zero, List.drop_zero, Nat.zero_add] at hloop
          rw [if_neg hfit, load_ok (by omega), Lib.except_ok_bind, hm]
          simp only [hmb]
          rw [hloop, Lib.except_ok_bind, hflat, List.take_append, hdropn,
            List.take_of_length_le (Nat.le_of_eq hdropn),
            List.take_of_length_le (by omega : (n.ptr.drop npos).length ≤ size),
            List.length_cons]
          have hcur : size - (b - npos) = npos + size - b := by omega
          have hposition : position + (b - npos) + (npos + size - b) = position + size := by
            omega
          rw [hcur, cursor_past_block hb _ _ (by omega), hposition]

/-- The walk of `setPosition` on a chain that holds the position `v`. -/
theorem seek_ok : ∀ (nodes : List Node) (cur v : Nat),
    Uniform b nodes → 0 < nodes.length → v ≤ b * nodes.length →
    seek nodes cur v = .ok (cursor b nodes.length cur v) := by
  intro nodes
  induction nodes with
  | nil =>
      intro cur v _ hpos
      exact absurd hpos (Nat.lt_irrefl 0)
  | cons n rest ih =>
      intro cur v hu _ hv
      have hn : n.size = b := hu.head
      rw [List.length_cons, Nat.mul_succ] at hv
      unfold seek
      by_cases hpast : n.size < v
      · obtain ⟨hrest, -⟩ := hu.tail.exists_next (hn ▸ hpast) hv
        rw [if_pos hpast, hn, ih (cur + 1) (v - b) hu.tail hrest (by omega), List.length_cons,
          cursor_past_block hb _ _ (by omega)]
      · rw [if_neg hpast, List.length_cons, ← cursor_in_block hb rest cur (by omega), hn]
        by_cases hend : v = b
        · rw [if_pos hend, if_pos hend.symm]
        · rw [if_neg hend, if_neg (Ne.symm hend)]

end

/-- The `while` loop of `getWriteBuffers`, on blocks with room for `len` bytes that are those of `ba`
from the index `cur` on. An `iovec` ends with its block or is the last one, so that the next one
begins where it ends. -/
theorem iovLoop_covers {ba : ByteArray} (hb : 0 < ba.baseSize) :
    ∀ (nodes : List Node) (cur npos len : Nat), Uniform ba.baseSize nodes → npos < ba.baseSize →
      0 < nodes.length → npos + len ≤ ba.baseSize * nodes.length →
      cur + nodes.length ≤ ba.chain.length →
      ∃ iovs, iovLoop nodes cur npos (ba.baseSize - npos) len = .ok iovs ∧
        Covers ba iovs (ba.baseSize * cur + npos) len ∧ ∀ v ∈ iovs, 0 < v.len := by
  intro nodes
  induction nodes with
  | nil =>
      intro cur npos len _ _ hpos
      exact absurd hpos (Nat.lt_irrefl 0)
  | cons n rest ih =>
      intro cur npos len hu hnpos _ hroom hchain
      rw [List.length_cons] at hroom hchain
      rw [Nat.mul_succ] at hroom
      have hcur : cur < ba.chain.length := by omega
      unfold iovLoop
      by_cases hzero : len = 0
      · exact ⟨[], if_pos hzero, hzero, fun v hv => nomatch hv⟩
      · rw [if_neg hzero]
        by_cases hfit : len ≤ ba.baseSize - npos
        · -- the last one: all that is left lies in this block
          have hend : npos + len ≤ ba.baseSize := by omega
          refine ⟨[⟨cur, npos, len⟩], if_pos hfit, ⟨hcur, hend, rfl, Nat.le_refl len,
            Nat.sub_self len⟩, fun v hv => ?_⟩
          rw [List.mem_singleton.mp hv]
          exact Nat.pos_of_ne_zero hzero
        · -- it ends with its block, and the next one begins with the next block
          obtain ⟨hrest, m, hm, hmb⟩ := hu.tail.exists_next (by omega) hroom
          obtain ⟨iovs, hloop, hcovers, hpos⟩ :=
            ih (cur + 1) 0 (len - (ba.baseSize - npos)) hu.tail hb hrest (by omega) (by omega)
          have hend : npos + (ba.baseSize - npos) ≤ ba.baseSize := by omega
          have hnext : ba.baseSize * (cur + 1) + 0
              = ba.baseSize * cur + npos + (ba.baseSize - npos) := by
            rw [Nat.mul_succ]
            omega
          rw [Nat.sub_zero] at hloop
          rw [hnext] at hcovers
          refine ⟨⟨cur, npos, ba.baseSize - npos⟩ :: iovs, ?_, ⟨hcur, hend, rfl, Nat.le_of_not_le hfit,
            hcovers⟩, fun v hv => ?_⟩
          · rw [if_neg hfit, hm]
            simp only [hmb, hloop, Lib.except_ok_bind]
          · rcases List.mem_cons.mp hv with rfl | hv
            · exact Nat.sub_pos_of_lt hnpos
            · exact hpos v hv

end Sylar.ByteArray
