import Sylar.Spec.HttpConnection

/-!
# `Sylar.Proofs.Http.Reading`: loops that read a number of bytes

A stream whose pieces are not empty never looks closed before its end. The loops that wait for a
number of bytes, `readLeft` and `readFixSize`, then return the next bytes of the stream whatever its
pieces are, and leave the stream without them (`skip`).
-/

set_option autoImplicit false

namespace Sylar

open Lib

namespace Stream

/-- No piece is empty. -/
def Solid (s : Stream) : Prop := ∀ v ∈ s, v ≠ []

/-- The stream without its first `n` bytes. -/
def skip (n : Nat) : Stream → Stream
  | [] => []
  | v :: vs => if v.length ≤ n then skip (n - v.length) vs else v.drop n :: vs

variable {n k left fuel buffSize : Nat} {acc body : List UInt8} {s : Stream}

theorem skip_zero (hs : Solid s) : skip 0 s = s := by
  cases s with
  | nil => rfl
  | cons v vs =>
      have hv := List.length_pos_iff.mpr (hs v (List.mem_cons_self ..))
      rw [skip, if_neg (by omega), List.drop_zero]

theorem flatten_skip : (skip n s).flatten = s.flatten.drop n := by
  induction s generalizing n with
  | nil => rw [skip, List.flatten_nil, List.drop_nil]
  | cons v vs ih =>
      rw [skip, List.flatten_cons, List.drop_append]
      split
      · next h => rw [ih, List.drop_eq_nil_of_le h, List.nil_append]
      · next h =>
          rw [List.flatten_cons, show n - v.length = 0 by omega, List.drop_zero]

theorem solid_skip (hs : Solid s) : Solid (skip n s) := by
  induction s generalizing n with
  | nil => exact hs
  | cons v vs ih =>
      have htail : Solid vs := fun w hw => hs w (List.mem_cons_of_mem _ hw)
      rw [skip]
      split
      · exact ih htail
      · next h =>
          intro w hw
          rcases List.mem_cons.mp hw with rfl | hw
          · rw [ne_eq, List.drop_eq_nil_iff]
            exact h
          · exact htail w hw

theorem skip_skip : skip k (skip n s) = skip (n + k) s := by
  induction s generalizing n with
  | nil => rfl
  | cons v vs ih =>
      rw [skip]
      split
      · next h =>
          rw [ih, skip, if_pos (by omega), show n - v.length + k = n + k - v.length by omega]
      · next h =>
          rw [skip, List.length_drop, skip]
          split
          · next h' =>
              rw [if_pos (by omega), show k - (v.length - n) = n + k - v.length by omega]
          · next h' => rw [if_neg (by omega), List.drop_drop]

theorem length_read_le (k : Nat) (s : Stream) : (s.read k).1.length ≤ k := by
  cases s with
  | nil => exact Nat.zero_le k
  | cons p ps =>
      rw [read]
      split
      · assumption
      · exact List.length_take_le k p

/-- A read loses nothing and returns no more than asked for. -/
theorem read_keeps {bs : List UInt8} {s' : Stream} (hs : Solid s) (h : read n s = (bs, s')) :
    bs ++ s'.flatten = s.flatten ∧ bs.length ≤ n ∧ Solid s' := by
  cases s with
  | nil =>
      obtain ⟨rfl, rfl⟩ := Prod.mk.inj h
      exact ⟨rfl, Nat.zero_le _, hs⟩
  | cons v vs =>
      have htail : Solid vs := fun w hw => hs w (List.mem_cons_of_mem _ hw)
      rw [read] at h
      split at h
      · next hle =>
          obtain ⟨rfl, rfl⟩ := Prod.mk.inj h
          exact ⟨rfl, hle, htail⟩
      · next hle =>
          obtain ⟨rfl, rfl⟩ := Prod.mk.inj h
          refine ⟨?_, List.length_take_le .., ?_⟩
          · rw [List.flatten_cons, List.flatten_cons, ← List.append_assoc, List.take_append_drop]
          · intro w hw
            rcases List.mem_cons.mp hw with rfl | hw
            · rw [ne_eq, List.drop_eq_nil_iff]
              exact hle
            · exact htail w hw

/-- A read returns some bytes, and the stream is left without them. -/
theorem read_eq (hs : Solid s) (hn : 0 < n) (hne : s.flatten ≠ []) :
    ∃ c bs, read n s = (c :: bs, skip (bs.length + 1) s) ∧ bs.length + 1 ≤ n ∧
      s.flatten = c :: bs ++ (skip (bs.length + 1) s).flatten := by
  cases s with
  | nil => exact absurd rfl hne
  | cons v vs =>
      obtain ⟨c, v, rfl⟩ := List.exists_cons_of_ne_nil (hs v (List.mem_cons_self ..))
      have htail : Solid vs := fun w hw => hs w (List.mem_cons_of_mem _ hw)
      by_cases h : (c :: v).length ≤ n
      · refine ⟨c, v, ?_, h, ?_⟩
        · rw [read, if_pos h, skip, List.length_cons, if_pos le_rfl, Nat.sub_self, skip_zero htail]
        · rw [skip, List.length_cons, if_pos le_rfl, Nat.sub_self, skip_zero htail,
            List.flatten_cons]
      · -- The piece is longer than the buffer.
        obtain ⟨k, rfl⟩ : ∃ k, n = k + 1 := ⟨n - 1, by omega⟩
        rw [List.length_cons] at h
        have hk : (v.take k).length = k := by
          rw [List.length_take]
          omega
        refine ⟨c, v.take k, ?_, ?_, ?_⟩
        · rw [read, List.length_cons, if_neg h, skip, List.length_cons, hk, if_neg h,
            List.take_succ_cons]
        · omega
        · rw [hk, skip, List.length_cons, if_neg h, List.flatten_cons, List.flatten_cons,
            List.drop_succ_cons, List.cons_append, List.cons_append, ← List.append_assoc,
            List.take_append_drop]

open Http.HttpConnection in
/-- The bytes that are missing are the next ones of the stream. -/
theorem readLeft_eq (hs : Solid s) (hbuff : 0 < buffSize) (hleft : left ≤ s.flatten.length)
    (hfuel : left ≤ fuel) :
    readLeft buffSize fuel left body s = (some (body ++ s.flatten.take left), skip left s) := by
  induction fuel generalizing left body s with
  | zero =>
      obtain rfl : left = 0 := by omega
      rw [readLeft, skip_zero hs, List.take_zero, List.append_nil]
  | succ fuel ih =>
      rw [readLeft]
      split
      · next h =>
          subst h
          rw [skip_zero hs, List.take_zero, List.append_nil]
      · next h =>
          have hne : s.flatten ≠ [] := by
            intro hnil
            rw [hnil, List.length_nil] at hleft
            omega
          obtain ⟨c, bs, hread, hle, hflat⟩ := read_eq hs (n := min left buffSize) (by omega) hne
          have hlen : (c :: bs).length ≤ left := by
            rw [List.length_cons]
            omega
          rw [hread]
          show readLeft buffSize fuel (left - (bs.length + 1)) (body ++ c :: bs) _ = _
          rw [hflat, List.length_append, List.length_cons] at hleft
          rw [ih (solid_skip hs) (by omega) (by omega), skip_skip, List.append_assoc, hflat,
            List.take_append, List.take_of_length_le hlen, ← List.length_cons,
            Nat.add_sub_cancel' hlen]

theorem readLoop_eq_readLeft (h : left ≤ buffSize) :
    readLoop fuel left acc s = Http.HttpConnection.readLeft buffSize fuel left acc s := by
  induction fuel generalizing left acc s with
  | zero => rfl
  | succ fuel ih =>
      rw [readLoop, Http.HttpConnection.readLeft, min_eq_left h]
      split
      · rfl
      · cases read left s with
        | mk bs s' =>
            cases bs with
            | nil => rfl
            | cons c bs => exact ih (by omega)

/-- `readFixSize` waits for all the bytes it is asked for. -/
theorem readFixSize_eq (hs : Solid s) (hpos : 0 < left) (hleft : left ≤ s.flatten.length) :
    s.readFixSize left = (toInt32 left, s.flatten.take left, s.skip left) := by
  rw [readFixSize, readLoop_eq_readLeft le_rfl, readLeft_eq hs hpos hleft le_rfl,
    List.nil_append]

end Stream

end Sylar
