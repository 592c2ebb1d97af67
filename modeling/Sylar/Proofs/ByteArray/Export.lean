import Sylar.Proofs.ByteArray.Stream
import Sylar.Proofs.ByteArray.Views

/-!
# `Sylar.Proofs.ByteArray.Export`: `writeToFile`

The loop writes `min(read_size, m_baseSize) - diff` bytes of each block, where `diff` is the offset of
the position in the block. From the beginning of a block that is right (`exportLoop_aligned`). Inside
a block it is right when a whole block of data is left, since the length is then that of the rest of
the block, and the next block is written from its beginning. With less than a block left, the first
length is too short by `diff`, and the loop goes on in the next block (`exports_iff_of_wf`).

`diff` is an `int`, so an offset of 2^31 or more is lost. The sizes are compared as `int64_t`, which
holds them as long as the array has less than 2^63 bytes.
-/

set_option autoImplicit false

namespace Sylar.ByteArray

open Lib

/-! ### The loop -/

/-- The `int` that holds the offset of the position. -/
theorem exportDiff_eq {b p : Nat} (hp : p < 2 ^ 63) (hoff : p % b < 2 ^ 31) :
    toInt32 ((p : Int) % 2 ^ 64 % b) = (p % b : Nat) := by
  have hwide : (p : Int) % 2 ^ 64 = p := Int.emod_eq_of_lt (by omega) (by omega)
  rw [hwide, ← Int.natCast_emod]
  exact toInt32_of_lt (Int.natCast_nonneg _) (by exact_mod_cast hoff)

/-- The length that one round writes. It is negative when less data is left than the offset. -/
theorem exportLen_eq {b n off : Nat} (hb : b < 2 ^ 63) (hn : n < 2 ^ 63) (hoff : off < b) :
    toInt64 ((if toInt64 b < n then (b : Int) else n) - off) = (min b n : Nat) - (off : Int) := by
  have hb64 : toInt64 b = b := toInt64_of_lt (by omega) (by omega)
  have hmin : (if (b : Int) < n then (b : Int) else n) = (min b n : Nat) := by
    split <;> omega
  rw [hb64, hmin]
  exact toInt64_of_lt (by omega) (by omega)

section
variable {b n p cur len off : Nat} {x : Node} {rest : List Node} {iovs : List Iovec}

theorem exportLoop_zero (b : Nat) (nodes : List Node) (cur : Nat) (pos : Int) :
    exportLoop b nodes cur pos 0 = .ok [] := by
  cases nodes <;> rfl

/-- One round that writes `len` bytes. -/
theorem exportLoop_cons (cur : Nat) (rest : List Node) (hn : 0 < n)
    (hoff : toInt32 ((p : Int) % 2 ^ 64 % b) = off)
    (hlen : toInt64 ((if toInt64 b < n then (b : Int) else n) - off) = len)
    (hfit : off + len ≤ x.size) (hle : len ≤ n) :
    exportLoop b (x :: rest) cur p n = (do
      let iovs ← exportLoop b rest (cur + 1) (p + len : Nat) (n - len : Nat)
      .ok (⟨cur, off, len⟩ :: iovs)) := by
  have hpos : (0 : Int) < n := by exact_mod_cast hn
  have hok : (0 : Int) ≤ off ∧ (0 : Int) ≤ len ∧ (off : Int) + len ≤ x.size :=
    ⟨Int.natCast_nonneg _, Int.natCast_nonneg _, by exact_mod_cast hfit⟩
  rw [exportLoop, if_pos hpos]
  simp only [hoff, hlen, if_pos hok, Int.toNat_natCast, Nat.cast_add, Nat.cast_sub hle]

/-- A list that the loop makes begins in the first block and goes on in the next one. -/
theorem of_exportLoop_cons (hn : 0 < n) (hrun : exportLoop b (x :: rest) cur p n = .ok iovs) :
    ∃ off len iovs', toInt32 ((p : Int) % 2 ^ 64 % b) = (off : Nat) ∧
      toInt64 ((if toInt64 b < n then (b : Int) else n) - off) = (len : Nat) ∧
      exportLoop b rest (cur + 1) (p + len : Nat) ((n : Int) - len) = .ok iovs' ∧
      iovs = ⟨cur, off, len⟩ :: iovs' := by
  have hpos : (0 : Int) < n := by exact_mod_cast hn
  rw [exportLoop, if_pos hpos] at hrun
  generalize hdiff : toInt32 ((p : Int) % 2 ^ 64 % b) = diff at hrun ⊢
  simp only at hrun
  generalize hwide : toInt64 ((if toInt64 b < n then (b : Int) else n) - diff) = wide at hrun
  split at hrun
  case isFalse => cases hrun
  case isTrue hok =>
    obtain ⟨hoff, hlen, -⟩ := hok
    lift diff to Nat using hoff
    lift wide to Nat using hlen
    rw [← Nat.cast_add] at hrun
    cases hloop : exportLoop b rest (cur + 1) (p + wide : Nat) ((n : Int) - wide) with
    | error e =>
        rw [hloop] at hrun
        cases hrun
    | ok iovs' =>
        rw [hloop, except_ok_bind] at hrun
        cases hrun
        exact ⟨diff, wide, iovs', rfl, hwide, hloop, rfl⟩

end

section
variable {ba : ByteArray} {nodes : List Node} {iovs : List Iovec} {cur n p : Nat}

/-- From the beginning of a block the loop writes what is left. -/
theorem exportLoop_aligned (hb : 0 < ba.baseSize) (hsmall : ba.baseSize * ba.chain.length < 2 ^ 63) :
    ∀ (nodes : List Node) (cur n : Nat), Uniform ba.baseSize nodes →
      cur + nodes.length = ba.chain.length → n ≤ ba.baseSize * nodes.length →
      ∃ iovs, exportLoop ba.baseSize nodes cur (ba.baseSize * cur : Nat) n = .ok iovs ∧
        Covers ba iovs (ba.baseSize * cur) n := by
  intro nodes
  induction nodes with
  | nil =>
      intro cur n _ _ hroom
      have hn : n = 0 := Nat.le_zero.mp hroom
      subst hn
      exact ⟨[], rfl, rfl⟩
  | cons x rest ih =>
      intro cur n hu hchain hroom
      rw [List.length_cons] at hroom hchain
      rcases Nat.eq_zero_or_pos n with rfl | hn
      · exact ⟨[], exportLoop_zero .., rfl⟩
      · have hcap : ba.baseSize * ba.chain.length
            = ba.baseSize * cur + (ba.baseSize * rest.length + ba.baseSize) := by
          rw [← hchain, Nat.mul_add, Nat.mul_succ]
        rw [Nat.mul_succ] at hroom
        have hcur : cur < ba.chain.length := by omega
        have hsize : x.size = ba.baseSize := hu.head
        have hdiff :
            toInt32 (((ba.baseSize * cur : Nat) : Int) % 2 ^ 64 % ba.baseSize) = (0 : Nat) := by
          have hmod : ba.baseSize * cur % ba.baseSize = 0 := Nat.mul_mod_right ..
          rw [exportDiff_eq (by omega) (by omega), hmod]
        -- a whole block, or what is left of the data
        have hlen : toInt64 ((if toInt64 ba.baseSize < n then (ba.baseSize : Int) else n) - (0 : Nat))
            = (min ba.baseSize n : Nat) := by
          rw [exportLen_eq (by omega) (by omega) hb]
          exact Int.sub_zero _
        have hround := exportLoop_cons cur rest hn hdiff hlen
          (show 0 + min ba.baseSize n ≤ x.size by omega) (Nat.min_le_right _ _)
        by_cases hlast : n ≤ ba.baseSize
        · rw [Nat.min_eq_right hlast, Nat.sub_self, Nat.cast_zero, exportLoop_zero] at hround
          exact ⟨_, hround, hcur, by simpa using hlast, rfl, Nat.le_refl n, Nat.sub_self n⟩
        · have hfull : ba.baseSize ≤ n := Nat.le_of_not_le hlast
          obtain ⟨iovs, hloop, hcovers⟩ :=
            ih (cur + 1) (n - ba.baseSize) hu.tail (by omega) (by omega)
          rw [Nat.mul_succ] at hloop hcovers
          rw [Nat.min_eq_left hfull, hloop, except_ok_bind] at hround
          exact ⟨_, hround, hcur, by simp, rfl, hfull, hcovers⟩

/-- Inside a block, with a whole block of data left, the loop writes the rest of the block and goes
on at the beginning of the next one. -/
theorem exportLoop_inside {x : Node} {rest : List Node} (hb : 0 < ba.baseSize)
    (hsmall : ba.baseSize * ba.chain.length < 2 ^ 63) (hu : Uniform ba.baseSize (x :: rest))
    (hchain : cur + (x :: rest).length = ba.chain.length)
    (hp : p = ba.baseSize * cur + p % ba.baseSize) (hint : p % ba.baseSize < 2 ^ 31)
    (hfull : ba.baseSize ≤ n) (hroom : p + n ≤ ba.baseSize * ba.chain.length) :
    ∃ iovs, exportLoop ba.baseSize (x :: rest) cur p n = .ok iovs ∧ Covers ba iovs p n := by
  have hmod := Nat.mod_lt p hb
  have hsize : x.size = ba.baseSize := hu.head
  rw [List.length_cons] at hchain
  have hcur : cur < ba.chain.length := by omega
  have hnext : p + (ba.baseSize - p % ba.baseSize) = ba.baseSize * (cur + 1) := by
    rw [Nat.mul_succ]
    omega
  have hcap : ba.baseSize * ba.chain.length
      = ba.baseSize * (cur + 1) + ba.baseSize * rest.length := by
    rw [← Nat.mul_add]
    congr 1
    omega
  obtain ⟨iovs, hloop, hcovers⟩ := exportLoop_aligned hb hsmall rest (cur + 1)
    (n - (ba.baseSize - p % ba.baseSize)) hu.tail (by omega) (by omega)
  have hfit : p % ba.baseSize + (ba.baseSize - p % ba.baseSize) ≤ x.size := by omega
  have hle : ba.baseSize - p % ba.baseSize ≤ n := by omega
  have hdiff := exportDiff_eq (p := p) (b := ba.baseSize) (by omega) hint
  have hlen := exportLen_eq (b := ba.baseSize) (n := n) (by omega) (by omega) hmod
  rw [Nat.min_eq_left hfull, ← Nat.cast_sub (Nat.le_of_lt hmod)] at hlen
  have hround := exportLoop_cons cur rest (Nat.lt_of_lt_of_le hb hfull) hdiff hlen
    hfit hle
  rw [hnext, hloop, except_ok_bind] at hround
  rw [hsize] at hfit
  refine ⟨_, hround, hcur, hfit, hp.symm, hle, ?_⟩
  show Covers ba iovs (p + (ba.baseSize - p % ba.baseSize)) _
  rw [hnext]
  exact hcovers

/-- Inside a block, only that case writes the data. -/
theorem le_of_exportLoop_covers {x : Node} {rest : List Node} (hb : ba.baseSize < 2 ^ 63)
    (hbpos : 0 < ba.baseSize) (hn : 0 < n) (hn63 : n < 2 ^ 63)
    (hp : p = ba.baseSize * cur + p % ba.baseSize) (hinside : 0 < p % ba.baseSize)
    (hrun : exportLoop ba.baseSize (x :: rest) cur p n = .ok iovs) (hcovers : Covers ba iovs p n) :
    p % ba.baseSize < 2 ^ 31 ∧ ba.baseSize ≤ n := by
  have hmod := Nat.mod_lt p hbpos
  obtain ⟨off, len, iovs', hdiff, hlen, hrun', rfl⟩ := of_exportLoop_cons hn hrun
  obtain ⟨-, -, hstart, -, hcovers'⟩ := hcovers
  -- the first write begins at the position, so that `diff` is its offset
  have hoff : off = p % ba.baseSize := by
    simp only at hstart
    omega
  have hint : (off : Int) < 2147483648 := by
    rw [← hdiff]
    exact (isInt_toInt32 _).high
  refine ⟨by omega, ?_⟩
  by_contra hshort
  rw [exportLen_eq hb hn63 (by omega), Nat.min_eq_right (by omega)] at hlen
  -- what is left is not written from the block it lies in
  have hleft : n - len = off := by omega
  have hcast : (n : Int) - len = off := by omega
  rw [hcast] at hrun'
  simp only [hleft] at hcovers'
  cases rest with
  | nil =>
      have hpos : (0 : Int) < off := by omega
      rw [exportLoop, if_pos hpos] at hrun'
      cases hrun'
  | cons y rest =>
      obtain ⟨off', len', iovs'', -, -, -, rfl⟩ := of_exportLoop_cons (by omega) hrun'
      obtain ⟨-, -, hstart', -⟩ := hcovers'
      simp only [Nat.mul_succ] at hstart'
      omega

end

/-! ### The file read back -/

/-- `readFromFile` refines one write of the contents. -/
theorem refines_readFileLoop (mem : Nat → Nat → UInt8) :
    ∀ (fuel : Nat) (contents : List UInt8) (ba : ByteArray) (fb : FlatBuffer), Refines ba fb →
      contents.length < fuel →
      ∃ ba', readFileLoop mem fuel contents ba = .ok () ba' ∧ Refines ba' (fb.write contents) := by
  intro fuel
  induction fuel with
  | zero => intro contents ba fb _ hfuel; omega
  | succ fuel ih =>
      intro contents ba fb h hfuel
      have hpos := h.wf.base_pos
      obtain ⟨ba₁, hwrite, h₁, -⟩ := refines_write h mem (contents.take ba.baseSize)
      rw [readFileLoop, estate_bind_ok (estate_get ba), estate_bind_ok hwrite]
      by_cases hshort : contents.length < ba.baseSize
      · rw [if_pos hshort]
        rw [List.take_of_length_le (Nat.le_of_lt hshort)] at h₁
        exact ⟨ba₁, rfl, h₁⟩
      · rw [if_neg hshort]
        obtain ⟨ba', hrun, h'⟩ := ih (contents.drop ba.baseSize) ba₁ _ h₁ (by
          rw [List.length_drop]
          omega)
        rw [FlatBuffer.write_write, List.take_append_drop] at h'
        exact ⟨ba', hrun, h'⟩

/-- An array that reads a file and goes back to its beginning shows the contents. -/
theorem toString_readFromFile (mem : Nat → Nat → UInt8) {b : Nat} (hb : 1 ≤ b)
    (contents : List UInt8) :
    ∃ ba₁ ba₂, readFromFile mem (some contents) (new mem b) = .ok true ba₁ ∧
      setPosition 0 ba₁ = .ok () ba₂ ∧ toString ba₂ = .ok contents := by
  obtain ⟨ba₁, hrun₁, h₁⟩ := refines_readFileLoop mem (contents.length + 1) contents _ _
    (refines_new mem hb) (Nat.lt_succ_self _)
  obtain ⟨fb₂, ba₂, hset, hrun₂, h₂⟩ := refines_setPosition h₁ (Nat.zero_le _)
  have hdata : fb₂.data = contents := by
    rw [FlatBuffer.setPosition, dif_pos (Nat.zero_le _)] at hset
    cases hset
    show splice [] 0 contents = contents
    simp [splice]
  have hpos : ba₂.position = 0 := by
    rw [FlatBuffer.setPosition, dif_pos (Nat.zero_le _)] at hset
    cases hset
    exact h₂.pos_eq.symm
  refine ⟨ba₁, ba₂, estate_bind_ok hrun₁, hrun₂, ?_⟩
  rw [toString_eq h₂.wf, h₂.wf.getReadSize_eq, hpos, List.drop_zero, Nat.sub_zero, ← h₂.data_eq,
    hdata]

/-! ### The condition -/

section
variable {ba : ByteArray}

theorem writeToFile_eq_iff {iovs : List Iovec} (hsmall : ba.getReadSize < 2 ^ 63) :
    writeToFile true ba = .ok (true, iovs) ↔
      exportLoop ba.baseSize ba.fromCur (ba.cur.getD 0) ba.position ba.getReadSize = .ok iovs := by
  have hread : toInt64 ba.getReadSize = ba.getReadSize := toInt64_of_lt (by omega) (by omega)
  unfold writeToFile
  rw [hread]
  cases exportLoop ba.baseSize ba.fromCur (ba.cur.getD 0) ba.position ba.getReadSize with
  | error e => exact iff_of_false (fun h => nomatch h) (fun h => nomatch h)
  | ok iovs' =>
      constructor
      · intro h
        cases h
        rfl
      · intro h
        cases h
        rfl

/-- The writes cover the data from the position on if and only if there is none, or the position is
at the beginning of a block, or an `int` holds its offset and a whole block of data is left. -/
theorem covers_writeToFile_iff (h : Wf ba) (hsmall : ba.capacity < 2 ^ 63) :
    (∃ iovs, writeToFile true ba = .ok (true, iovs) ∧
      Covers ba iovs ba.position ba.getReadSize) ↔
      ba.getReadSize = 0 ∨ ba.position % ba.baseSize = 0 ∨
        ba.position % ba.baseSize < 2 ^ 31 ∧ ba.baseSize ≤ ba.getReadSize := by
  have hb := h.base_pos
  have hread := h.getReadSize_eq
  have hpos := h.pos_le
  have hsize := h.size_le
  have hcapeq := h.cap_eq
  have hblock := Nat.mul_le_mul_left ba.baseSize h.chain_pos
  simp only [writeToFile_eq_iff (show ba.getReadSize < 2 ^ 63 by omega)]
  rcases Nat.eq_zero_or_pos ba.getReadSize with hzero | hn
  · rw [hzero]
    exact iff_of_true ⟨[], exportLoop_zero .., rfl⟩ (.inl rfl)
  · obtain ⟨k, x, rest, hc⟩ := h.atCur (by omega)
    have hp := hc.position_eq
    have hlength := hc.length_chain
    have hu := hc.uniform_from h
    rw [hc.from_eq, hc.cur_eq, Option.getD_some, or_iff_right (Nat.ne_of_gt hn)]
    by_cases hzero : ba.position % ba.baseSize = 0
    · refine iff_of_true ?_ (.inl hzero)
      have hbegin : ba.position = ba.baseSize * k := by omega
      rw [hlength, Nat.mul_add] at hcapeq
      rw [hbegin]
      exact exportLoop_aligned hb (h.cap_eq ▸ hsmall) (x :: rest) k ba.getReadSize hu hlength.symm
        (by omega)
    · rw [or_iff_right hzero]
      constructor
      · rintro ⟨iovs, hrun, hcovers⟩
        exact le_of_exportLoop_covers (by omega) hb hn (by omega) hp (Nat.pos_of_ne_zero hzero) hrun
          hcovers
      · rintro ⟨hint, hfull⟩
        exact exportLoop_inside hb (h.cap_eq ▸ hsmall) hu hlength.symm hp hint hfull (by omega)

theorem exports_iff_of_wf (h : Wf ba) (hsmall : ba.capacity < 2 ^ 63) :
    ExportsExactly ba ↔
      ba.getReadSize = 0 ∨ ba.position % ba.baseSize = 0 ∨
        ba.position % ba.baseSize < 2 ^ 31 ∧ ba.baseSize ≤ ba.getReadSize := by
  rw [← covers_writeToFile_iff h hsmall]
  constructor
  · rintro ⟨iovs, hrun, hcovers, -⟩
    exact ⟨iovs, hrun, hcovers⟩
  · rintro ⟨iovs, hrun, hcovers⟩
    refine ⟨iovs, hrun, hcovers, fun mem b hb => ?_⟩
    rw [toString_eq h, ← hcovers.gather_eq h]
    exact toString_readFromFile mem hb _

/-- `writeToFile` writes the data from the position on, and the file can be read back, if and only if
there is no data left, or the position is at the beginning of a block, or an `int` holds its offset
and a whole block of data is left. -/
theorem exports_iff (mem : Nat → Nat → UInt8) (b : Nat) (hb : 1 ≤ b) (hreach : Reachable mem b ba)
    (hsmall : ba.capacity < 2 ^ 63) :
    ExportsExactly ba ↔
      ba.getReadSize = 0 ∨ ba.position % b = 0 ∨
        ba.position % b < 2 ^ 31 ∧ b ≤ ba.getReadSize := by
  obtain ⟨hwf, rfl⟩ := hreach.wf hb
  exact exports_iff_of_wf hwf hsmall

end

/-- Five bytes in blocks of two, from the second one on. -/
theorem exports_inside_block : ∃ ba, Reachable (fun _ _ => 0) 2 ba ∧ ba.position = 1 ∧
    ba.size = 5 ∧ ExportsExactly ba :=
  have hreach : Reachable (fun _ _ => 0) 2 _ := ⟨[.write [1, 2, 3, 4, 5], .setPosition 1], rfl⟩
  ⟨_, hreach, rfl, rfl, (exports_iff (fun _ _ => 0) 2 (by decide) hreach (by decide)).mpr
    (.inr (.inr (by decide)))⟩

/-- Three bytes in a block of four: from the second one on, one byte is written and then a null
pointer is read. From the third one on, a negative length is passed. -/
theorem export_short :
    (∃ ba, Reachable (fun _ _ => 0) 4 ba ∧ ba.position = 1 ∧ ba.size = 3 ∧
      writeToFile true ba = .error .nullNode ∧ ¬ ExportsExactly ba) ∧
    ∃ ba, Reachable (fun _ _ => 0) 4 ba ∧ ba.position = 2 ∧ ba.size = 3 ∧
      writeToFile true ba = .error .overrun ∧ ¬ ExportsExactly ba := by
  refine ⟨⟨_, ⟨[.write [1, 2, 3], .setPosition 1], rfl⟩, rfl, rfl, by decide, ?_⟩,
    ⟨_, ⟨[.write [1, 2, 3], .setPosition 2], rfl⟩, rfl, rfl, by decide, ?_⟩⟩
  · rintro ⟨iovs, hrun, -⟩
    have hnull : ∀ ba : ByteArray, writeToFile true ba = .error .nullNode →
        writeToFile true ba ≠ .ok (true, iovs) := fun ba h h' => nomatch h.symm.trans h'
    exact hnull _ (by decide) hrun
  · rintro ⟨iovs, hrun, -⟩
    have hoverrun : ∀ ba : ByteArray, writeToFile true ba = .error .overrun →
        writeToFile true ba ≠ .ok (true, iovs) := fun ba h h' => nomatch h.symm.trans h'
    exact hoverrun _ (by decide) hrun

end Sylar.ByteArray
