import Sylar.Proofs.ByteArray.Segments

/-!
# `Sylar.Proofs.ByteArray.Views`: what the `const` functions show

`read(buf, size, position)` computes its bound with a difference that wraps when the position is
beyond `m_size`, and starts in the block of `m_cur`. `readAt_eq` says what it yields: the bytes at
the offset of `position` in that block. So it does what it says when those bytes are the bytes asked
for, and in particular in the block of `m_position` (`readsAt_iff`). `toString` calls it there.

`getReadBuffers(buffers, len)` covers the bytes that `toString` returns and `read` delivers
(`gather_read_eq`). The form with a position finds the right block, and takes its bound from
`m_position`. So it hands out what it should when the two bounds agree (`readBuffersAt_iff`).
-/

set_option autoImplicit false

namespace Sylar.ByteArray

section
variable {ba : ByteArray}

/-! ### The read at a position -/

/-- The loop of `read` runs into the null pointer behind the last block. -/
theorem readLoop_null {b : Nat} (hb : 0 < b) : ∀ (nodes : List Node) (cur position npos size : Nat),
    Uniform b nodes → npos < b → 0 < nodes.length → b * nodes.length < npos + size →
    readLoop nodes cur position npos (b - npos) size = .error .nullNode := by
  intro nodes
  induction nodes with
  | nil =>
      intro cur position npos size _ _ hpos
      exact absurd hpos (Nat.lt_irrefl 0)
  | cons n rest ih =>
      intro cur position npos size hu hnpos _ hroom
      have hn : n.size = b := hu.head
      rw [List.length_cons, Nat.mul_succ] at hroom
      unfold readLoop
      rw [if_neg (by omega), if_neg (by omega), load_ok (by omega), Lib.except_ok_bind]
      cases rest with
      | nil => rfl
      | cons m rest =>
          have hloop := ih (cur + 1) (position + (b - npos)) 0 (size - (b - npos)) hu.tail hb
            (Nat.succ_pos _) (by omega)
          rw [Nat.sub_zero] at hloop
          simp only [List.head?_cons, hu.tail.head, hloop]
          rfl

/-- What the read at a position yields when it does not throw. -/
theorem readAt_eq (h : Wf ba) {size position : Nat} (hsize : size ≤ subSize ba.size position) :
    readAt size position ba =
      if ba.position < ba.capacity ∧ ba.curStart position + size ≤ ba.capacity then
        .ok ((ba.bytes.drop (ba.curStart position)).take size)
      else .error .nullNode := by
  unfold readAt
  rw [if_neg (Nat.not_lt.mpr hsize)]
  by_cases hlt : ba.position < ba.capacity
  · obtain ⟨k, n, rest, hc⟩ := h.atCur hlt
    have hmod := Nat.mod_lt position h.base_pos
    have hu := hc.uniform_from h
    have hncap : subSize n.size (position % ba.baseSize)
        = ba.baseSize - position % ba.baseSize := by
      rw [hu.head, subSize_of_le (Nat.le_of_lt hmod)]
    have hstart : ba.curStart position = ba.baseSize * k + position % ba.baseSize := by
      have hdiv : ba.position / ba.baseSize = k := by
        rw [hc.position_eq, Nat.mul_add_div h.base_pos,
          Nat.div_eq_of_lt (Nat.mod_lt _ h.base_pos), Nat.add_zero]
      rw [curStart, hdiv]
    -- the room behind the block of `m_cur` is the room behind the place in the chain
    have hcap : ba.capacity = ba.baseSize * k + ba.baseSize * (n :: rest).length := by
      rw [h.cap_eq, hc.length_chain, Nat.mul_add]
    simp only [hc.cur_eq, hc.from_eq, hncap]
    by_cases hroom : ba.curStart position + size ≤ ba.capacity
    · have hloop := readLoop_ok h.base_pos (n :: rest) k position (position % ba.baseSize) size hu
        hmod (Nat.succ_pos _) (by omega)
      have hbefore : (flat ba.beforeCur).length = ba.baseSize * k := by
        rw [(hc.uniform_before h).length_flat, hc.before_length]
      have hdrop : ba.bytes.drop (ba.curStart position)
          = (flat (n :: rest)).drop (position % ba.baseSize) := by
        show (flat ba.chain).drop _ = _
        rw [hstart, hc.chain_eq, flat_append, ← hbefore, List.drop_length_add_append]
      rw [if_pos ⟨hlt, hroom⟩, hloop, hdrop]
      rfl
    · rw [if_neg fun hboth => hroom hboth.2, readLoop_null h.base_pos (n :: rest) k position
        (position % ba.baseSize) size hu hmod (Nat.succ_pos _) (by omega)]
      rfl
  · -- `m_cur` is null
    have hend : ba.position = ba.capacity :=
      Nat.le_antisymm (Nat.le_trans h.pos_le h.size_le) (Nat.le_of_not_lt hlt)
    have hcur : ba.cur = none := by
      rw [h.cur_eq, hend, h.cap_eq]
      exact if_pos rfl
    rw [if_neg fun hboth => hlt hboth.1]
    simp only [hcur]

/-- The place in the block of `m_cur` is the current position for the current position. -/
theorem curStart_position (ba : ByteArray) : ba.curStart ba.position = ba.position :=
  Nat.div_add_mod ba.position ba.baseSize

/-- Beyond the data the wrapped difference decides, and inside it the block of `m_cur`. -/
theorem readsAt_iff_of_wf (h : Wf ba) (size position : Nat) :
    ReadsAt ba size position ↔
      if ba.size < position then ba.size + 2 ^ 64 - position < size
      else ba.size - position < size ∨
        ba.position < ba.capacity ∧
          (ba.bytes.drop (ba.curStart position)).take size
            = (ba.bytes.drop position).take size := by
  unfold ReadsAt
  by_cases hbeyond : ba.size < position
  · have hsub : subSize ba.size position = ba.size + 2 ^ 64 - position :=
      if_neg (Nat.not_le.mpr hbeyond)
    rw [if_pos (.inl hbeyond), if_pos hbeyond, ← hsub]
    constructor
    · intro hrun
      by_contra hle
      rw [readAt_eq h (Nat.le_of_not_lt hle)] at hrun
      split at hrun <;> cases hrun
    · exact fun hlt => if_pos hlt
  · have hsub : subSize ba.size position = ba.size - position :=
      if_pos (Nat.le_of_not_lt hbeyond)
    rw [if_neg hbeyond]
    by_cases hmore : ba.size - position < size
    · rw [if_pos (.inr hmore)]
      exact iff_of_true (if_pos (hsub ▸ hmore)) (.inl hmore)
    · have hle := h.size_le
      have hlen := h.length_bytes
      rw [if_neg (not_or.mpr ⟨hbeyond, hmore⟩), readAt_eq h (by omega), or_iff_right hmore]
      constructor
      · intro hrun
        split at hrun
        case isTrue hroom => exact ⟨hroom.1, Except.ok.inj hrun⟩
        case isFalse => cases hrun
      · rintro ⟨hlt, hbytes⟩
        -- the bytes asked for are all there, so those in the block of `m_cur` are too
        have hroom : ba.curStart position + size ≤ ba.capacity := by
          have hstart : ba.curStart position ≤ ba.capacity := by
            have hcur := (Lib.cursor_eq_some (h.cap_eq ▸ hlt)).2
            have hmod := Nat.mod_lt position h.base_pos
            have hblock := Nat.mul_le_mul_left ba.baseSize hcur
            rw [Nat.mul_succ] at hblock
            rw [curStart, h.cap_eq]
            omega
          have hcount := congrArg List.length hbytes
          rw [List.length_take, List.length_take, List.length_drop, List.length_drop] at hcount
          omega
        rw [if_pos ⟨hlt, hroom⟩, hbytes]

end

section
variable {ba : ByteArray} (mem : Nat → Nat → UInt8) (b : Nat) (hb : 1 ≤ b)
  (hreach : Reachable mem b ba)
include hb hreach

/-- `read(buf, size, position)` does what it says if and only if one of these holds. The position
lies beyond the data and the difference of `m_size` and the position, which wraps, is below `size`.
The position lies inside and fewer than `size` bytes follow. Or `m_cur` is not null and the bytes from
the offset of the position in its block on are those from the position on. -/
theorem readsAt_iff (size position : Nat) :
    ReadsAt ba size position ↔
      if ba.size < position then ba.size + 2 ^ 64 - position < size
      else ba.size - position < size ∨
        ba.position < ba.capacity ∧
          (ba.bytes.drop (ba.curStart position)).take size
            = (ba.bytes.drop position).take size :=
  readsAt_iff_of_wf (hreach.wf hb).1 size position

end

/-- Four bytes in blocks of two: the second byte of the block of the position is read, and nine bytes
are too many. -/
theorem readsAt_same_block : ∃ ba, Reachable (fun _ _ => 0) 2 ba ∧ ba.position = 2 ∧
    ReadsAt ba 1 3 ∧ readAt 1 3 ba = .ok [4] ∧ ReadsAt ba 9 3 :=
  have hreach : Reachable (fun _ _ => 0) 2 _ := ⟨[.write [1, 2, 3, 4], .setPosition 2], rfl⟩
  ⟨_, hreach, rfl, (readsAt_iff (fun _ _ => 0) 2 (by decide) hreach 1 3).mpr (by decide), rfl,
    (readsAt_iff (fun _ _ => 0) 2 (by decide) hreach 9 3).mpr (by decide)⟩

/-- From the first block the third byte is taken for the first, a byte beyond the data is read
without an exception, and behind a full block a null pointer is read. -/
theorem read_at_other_block :
    (∃ ba, Reachable (fun _ _ => 0) 2 ba ∧ ba.bytes = [1, 2, 3, 4] ∧ readAt 1 2 ba = .ok [1] ∧
      ¬ ReadsAt ba 1 2 ∧ ba.size < 5 ∧ readAt 1 5 ba = .ok [2] ∧ ¬ ReadsAt ba 1 5) ∧
    ∃ ba, Reachable (fun _ _ => 0) 2 ba ∧ ba.size = 2 ∧ readAt 1 0 ba = .error .nullNode := by
  refine ⟨⟨_, ⟨[.write [1, 2, 3, 4], .setPosition 0], rfl⟩, rfl, rfl, ?_, by decide, rfl, ?_⟩,
    ⟨_, ⟨[.write [1, 2]], rfl⟩, rfl, rfl⟩⟩
  · unfold ReadsAt
    decide
  · unfold ReadsAt
    decide

/-! ### `getReadBuffers` and `toString` -/

section
variable {ba : ByteArray}

theorem clampLen_eq (ba : ByteArray) (len : Nat) : ba.clampLen len = min len ba.getReadSize := by
  rw [clampLen, Nat.min_def]
  split <;> split <;> omega

theorem getReadBuffers_ok (h : Wf ba) (len : Nat) :
    ∃ iovs, getReadBuffers len ba = .ok (iovs, min len ba.getReadSize) ∧
      Covers ba iovs ba.position (min len ba.getReadSize) := by
  have hread := h.getReadSize_eq
  have hpos := h.pos_le
  have hsize := h.size_le
  unfold getReadBuffers
  rw [clampLen_eq]
  generalize hlen : min len ba.getReadSize = n
  by_cases hzero : n = 0
  · subst hzero
    exact ⟨[], if_pos rfl, rfl⟩
  · obtain ⟨k, m, rest, hc⟩ := h.atCur (by omega)
    obtain ⟨iovs, hloop, hcovers, -⟩ := hc.iovLoop_covers h n (by omega)
    refine ⟨iovs, ?_, hcovers⟩
    simp only [if_neg hzero, hc.cur_eq, hc.from_eq, hloop, Lib.except_ok_bind]

theorem toString_eq (h : Wf ba) :
    toString ba = .ok ((ba.bytes.drop ba.position).take ba.getReadSize) := by
  have hread := h.getReadSize_eq
  have hpos := h.pos_le
  have hsize := h.size_le
  unfold toString
  by_cases hzero : ba.getReadSize = 0
  · rw [if_pos hzero, hzero, List.take_zero]
  · rw [if_neg hzero, readAt_eq h (show ba.getReadSize ≤ subSize ba.size ba.position from
      Nat.le_refl _), curStart_position, if_pos ⟨by omega, by omega⟩]

end

section
variable {ba : ByteArray} (mem : Nat → Nat → UInt8) (b : Nat) (hb : 1 ≤ b)
  (hreach : Reachable mem b ba)
include hb hreach

/-- The `iovec`s of `getReadBuffers` cover what `toString` returns, up to the length asked for, and
what `read` delivers. Neither reads a null pointer. -/
theorem gather_read_eq (len : Nat) :
    ∃ iovs s, getReadBuffers len ba = .ok (iovs, min len ba.getReadSize) ∧ toString ba = .ok s ∧
      s.length = ba.getReadSize ∧ gather ba.chain iovs = s.take (min len ba.getReadSize) ∧
      (0 < min len ba.getReadSize →
        ∃ ba', read (min len ba.getReadSize) ba = .ok (gather ba.chain iovs) ba') := by
  obtain ⟨h, -⟩ := hreach.wf hb
  have hread := h.getReadSize_eq
  have hpos := h.pos_le
  have hsize := h.size_le
  obtain ⟨iovs, hrun, hcovers⟩ := getReadBuffers_ok h len
  have hgather := hcovers.gather_eq h
  refine ⟨iovs, _, hrun, toString_eq h, ?_, ?_, fun hlen => ?_⟩
  · rw [List.length_take, List.length_drop, h.length_bytes]
    omega
  · rw [hgather, List.take_take, Nat.min_assoc, Nat.min_self]
  · obtain ⟨cur, hrun', -⟩ := read_ok h (Nat.min_le_right len _) (by omega)
    exact ⟨_, hgather ▸ hrun'⟩

end

/-- Five bytes in blocks of two, from the second one on. -/
theorem gather_read_two_blocks : ∃ ba iovs, Reachable (fun _ _ => 0) 2 ba ∧
    getReadBuffers 3 ba = .ok (iovs, 3) ∧ iovs.length = 2 ∧
    toString ba = .ok [2, 3, 4, 5] ∧ gather ba.chain iovs = [2, 3, 4] := by
  have hreach : Reachable (fun _ _ => 0) 2 _ := ⟨[.write [1, 2, 3, 4, 5], .setPosition 1], rfl⟩
  obtain ⟨iovs, s, hrun, hs, -, hgather, -⟩ := gather_read_eq (fun _ _ => 0) 2 (by decide) hreach 3
  cases hrun
  cases hs
  exact ⟨_, _, hreach, rfl, rfl, rfl, hgather⟩

/-! ### `getReadBuffers` at a position -/

section
variable {ba : ByteArray}

/-- The returned length is bounded by the bytes behind `m_position`. -/
theorem of_getReadBuffersAt_ok {len position r : Nat} {iovs : List Iovec}
    (hrun : getReadBuffersAt len position ba = .ok (iovs, r)) : r = min len ba.getReadSize := by
  unfold getReadBuffersAt at hrun
  rw [clampLen_eq] at hrun
  generalize min len ba.getReadSize = n at hrun
  by_cases hzero : n = 0
  · rw [if_pos hzero] at hrun
    cases hrun
    exact hzero.symm
  · simp only [if_neg hzero] at hrun
    split at hrun
    · cases hloop : iovLoop _ _ _ _ n with
      | error e =>
          rw [hloop] at hrun
          cases hrun
      | ok iovs' =>
          rw [hloop, Lib.except_ok_bind] at hrun
          cases hrun
          rfl
    · cases hrun

theorem readBuffersAt_iff_of_wf (h : Wf ba) {len position : Nat} (hpos : position ≤ ba.size) :
    ReadBuffersAt ba len position ↔
      min len (ba.size - ba.position) = min len (ba.size - position) := by
  have hsize := h.size_le
  rw [← h.getReadSize_eq]
  constructor
  · rintro ⟨iovs, hrun, -⟩
    exact (of_getReadBuffersAt_ok hrun).symm
  · intro hsame
    unfold ReadBuffersAt getReadBuffersAt
    rw [clampLen_eq, hsame]
    generalize hlen : min len (ba.size - position) = n
    by_cases hzero : n = 0
    · subst hzero
      exact ⟨[], if_pos rfl, rfl⟩
    · -- some byte lies behind the position, so its block is there
      have hlt : position < ba.baseSize * ba.chain.length := by
        rw [← h.cap_eq]
        omega
      have hk : position / ba.baseSize < ba.chain.length := Nat.div_lt_of_lt_mul hlt
      have hmod := Nat.mod_lt position h.base_pos
      have hdrop := List.drop_eq_getElem_cons hk
      have hu : Uniform ba.baseSize (ba.chain.drop (position / ba.baseSize)) :=
        fun m hm => h.uniform m (List.mem_of_mem_drop hm)
      have hcount : (ba.chain.drop (position / ba.baseSize)).length
          = ba.chain.length - position / ba.baseSize := List.length_drop
      have hroom : position % ba.baseSize + n
          ≤ ba.baseSize * (ba.chain.drop (position / ba.baseSize)).length := by
        have hdiv := Nat.div_add_mod position ba.baseSize
        have hcap := h.cap_eq
        rw [hcount, Nat.mul_sub]
        omega
      obtain ⟨iovs, hloop, hcovers, -⟩ := iovLoop_covers h.base_pos _ (position / ba.baseSize)
        (position % ba.baseSize) n hu hmod (by omega) hroom (by omega)
      rw [Nat.div_add_mod] at hcovers
      have hncap : subSize (ba.chain[position / ba.baseSize]).size (position % ba.baseSize)
          = ba.baseSize - position % ba.baseSize := by
        rw [h.uniform _ (List.getElem_mem hk), subSize_of_le (Nat.le_of_lt hmod)]
      rw [hdrop] at hloop
      refine ⟨iovs, ?_, hcovers⟩
      simp only [if_neg hzero, hdrop, hncap, hloop, Lib.except_ok_bind]

end

section
variable {ba : ByteArray} (mem : Nat → Nat → UInt8) (b : Nat) (hb : 1 ≤ b)
  (hreach : Reachable mem b ba)
include hb hreach

/-- `getReadBuffers(buffers, len, position)` returns what it should and covers it if and only if the
bytes behind `m_position` bound the length as those behind `position` do. -/
theorem readBuffersAt_iff (len position : Nat) (hpos : position ≤ ba.size) :
    ReadBuffersAt ba len position ↔
      min len (ba.size - ba.position) = min len (ba.size - position) :=
  readBuffersAt_iff_of_wf (hreach.wf hb).1 hpos

end

/-- Two bytes across a boundary of blocks, with the position elsewhere in the data. -/
theorem readBuffersAt_across : ∃ ba, Reachable (fun _ _ => 0) 2 ba ∧ ba.position = 0 ∧
    ReadBuffersAt ba 2 1 :=
  have hreach : Reachable (fun _ _ => 0) 2 _ := ⟨[.write [1, 2, 3, 4, 5], .setPosition 0], rfl⟩
  ⟨_, hreach, rfl, (readBuffersAt_iff (fun _ _ => 0) 2 (by decide) hreach 2 1 (by decide)).mpr rfl⟩

/-- From the position 0 two bytes are handed out at 4, where the data has one, and from the end of
the data none at 0. -/
theorem read_buffers_at_bound :
    (∃ ba, Reachable (fun _ _ => 9) 2 ba ∧ ba.size = 5 ∧
      getReadBuffersAt 2 4 ba = .ok ([⟨2, 0, 2⟩], 2) ∧ ¬ ReadBuffersAt ba 2 4) ∧
    ∃ ba, Reachable (fun _ _ => 9) 2 ba ∧ ba.size = 5 ∧
      getReadBuffersAt 2 0 ba = .ok ([], 0) ∧ ¬ ReadBuffersAt ba 2 0 := by
  refine ⟨⟨_, ⟨[.write [1, 2, 3, 4, 5], .setPosition 0], rfl⟩, rfl, rfl, ?_⟩,
    ⟨_, ⟨[.write [1, 2, 3, 4, 5]], rfl⟩, rfl, rfl, ?_⟩⟩
  · rintro ⟨iovs, hrun, -⟩
    cases hrun
  · rintro ⟨iovs, hrun, -⟩
    cases hrun

end Sylar.ByteArray
