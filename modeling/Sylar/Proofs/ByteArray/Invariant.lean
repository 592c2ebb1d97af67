import Sylar.Proofs.ByteArray.Loops

/-!
# `Sylar.Proofs.ByteArray.Invariant`: the representation invariant

`Wf` relates the five fields that the operations of a `ByteArray` move one by one: the position
lies in the data, the data in the capacity, the capacity is that of the chain, and `m_cur` is
the block of the position. `m_cur` is null at the position after the last block and nowhere
else. `addCapacity` repairs it there.

Each operation has one lemma: it returns from a state with `Wf`, and `Wf` holds again. The
lemmas of `write` and `read` also say what happens to the bytes (`write_ok`, `read_ok`). They
are what the later modules use.

`wf_exec` closes the induction over the calls. `read` of no bytes is the one call that can
leave the defined behaviour: it reads `m_cur->size`, and `m_cur` is null at the end of the chain
(`step_eq_none_iff`).
-/

set_option autoImplicit false

namespace Sylar.ByteArray

open Lib (cursor splice)

/-- The representation invariant. -/
structure Wf (ba : ByteArray) : Prop where
  base_pos : 0 < ba.baseSize
  pos_le : ba.position ≤ ba.size
  size_le : ba.size ≤ ba.capacity
  uniform : Uniform ba.baseSize ba.chain
  chain_pos : 0 < ba.chain.length
  cap_eq : ba.capacity = ba.baseSize * ba.chain.length
  cur_eq : ba.cur = cursor ba.baseSize ba.chain.length 0 ba.position

section
variable {ba : ByteArray}

theorem Wf.getReadSize_eq (h : Wf ba) : ba.getReadSize = ba.size - ba.position :=
  subSize_of_le h.pos_le

theorem Wf.getCapacity_eq (h : Wf ba) : ba.getCapacity = ba.capacity - ba.position :=
  subSize_of_le (Nat.le_trans h.pos_le h.size_le)

theorem Wf.length_bytes (h : Wf ba) : ba.bytes.length = ba.capacity := by
  rw [h.cap_eq]
  exact h.uniform.length_flat

/-- `m_cur` is the block `n` with the index `k`, and `rest` are the blocks after it. -/
structure AtCur (ba : ByteArray) (k : Nat) (n : Node) (rest : List Node) : Prop where
  cur_eq : ba.cur = some k
  from_eq : ba.fromCur = n :: rest
  chain_eq : ba.chain = ba.beforeCur ++ n :: rest
  before_length : ba.beforeCur.length = k
  position_eq : ba.position = ba.baseSize * k + ba.position % ba.baseSize
  ncap_eq : subSize n.size (ba.position % ba.baseSize)
    = ba.baseSize - ba.position % ba.baseSize

/-- Before the end of the chain, `m_cur` splits the chain at the block of the position. -/
theorem Wf.atCur (h : Wf ba) (hlt : ba.position < ba.capacity) :
    ∃ k n rest, AtCur ba k n rest := by
  rw [h.cap_eq] at hlt
  obtain ⟨hcur, hk⟩ := Lib.cursor_eq_some hlt
  rw [← h.cur_eq] at hcur
  have hfrom : ba.fromCur = ba.chain.drop (ba.position / ba.baseSize) := by
    rw [fromCur, hcur]
  have hbefore : ba.beforeCur = ba.chain.take (ba.position / ba.baseSize) := by
    rw [beforeCur, hcur]
  have hmod := Nat.mod_lt ba.position h.base_pos
  refine ⟨_, _, _, hcur, hfrom.trans (List.drop_eq_getElem_cons hk), ?_, ?_, ?_, ?_⟩
  · rw [hbefore, ← List.drop_eq_getElem_cons hk, List.take_append_drop]
  · rw [hbefore, List.length_take]
    omega
  · exact (Nat.div_add_mod ba.position ba.baseSize).symm
  · have hsize := h.uniform _ (List.getElem_mem hk)
    rw [hsize, subSize_of_le (Nat.le_of_lt hmod)]

section
variable {k : Nat} {n : Node} {rest : List Node}

theorem AtCur.uniform_from (hc : AtCur ba k n rest) (h : Wf ba) :
    Uniform ba.baseSize (n :: rest) := fun m hm =>
  h.uniform m (by rw [hc.chain_eq]; exact List.mem_append_right _ hm)

theorem AtCur.uniform_before (hc : AtCur ba k n rest) (h : Wf ba) :
    Uniform ba.baseSize ba.beforeCur := fun m hm =>
  h.uniform m (by rw [hc.chain_eq]; exact List.mem_append_left _ hm)

theorem AtCur.length_chain (hc : AtCur ba k n rest) :
    ba.chain.length = k + (n :: rest).length := by
  rw [hc.chain_eq, List.length_append, hc.before_length]

/-- A segment that fits in the capacity fits in the blocks from `m_cur` on. -/
theorem AtCur.fit (hc : AtCur ba k n rest) (h : Wf ba) {len : Nat}
    (hroom : ba.position + len ≤ ba.capacity) :
    ba.position % ba.baseSize + len ≤ ba.baseSize * (n :: rest).length := by
  have hcap := h.cap_eq
  have hpos := hc.position_eq
  rw [hc.length_chain, Nat.mul_add] at hcap
  omega

/-- The cursor after a segment of `len` bytes, counted from `m_cur` and from the root. -/
theorem AtCur.cursor_eq (hc : AtCur ba k n rest) (h : Wf ba) (len : Nat) :
    cursor ba.baseSize (n :: rest).length k (ba.position % ba.baseSize + len)
      = cursor ba.baseSize ba.chain.length 0 (ba.position + len) := by
  have hshift := Lib.cursor_add_blocks h.base_pos k (n :: rest).length 0
    (ba.position % ba.baseSize + len)
  rw [Nat.zero_add, ← hc.length_chain, ← Nat.add_assoc, ← hc.position_eq] at hshift
  exact hshift.symm

/-- The bytes before `m_cur` and the offset in its block make up the position. -/
theorem AtCur.position_eq_length (hc : AtCur ba k n rest) (h : Wf ba) :
    ba.position = (flat ba.beforeCur).length + ba.position % ba.baseSize := by
  rw [(hc.uniform_before h).length_flat, hc.before_length]
  exact hc.position_eq

/-- The loop from `m_cur` on, in a state with `len` bytes behind the position. -/
theorem AtCur.iovLoop_covers (hc : AtCur ba k n rest) (h : Wf ba) (len : Nat)
    (hroom : ba.position + len ≤ ba.capacity) :
    ∃ iovs, iovLoop (n :: rest) k (ba.position % ba.baseSize)
        (subSize n.size (ba.position % ba.baseSize)) len = .ok iovs ∧
      Covers ba iovs ba.position len ∧ ∀ v ∈ iovs, 0 < v.len := by
  have hcovers := ByteArray.iovLoop_covers h.base_pos (n :: rest) k (ba.position % ba.baseSize) len
    (hc.uniform_from h) (Nat.mod_lt _ h.base_pos) (Nat.succ_pos _) (hc.fit h hroom)
    (Nat.le_of_eq hc.length_chain.symm)
  rw [hc.ncap_eq]
  rwa [← hc.position_eq] at hcovers

end

end

/-! ### `addCapacity` -/

/-- The blocks that the loop of `addCapacity` allocates, from the number `k` on. -/
def freshNodes (mem : Nat → Nat → UInt8) (b : Nat) : (k count : Nat) → List Node
  | _, 0 => []
  | k, count + 1 => Node.new mem k b :: freshNodes mem b (k + 1) count

theorem uniform_freshNodes (mem : Nat → Nat → UInt8) (b : Nat) :
    ∀ count k, Uniform b (freshNodes mem b k count) := by
  intro count
  induction count with
  | zero => intro k n hn; simp [freshNodes] at hn
  | succ count ih => intro k; exact (ih (k + 1)).cons rfl

theorem length_freshNodes (mem : Nat → Nat → UInt8) (b : Nat) :
    ∀ count k, (freshNodes mem b k count).length = count := by
  intro count
  induction count with
  | zero => intro k; rfl
  | succ count ih => intro k; rw [freshNodes, List.length_cons, ih]

theorem appendNodes_eq (mem : Nat → Nat → UInt8) : ∀ (count : Nat) (ba : ByteArray),
    appendNodes mem count ba =
      { ba with
        chain := ba.chain ++ freshNodes mem ba.baseSize ba.allocs count
        capacity := ba.capacity + ba.baseSize * count
        allocs := ba.allocs + count } := by
  intro count
  -- The loop moves `allocs` on, so the array varies in the induction.
  induction count with
  | zero => intro ba; simp [appendNodes, freshNodes]
  | succ count ih =>
      intro ba
      rw [appendNodes, ih]
      simp only [freshNodes, List.append_assoc, List.singleton_append, Nat.mul_succ]
      congr 1 <;> omega

/-- `ba'` is `ba` with the blocks `fresh` appended and the cursor of the same position. -/
structure Grown (ba ba' : ByteArray) (fresh : List Node) : Prop where
  baseSize_eq : ba'.baseSize = ba.baseSize
  position_eq : ba'.position = ba.position
  size_eq : ba'.size = ba.size
  endian_eq : ba'.endian = ba.endian
  chain_eq : ba'.chain = ba.chain ++ fresh
  wf : Wf ba'

/-- The number of blocks that a write of `size` bytes appends: the ceiling of what is missing
over the block size. -/
def missing (ba : ByteArray) (size : Nat) : Nat :=
  (ba.position + size - ba.capacity + ba.baseSize - 1) / ba.baseSize

/-- `count` blocks are appended, and the cursor is that of the position in the longer chain. -/
theorem grown_appendNodes {ba : ByteArray} (h : Wf ba) (mem : Nat → Nat → UInt8) (count : Nat)
    {cur : Option Nat}
    (hcur : cur = cursor ba.baseSize (ba.chain.length + count) 0 ba.position) :
    Grown ba { appendNodes mem count ba with cur := cur }
      (freshNodes mem ba.baseSize ba.allocs count) := by
  have hlen : (ba.chain ++ freshNodes mem ba.baseSize ba.allocs count).length
      = ba.chain.length + count := by
    rw [List.length_append, length_freshNodes]
  have hpos := h.chain_pos
  rw [appendNodes_eq]
  refine ⟨rfl, rfl, rfl, rfl, rfl, h.base_pos, h.pos_le, Nat.le_add_right_of_le h.size_le,
    h.uniform.append (uniform_freshNodes mem ba.baseSize count ba.allocs), ?_, ?_, ?_⟩
  · rw [hlen]
    omega
  · rw [hlen, Nat.mul_add, ← h.cap_eq]
  · rw [hlen]
    exact hcur

/-- The blocks that are missing make room for `size` bytes. -/
theorem le_missing (ba : ByteArray) (hb : 0 < ba.baseSize) (size : Nat) :
    ba.position + size ≤ ba.capacity + ba.baseSize * missing ba size := by
  have hdiv := Nat.div_add_mod (ba.position + size - ba.capacity + ba.baseSize - 1) ba.baseSize
  have hmod := Nat.mod_lt (ba.position + size - ba.capacity + ba.baseSize - 1) hb
  rw [missing]
  omega

/-- `addCapacity(size)` makes room for `size` bytes. -/
theorem addCapacity_ok {ba : ByteArray} (h : Wf ba) (mem : Nat → Nat → UInt8) {size : Nat}
    (hsize : 0 < size) :
    ∃ fresh, Grown ba (addCapacity mem size ba) fresh ∧
      fresh.length = missing ba size ∧
      ba.position + size ≤ (addCapacity mem size ba).capacity := by
  have hb := h.base_pos
  have hle := Nat.le_trans h.pos_le h.size_le
  have hcap := h.getCapacity_eq
  unfold addCapacity
  rw [if_neg (by omega)]
  by_cases hroom : size ≤ ba.getCapacity
  · -- No block is missing.
    simp only [if_pos hroom]
    refine ⟨[], ⟨rfl, rfl, rfl, rfl, (List.append_nil _).symm, h⟩, ?_, by omega⟩
    rw [missing, List.length_nil]
    exact (Nat.div_eq_of_lt (by omega)).symm
  · have hcount : (size - ba.getCapacity + ba.baseSize - 1) / ba.baseSize = missing ba size := by
      rw [missing, hcap]
      congr 2
      omega
    have henough := le_missing ba hb size
    have hpos : missing ba size ≠ 0 := by
      intro h0
      rw [h0, Nat.mul_zero] at henough
      omega
    -- In the longer chain the position is before the end, so its cursor is not null.
    have hlt : ba.position < ba.baseSize * (ba.chain.length + missing ba size) := by
      rw [Nat.mul_add, ← h.cap_eq]
      omega
    have hcursor := (Lib.cursor_eq_some hlt).1
    have hcapacity : (appendNodes mem (missing ba size) ba).capacity
        = ba.capacity + ba.baseSize * missing ba size := by
      rw [appendNodes_eq]
    simp only [if_neg hroom, hcount, if_neg hpos]
    by_cases hfull : ba.getCapacity = 0
    · -- The old chain was used up and `m_cur` was null. The first new block is its block.
      have hend : ba.position = ba.baseSize * ba.chain.length := by
        rw [← h.cap_eq]
        omega
      rw [if_pos hfull]
      refine ⟨_, grown_appendNodes h mem _ ?_, length_freshNodes _ _ _ _, hcapacity ▸ henough⟩
      rw [hcursor, hend, Nat.mul_div_cancel_left _ hb]
    · -- The position stays in the block it was in.
      have hold : ba.position < ba.baseSize * ba.chain.length := by
        rw [← h.cap_eq]
        omega
      have hkeep : (appendNodes mem (missing ba size) ba).cur
          = cursor ba.baseSize (ba.chain.length + missing ba size) 0 ba.position := by
        rw [appendNodes_eq, hcursor, ← (Lib.cursor_eq_some hold).1]
        exact h.cur_eq
      rw [if_neg hfull]
      exact ⟨_, grown_appendNodes h mem _ hkeep, length_freshNodes _ _ _ _, hcapacity ▸ henough⟩

/-! ### The operations -/

/-- The copy loop of `write`, from a state with room for `buf`. -/
theorem copy_ok {ba : ByteArray} (h : Wf ba) {buf : List UInt8} (hbuf : 0 < buf.length)
    (hroom : ba.position + buf.length ≤ ba.capacity) :
    ∃ k n rest nodes, AtCur ba k n rest ∧
      writeLoop (n :: rest) k ba.position (ba.position % ba.baseSize)
          (ba.baseSize - ba.position % ba.baseSize) buf
        = .ok (nodes, cursor ba.baseSize ba.chain.length 0 (ba.position + buf.length),
            ba.position + buf.length) ∧
      Uniform ba.baseSize (ba.beforeCur ++ nodes) ∧
      (ba.beforeCur ++ nodes).length = ba.chain.length ∧
      flat (ba.beforeCur ++ nodes) = splice ba.bytes ba.position buf := by
  obtain ⟨k, n, rest, hc⟩ := h.atCur (by omega)
  obtain ⟨nodes, hloop, hu, hlen, hflat⟩ := writeLoop_ok h.base_pos (n :: rest) k
    ba.position (ba.position % ba.baseSize) buf (hc.uniform_from h)
    (Nat.mod_lt _ h.base_pos) (Nat.succ_pos _) (hc.fit h hroom)
  rw [hc.cursor_eq h] at hloop
  refine ⟨k, n, rest, nodes, hc, hloop, (hc.uniform_before h).append hu, ?_, ?_⟩
  · rw [List.length_append, hlen, hc.before_length, hc.length_chain]
  · show flat _ = splice (flat ba.chain) ba.position buf
    rw [hc.position_eq_length h, hc.chain_eq, flat_append, flat_append,
      Lib.splice_append_right, hflat]

/-- `write` of at least one byte. `fresh` are the blocks that `addCapacity` appends. -/
theorem write_ok {ba : ByteArray} (h : Wf ba) (mem : Nat → Nat → UInt8) {buf : List UInt8}
    (hbuf : 0 < buf.length) :
    ∃ fresh ba', write mem buf ba = .ok () ba' ∧ Wf ba' ∧
      ba'.baseSize = ba.baseSize ∧ ba'.endian = ba.endian ∧
      ba'.position = ba.position + buf.length ∧
      ba'.size = max ba.size (ba.position + buf.length) ∧
      fresh.length = missing ba buf.length ∧
      ba'.chain.length = ba.chain.length + fresh.length ∧
      ba.position + buf.length ≤ (ba.bytes ++ flat fresh).length ∧
      ba'.bytes = splice (ba.bytes ++ flat fresh) ba.position buf := by
  obtain ⟨fresh, hg, hfresh, hroom⟩ := addCapacity_ok h mem hbuf
  -- All that is used of `addCapacity` from here on is what `Grown` says.
  generalize hba₁ : addCapacity mem buf.length ba = ba₁ at hg hroom
  have h₁ := hg.wf
  have hpos₁ := hg.position_eq
  have hbytes₁ : ba₁.bytes = ba.bytes ++ flat fresh := by
    show flat ba₁.chain = flat ba.chain ++ flat fresh
    rw [hg.chain_eq, flat_append]
  obtain ⟨k, n, rest, nodes, hc, hloop, hu, hlen, hflat⟩ := copy_ok h₁ hbuf (by omega)
  have hmax : (if ba₁.size < ba₁.position + buf.length then ba₁.position + buf.length
      else ba₁.size) = max ba.size (ba.position + buf.length) := by
    rw [hg.size_eq, hpos₁, Nat.max_def]
    split <;> split <;> omega
  refine ⟨fresh, { ba₁ with
      chain := ba₁.beforeCur ++ nodes
      cur := cursor ba₁.baseSize ba₁.chain.length 0 (ba₁.position + buf.length)
      position := ba₁.position + buf.length
      size := max ba.size (ba.position + buf.length) }, ?_, ?_, hg.baseSize_eq,
    hg.endian_eq, ?_, rfl, hfresh, ?_, ?_, ?_⟩
  · unfold write
    rw [if_neg (by omega), hba₁]
    simp only [hc.cur_eq, hc.from_eq, hc.ncap_eq, hloop, hmax]
  · have hsize := hg.size_eq
    have hle := h₁.size_le
    refine ⟨h₁.base_pos, ?_, ?_, hu, ?_, ?_, ?_⟩
    · show ba₁.position + buf.length ≤ max ba.size (ba.position + buf.length)
      rw [hpos₁]
      exact Nat.le_max_right _ _
    · show max ba.size (ba.position + buf.length) ≤ ba₁.capacity
      exact Nat.max_le.mpr ⟨by omega, hroom⟩
    · show 0 < (ba₁.beforeCur ++ nodes).length
      rw [hlen]
      exact h₁.chain_pos
    · show ba₁.capacity = ba₁.baseSize * (ba₁.beforeCur ++ nodes).length
      rw [hlen]
      exact h₁.cap_eq
    · show _ = cursor ba₁.baseSize (ba₁.beforeCur ++ nodes).length 0 _
      rw [hlen]
  · show ba₁.position + buf.length = ba.position + buf.length
    rw [hpos₁]
  · show (ba₁.beforeCur ++ nodes).length = _
    rw [hlen, hg.chain_eq, List.length_append]
  · rw [← hbytes₁, h₁.length_bytes]
    exact hroom
  · show flat (ba₁.beforeCur ++ nodes) = _
    rw [hflat, hpos₁, ← hbytes₁]

/-- `write` of no bytes returns at once. -/
theorem write_nil (mem : Nat → Nat → UInt8) (ba : ByteArray) : write mem [] ba = .ok () ba := rfl

/-- `write` always returns. -/
theorem write_wf {ba : ByteArray} (h : Wf ba) (mem : Nat → Nat → UInt8) (buf : List UInt8) :
    ∃ ba', write mem buf ba = .ok () ba' ∧ Wf ba' ∧ ba'.baseSize = ba.baseSize := by
  rcases Nat.eq_zero_or_pos buf.length with h0 | hpos
  · have hnil : buf = [] := List.length_eq_zero_iff.mp h0
    subst hnil
    exact ⟨ba, write_nil mem ba, h, rfl⟩
  · obtain ⟨_, ba', hrun, hwf, hbase, -⟩ := write_ok h mem hpos
    exact ⟨ba', hrun, hwf, hbase⟩

/-- `read` of more than the readable bytes throws and changes nothing. -/
theorem read_outOfRange {ba : ByteArray} {size : Nat} (hsize : ba.getReadSize < size) :
    read size ba = .error .outOfRange ba := if_pos hsize

/-- `read` of readable bytes before the end of the chain. -/
theorem read_ok {ba : ByteArray} (h : Wf ba) {size : Nat} (hsize : size ≤ ba.getReadSize)
    (hlt : ba.position < ba.capacity) :
    ∃ cur, read size ba = .ok ((ba.bytes.drop ba.position).take size)
        { ba with cur := cur, position := ba.position + size } ∧
      Wf { ba with cur := cur, position := ba.position + size } := by
  have hread := h.getReadSize_eq
  have hpos := h.pos_le
  have hle := h.size_le
  obtain ⟨k, n, rest, hc⟩ := h.atCur hlt
  have hloop := readLoop_ok h.base_pos (n :: rest) k ba.position (ba.position % ba.baseSize)
    size (hc.uniform_from h) (Nat.mod_lt _ h.base_pos) (Nat.succ_pos _)
    (hc.fit h (by omega))
  rw [hc.cursor_eq h] at hloop
  -- The bytes from the position on are the bytes of the blocks from `m_cur` on.
  have hdrop : ba.bytes.drop ba.position
      = (flat (n :: rest)).drop (ba.position % ba.baseSize) := by
    show (flat ba.chain).drop ba.position = _
    conv_lhs =>
      rw [hc.position_eq_length h, hc.chain_eq, flat_append, List.drop_length_add_append]
  refine ⟨cursor ba.baseSize ba.chain.length 0 (ba.position + size), ?_, h.base_pos, ?_, hle,
    h.uniform, h.chain_pos, h.cap_eq, rfl⟩
  · unfold read
    rw [if_neg (by omega)]
    simp only [hc.cur_eq, hc.from_eq, hc.ncap_eq, hloop, hdrop]
  · show ba.position + size ≤ ba.size
    omega

/-- `read` of no bytes at the end of the chain reads `m_cur->size` of a null `m_cur`. -/
theorem read_zero_at_end {ba : ByteArray} (h : Wf ba) (hend : ba.position = ba.capacity) :
    read 0 ba = .error .nullNode ba := by
  have hcur : ba.cur = none := by
    rw [h.cur_eq, hend, h.cap_eq]
    exact if_pos rfl
  unfold read
  rw [if_neg (Nat.not_lt_zero _)]
  simp only [hcur]

/-- `setPosition` inside the capacity. -/
theorem setPosition_ok {ba : ByteArray} (h : Wf ba) {v : Nat} (hv : v ≤ ba.capacity) :
    ∃ cur, setPosition v ba
        = .ok () { ba with position := v, size := max ba.size v, cur := cur } ∧
      Wf { ba with position := v, size := max ba.size v, cur := cur } := by
  have hseek := seek_ok h.base_pos ba.chain 0 v h.uniform h.chain_pos (h.cap_eq ▸ hv)
  have hmax : (if ba.size < v then v else ba.size) = max ba.size v := by
    rw [Nat.max_def]
    split <;> split <;> omega
  refine ⟨cursor ba.baseSize ba.chain.length 0 v, ?_, h.base_pos, ?_, ?_, h.uniform,
    h.chain_pos, h.cap_eq, rfl⟩
  · unfold setPosition
    rw [if_neg (by omega)]
    simp only [hseek, hmax]
  · exact Nat.le_max_right _ _
  · exact Nat.max_le.mpr ⟨h.size_le, hv⟩

/-- `setPosition` past the capacity throws and changes nothing. -/
theorem setPosition_outOfRange {ba : ByteArray} {v : Nat} (hv : ba.capacity < v) :
    setPosition v ba = .error .outOfRange ba := if_pos hv

/-- `clear` keeps the first block. -/
theorem clear_wf {ba : ByteArray} (h : Wf ba) :
    ∃ ba', clear ba = .ok () ba' ∧ Wf ba' ∧ ba'.baseSize = ba.baseSize := by
  have hlen : (ba.chain.take 1).length = 1 := by
    have := h.chain_pos
    rw [List.length_take]
    omega
  refine ⟨_, rfl, ⟨h.base_pos, Nat.le_refl 0, Nat.zero_le _, h.uniform.take 1, ?_, ?_, ?_⟩, rfl⟩
  · show 0 < (ba.chain.take 1).length
    omega
  · show ba.baseSize = ba.baseSize * (ba.chain.take 1).length
    rw [hlen, Nat.mul_one]
  · show some 0 = cursor ba.baseSize (ba.chain.take 1).length 0 0
    rw [hlen, Lib.cursor_of_lt Nat.one_pos h.base_pos]

/-- `getWriteBuffers` of at least one byte appends the blocks that are missing and hands out the
`len` bytes from the position on. -/
theorem getWriteBuffers_ok {ba : ByteArray} (h : Wf ba) (mem : Nat → Nat → UInt8) {len : Nat}
    (hlen : 0 < len) :
    ∃ iovs fresh ba', getWriteBuffers mem len ba = .ok (iovs, len) ba' ∧ Grown ba ba' fresh ∧
      fresh.length = missing ba len ∧ ba.position + len ≤ ba'.capacity ∧
      Covers ba' iovs ba.position len ∧ ∀ v ∈ iovs, 0 < v.len := by
  obtain ⟨fresh, hg, hfresh, hroom⟩ := addCapacity_ok h mem hlen
  unfold getWriteBuffers
  rw [if_neg (Nat.ne_of_gt hlen)]
  generalize addCapacity mem len ba = ba₁ at hg hroom
  have h₁ := hg.wf
  have hpos₁ := hg.position_eq
  obtain ⟨k, n, rest, hc⟩ := h₁.atCur (by omega)
  obtain ⟨iovs, hloop, hcovers, hnonempty⟩ := hc.iovLoop_covers h₁ len (by omega)
  rw [hpos₁] at hcovers
  refine ⟨iovs, fresh, ba₁, ?_, hg, hfresh, hroom, hcovers, hnonempty⟩
  simp only [hc.cur_eq, hc.from_eq, hloop]

/-- `getWriteBuffers` always returns. -/
theorem getWriteBuffers_wf {ba : ByteArray} (h : Wf ba) (mem : Nat → Nat → UInt8) (len : Nat) :
    ∃ r ba', getWriteBuffers mem len ba = .ok r ba' ∧ Wf ba' ∧ ba'.baseSize = ba.baseSize := by
  rcases Nat.eq_zero_or_pos len with hzero | hlen
  · exact ⟨_, _, if_pos hzero, h, rfl⟩
  · obtain ⟨iovs, _, ba', hrun, hg, -⟩ := getWriteBuffers_ok h mem hlen
    exact ⟨_, ba', hrun, hg.wf, hg.baseSize_eq⟩

/-- The loop of `readFromFile` ends within its fuel. -/
theorem readFileLoop_wf (mem : Nat → Nat → UInt8) :
    ∀ (fuel : Nat) (contents : List UInt8) (ba : ByteArray), Wf ba → contents.length < fuel →
      ∃ ba', readFileLoop mem fuel contents ba = .ok () ba' ∧ Wf ba' ∧
        ba'.baseSize = ba.baseSize := by
  intro fuel
  induction fuel with
  | zero => intro contents ba _ hfuel; omega
  | succ fuel ih =>
      intro contents ba h hfuel
      obtain ⟨ba₁, hwrite, h₁, hbase₁⟩ := write_wf h mem (contents.take ba.baseSize)
      have hpos := h.base_pos
      rw [readFileLoop, Lib.estate_bind_ok (Lib.estate_get ba), Lib.estate_bind_ok hwrite]
      -- A short read is the last one. A full one takes at least one byte of the file.
      by_cases hshort : contents.length < ba.baseSize
      · rw [if_pos hshort]
        exact ⟨ba₁, rfl, h₁, hbase₁⟩
      · rw [if_neg hshort]
        obtain ⟨ba', hrun, h', hbase'⟩ := ih (contents.drop ba.baseSize) ba₁ h₁ (by
          rw [List.length_drop]
          omega)
        exact ⟨ba', hrun, h', hbase'.trans hbase₁⟩

theorem readFromFile_wf {ba : ByteArray} (h : Wf ba) (mem : Nat → Nat → UInt8)
    (contents : Option (List UInt8)) :
    ∃ r ba', readFromFile mem contents ba = .ok r ba' ∧ Wf ba' ∧
      ba'.baseSize = ba.baseSize := by
  cases contents with
  | none => exact ⟨false, ba, rfl, h, rfl⟩
  | some contents =>
      obtain ⟨ba', hrun, h', hbase⟩ := readFileLoop_wf mem (contents.length + 1) contents ba h
        (Nat.lt_succ_self _)
      refine ⟨true, ba', ?_, h', hbase⟩
      rw [readFromFile, Lib.estate_bind_ok hrun]
      rfl

/-! ### Runs -/

theorem wf_new (mem : Nat → Nat → UInt8) {b : Nat} (hb : 0 < b) : Wf (new mem b) := by
  refine ⟨hb, Nat.le_refl 0, Nat.zero_le _, ?_, Nat.one_pos, (Nat.mul_one b).symm, ?_⟩
  · intro n hn
    rw [List.mem_singleton.mp hn]
    rfl
  · exact (Lib.cursor_of_lt Nat.one_pos hb).symm

/-- What one call does to a state with `Wf`: it returns or throws `std::out_of_range`, and `Wf`
holds again. The exception is a read of no bytes at the end of the chain. -/
theorem run_cases {ba : ByteArray} (h : Wf ba) (mem : Nat → Nat → UInt8) (c : Call) :
    (∃ out ba', c.run mem ba = .ok out ba' ∧ Wf ba' ∧ ba'.baseSize = ba.baseSize) ∨
    c.run mem ba = .error .outOfRange ba ∨
    (c = .read 0 ∧ ba.position = ba.capacity ∧ c.run mem ba = .error .nullNode ba) := by
  cases c with
  | write buf =>
      obtain ⟨ba', hrun, h', hbase⟩ := write_wf h mem buf
      exact Or.inl ⟨[], ba', Lib.estate_bind_ok hrun, h', hbase⟩
  | read size =>
      by_cases hsize : ba.getReadSize < size
      · exact Or.inr (Or.inl (read_outOfRange hsize))
      · by_cases hlt : ba.position < ba.capacity
        · obtain ⟨cur, hrun, h'⟩ := read_ok h (Nat.le_of_not_lt hsize) hlt
          exact Or.inl ⟨_, _, hrun, h', rfl⟩
        · -- At the end of the chain nothing is readable, and `m_cur` is null.
          have hread := h.getReadSize_eq
          have hpos := h.pos_le
          have hle := h.size_le
          have hend : ba.position = ba.capacity := by omega
          have hzero : size = 0 := by omega
          subst hzero
          exact Or.inr (Or.inr ⟨rfl, hend, read_zero_at_end h hend⟩)
  | setPosition v =>
      by_cases hv : ba.capacity < v
      · exact Or.inr (Or.inl (Lib.estate_bind_error (setPosition_outOfRange hv)))
      · obtain ⟨cur, hrun, h'⟩ := setPosition_ok h (Nat.le_of_not_lt hv)
        exact Or.inl ⟨[], _, Lib.estate_bind_ok hrun, h', rfl⟩
  | clear =>
      obtain ⟨ba', hrun, h', hbase⟩ := clear_wf h
      exact Or.inl ⟨[], ba', Lib.estate_bind_ok hrun, h', hbase⟩
  | getWriteBuffers len =>
      obtain ⟨r, ba', hrun, h', hbase⟩ := getWriteBuffers_wf h mem len
      exact Or.inl ⟨[], ba', Lib.estate_bind_ok hrun, h', hbase⟩
  | readFromFile contents =>
      obtain ⟨r, ba', hrun, h', hbase⟩ := readFromFile_wf h mem contents
      exact Or.inl ⟨[], ba', Lib.estate_bind_ok hrun, h', hbase⟩
  | setIsLittleEndian val =>
      exact Or.inl ⟨[], _, rfl, ⟨h.base_pos, h.pos_le, h.size_le, h.uniform, h.chain_pos,
        h.cap_eq, h.cur_eq⟩, rfl⟩

/-- A call that returns or throws keeps `Wf` and the block size. -/
theorem step_wf {ba ba' : ByteArray} (h : Wf ba) (mem : Nat → Nat → UInt8) (c : Call)
    (hstep : step mem ba c = some ba') : Wf ba' ∧ ba'.baseSize = ba.baseSize := by
  unfold step at hstep
  rcases run_cases h mem c with ⟨out, ba₁, hrun, h₁, hbase⟩ | hrun | ⟨-, -, hrun⟩
  · simp only [hrun, Option.some.injEq] at hstep
    exact hstep ▸ ⟨h₁, hbase⟩
  · simp only [hrun, Option.some.injEq] at hstep
    exact hstep ▸ ⟨h, rfl⟩
  · simp [hrun] at hstep

/-- Only a read of no bytes at the end of the chain leaves the defined behaviour. -/
theorem step_eq_none_iff {ba : ByteArray} (h : Wf ba) (mem : Nat → Nat → UInt8) (c : Call) :
    step mem ba c = none ↔ c = .read 0 ∧ ba.position = ba.capacity := by
  unfold step
  constructor
  · intro hnone
    rcases run_cases h mem c with ⟨out, ba₁, hrun, -⟩ | hrun | ⟨hc, hend, -⟩
    · simp [hrun] at hnone
    · simp [hrun] at hnone
    · exact ⟨hc, hend⟩
  · rintro ⟨rfl, hend⟩
    rw [show Call.run mem (.read 0) ba = read 0 ba from rfl, read_zero_at_end h hend]

/-- Every state that calls reach from `ByteArray(b)` has `Wf`, with the block size `b`. -/
theorem wf_exec (mem : Nat → Nat → UInt8) {b : Nat} (hb : 0 < b) (calls : List Call)
    {ba : ByteArray} (h : Lib.exec (step mem) (new mem b) calls = some ba) :
    Wf ba ∧ ba.baseSize = b :=
  Lib.exec_invariant_of_step (I := fun s => Wf s ∧ s.baseSize = b)
    (fun s c s' hs hstep => by
      obtain ⟨hwf, hbase⟩ := step_wf hs.1 mem c hstep
      exact ⟨hwf, hbase.trans hs.2⟩)
    calls (new mem b) ba ⟨wf_new mem hb, rfl⟩ h

theorem Reachable.wf {mem : Nat → Nat → UInt8} {b : Nat} {ba : ByteArray}
    (h : Reachable mem b ba) (hb : 0 < b) : Wf ba ∧ ba.baseSize = b := by
  obtain ⟨calls, hexec⟩ := h
  exact wf_exec mem hb calls hexec

/-- The invariant in the terms of the fields, after every sequence of calls from
`ByteArray(b)`: `m_position ≤ m_size ≤ m_capacity`, every block has `b` bytes and the capacity
counts them, and `m_cur` is the block of the position, null exactly at the end of the chain.
The two differences `getReadSize()` and `getCapacity()` do not wrap. -/
theorem representation_invariant (mem : Nat → Nat → UInt8) (b : Nat) (hb : 1 ≤ b)
    (calls : List Call) (ba : ByteArray)
    (h : Lib.exec (step mem) (new mem b) calls = some ba) :
    ba.position ≤ ba.size ∧ ba.size ≤ ba.capacity ∧
    (∀ n ∈ ba.chain, n.size = b) ∧ ba.capacity = b * ba.chain.length ∧
    (ba.cur = none ↔ ba.position = ba.capacity) ∧
    (∀ k, ba.cur = some k → k = ba.position / b ∧ k < ba.chain.length) ∧
    ba.position + ba.getReadSize = ba.size ∧ ba.position + ba.getCapacity = ba.capacity := by
  obtain ⟨hwf, rfl⟩ := wf_exec mem hb calls h
  have hpos := hwf.pos_le
  have hsize := hwf.size_le
  have hcur := hwf.cur_eq
  have hcap := hwf.cap_eq
  rw [cursor, Nat.zero_add] at hcur
  refine ⟨hpos, hsize, hwf.uniform, hcap, ?_, ?_, ?_, ?_⟩
  · rw [hcur, hcap]
    split
    · simp [*]
    · simp [*]
  · intro k hk
    rw [hcur] at hk
    split at hk
    · cases hk
    · rw [Option.some.injEq] at hk
      subst hk
      exact ⟨rfl, Nat.div_lt_of_lt_mul (by omega)⟩
  · rw [hwf.getReadSize_eq]
    omega
  · rw [hwf.getCapacity_eq]
    omega

/-- Five bytes in blocks of two, a seek to the capacity and back, an overwrite across two
blocks: the cursor ends in the third block. -/
theorem representation_invariant_three_blocks :
    ∃ ba, Lib.exec (step fun _ _ => 0) (new (fun _ _ => 0) 2)
        [.write [1, 2, 3, 4, 5], .setPosition 6, .getWriteBuffers 0, .setPosition 1,
          .write [7, 8, 9], .read 1] = some ba ∧
      ba.position = 5 ∧ ba.position ≤ ba.size ∧ ba.capacity = 2 * ba.chain.length :=
  have h := representation_invariant (fun _ _ => 0) 2 (by decide)
    [.write [1, 2, 3, 4, 5], .setPosition 6, .getWriteBuffers 0, .setPosition 1,
      .write [7, 8, 9], .read 1] _ rfl
  ⟨_, rfl, rfl, h.1, h.2.2.2.1⟩

end Sylar.ByteArray
