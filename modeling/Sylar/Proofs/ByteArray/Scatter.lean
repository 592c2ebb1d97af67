import Sylar.Proofs.ByteArray.Flat
import Sylar.Proofs.ByteArray.Segments
import Sylar.Spec.SocketStream

/-!
# `Sylar.Proofs.ByteArray.Scatter`: a receive is a write

Bytes stored in the `iovec`s of `getWriteBuffers` are one splice of the chain at the position
(`scatter_covers`), since the `iovec`s follow each other in the chain. With the `setPosition` behind
it, a receive refines the write of the flat buffer (`refines_receive`). `write` does too, so that
both show the same data.
-/

set_option autoImplicit false

namespace Sylar.ByteArray

open Lib (splice toInt32 toInt32_of_lt estate_bind_ok estate_get)

section
variable {b : Nat} {chain : List Node}

/-- A block of the chain, replaced. -/
theorem flat_set (hu : Uniform b chain) {k : Nat} (hk : k < chain.length) {n' : Node} {off : Nat}
    {src : List UInt8} (hsize : off + src.length ≤ b)
    (hptr : n'.ptr = splice (chain[k]).ptr off src) :
    flat (chain.set k n') = splice (flat chain) (b * k + off) src := by
  have hbefore : (flat (chain.take k)).length = b * k := by
    rw [(hu.take k).length_flat, List.length_take, Nat.min_eq_left (Nat.le_of_lt hk)]
  have hblock : (chain[k]).ptr.length = b := by
    rw [Node.ptr_length]
    exact hu _ (List.getElem_mem hk)
  have hsplit : flat chain = flat (chain.take k) ++ ((chain[k]).ptr ++ flat (chain.drop (k + 1))) := by
    rw [← flat_cons, ← flat_append, ← List.drop_eq_getElem_cons hk, List.take_append_drop]
  rw [List.set_eq_take_append_cons_drop, if_pos hk, flat_append, flat_cons, hsplit, hptr, ← hbefore,
    Lib.splice_append_right, Lib.splice_append_left _ (by omega)]

theorem Uniform.set (hu : Uniform b chain) (k : Nat) {n' : Node} (hn : n'.size = b) :
    Uniform b (chain.set k n') := by
  intro n hmem
  rcases List.mem_or_eq_of_mem_set hmem with h | rfl
  · exact hu n h
  · exact hn

/-- Bytes stored in `iovec`s that cover `[p, p + n)` are a splice at `p`. -/
theorem scatter_covers {ba : ByteArray} : ∀ (iovs : List Iovec) (p n : Nat) (bs : List UInt8)
    (chain : List Node), Covers ba iovs p n → Uniform ba.baseSize chain →
    chain.length = ba.chain.length → bs.length ≤ n → p + n ≤ ba.baseSize * chain.length →
    ∃ chain', scatter iovs bs chain = .ok chain' ∧ Uniform ba.baseSize chain' ∧
      chain'.length = chain.length ∧ flat chain' = splice (flat chain) p bs := by
  intro iovs
  induction iovs with
  | nil =>
      intro p n bs chain hcovers hu _ hbs _
      have hn : n = 0 := hcovers
      have hnil : bs = [] := List.length_eq_zero_iff.mp (by omega)
      subst hnil
      exact ⟨chain, rfl, hu, rfl, (Lib.splice_nil _ _).symm⟩
  | cons v vs ih =>
      rintro p n bs chain ⟨hnode, hoff, rfl, hle, hcovers⟩ hu hlen hbs hroom
      rw [← hlen] at hnode
      have htake := List.length_take_le v.len bs
      have hsize : (chain[v.node]).size = ba.baseSize := hu _ (List.getElem_mem hnode)
      obtain ⟨n', hstore, hsize', hptr⟩ := store_ok (chain[v.node]) v.off (bs.take v.len) (by omega)
      have hflat := flat_set hu hnode (show v.off + (bs.take v.len).length ≤ ba.baseSize by omega) hptr
      -- the other `iovec`s take what is left, behind the bytes of this one
      obtain ⟨chain', hscatter, hu', hlen', hflat'⟩ := ih _ _ (bs.drop v.len) (chain.set v.node n')
        hcovers (hu.set v.node (hsize'.trans hsize)) (by rw [List.length_set, hlen])
        (by rw [List.length_drop]; omega) (by rw [List.length_set]; omega)
      refine ⟨chain', ?_, hu', by rw [hlen', List.length_set], ?_⟩
      · rw [scatter, List.getElem?_eq_getElem hnode]
        simp only [hstore, Lib.except_ok_bind]
        exact hscatter
      · rw [hflat', hflat]
        by_cases hall : bs.length ≤ v.len
        · rw [List.drop_eq_nil_of_le hall, List.take_of_length_le hall, Lib.splice_nil]
        · have hfull : (bs.take v.len).length = v.len := by
            rw [List.length_take]
            omega
          have hin : ba.baseSize * v.node + v.off ≤ (flat chain).length := by
            rw [hu.length_flat]
            omega
          have h := Lib.splice_splice (bs.drop v.len) (a := bs.take v.len) hin
          rwa [hfull, List.take_append_drop] at h

end

section
variable {ba ba' : ByteArray} {fb : FlatBuffer}

/-- More blocks show the same data. -/
theorem Grown.refines {fresh : List Node} (hg : Grown ba ba' fresh) (h : Refines ba fb) :
    Refines ba' fb := by
  refine ⟨hg.wf, ?_, h.pos_eq.trans hg.position_eq.symm⟩
  have hlen : ba.size ≤ ba.bytes.length := by
    rw [h.wf.length_bytes]
    exact h.wf.size_le
  have hbytes : ba'.bytes = ba.bytes ++ flat fresh := by
    show flat ba'.chain = _
    rw [hg.chain_eq, flat_append]
    rfl
  rw [h.data_eq, hg.size_eq, hbytes, List.take_append_of_le_length hlen]

/-- Bytes stored from the position on, and the position moved over them, are a write. -/
theorem refines_receive (h : Refines ba fb) {iovs : List Iovec} {len : Nat} {bs : List UInt8}
    (hcovers : Covers ba iovs ba.position len) (hroom : ba.position + len ≤ ba.capacity)
    (hbs : bs.length ≤ len) :
    ∃ chain ba₁, scatter iovs bs ba.chain = .ok chain ∧
      setPosition (ba.position + bs.length) { ba with chain := chain } = .ok () ba₁ ∧
      Refines ba₁ (fb.write bs) ∧ ba₁.baseSize = ba.baseSize := by
  have hwf := h.wf
  obtain ⟨chain, hscatter, hu, hlen, hflat⟩ := scatter_covers iovs _ _ bs ba.chain hcovers
    hwf.uniform rfl hbs (by rw [← hwf.cap_eq]; exact hroom)
  have hwf' : Wf { ba with chain := chain } :=
    ⟨hwf.base_pos, hwf.pos_le, hwf.size_le, hu, by rw [hlen]; exact hwf.chain_pos,
      by rw [hlen]; exact hwf.cap_eq, by rw [hlen]; exact hwf.cur_eq⟩
  obtain ⟨cur, hset, hwf₁⟩ := setPosition_ok hwf' (v := ba.position + bs.length)
    (show ba.position + bs.length ≤ ba.capacity by omega)
  refine ⟨chain, _, hscatter, hset, ⟨hwf₁, ?_, ?_⟩, rfl⟩
  · have hin : ba.position + bs.length ≤ (flat ba.chain).length := by
      have hbytes : (flat ba.chain).length = ba.capacity := hwf.length_bytes
      omega
    show splice fb.data fb.pos bs = (flat chain).take (max ba.size (ba.position + bs.length))
    rw [hflat, Lib.take_splice hwf.pos_le hin, h.data_eq, h.pos_eq]
    rfl
  · show fb.pos + bs.length = ba.position + bs.length
    rw [h.pos_eq]

end

/-- The memory of `getWriteBuffers` is disjoint and has `len` bytes. Filling it with up to `len`
bytes and moving the position over them shows the data that `write` shows. This is what
`SocketStream::read` does with a result that is an `int`. -/
theorem scatter_eq_write (mem : Nat → Nat → UInt8) (b : Nat) (hb : 1 ≤ b) (ba : ByteArray)
    (hreach : Reachable mem b ba) (len : Nat) (hlen : 1 ≤ len) (bs : List UInt8)
    (hpos : 1 ≤ bs.length) (hle : bs.length ≤ len) :
    ∃ iovs ba', getWriteBuffers mem len ba = .ok (iovs, len) ba' ∧
      iovs.Pairwise Iovec.Disjoint ∧ (∀ v ∈ iovs, 0 < v.len) ∧ (iovs.map Iovec.len).sum = len ∧
      ∃ chain ba₁ ba₂, scatter iovs bs ba'.chain = .ok chain ∧
        setPosition (ba.position + bs.length) { ba' with chain := chain } = .ok () ba₁ ∧
        write mem bs ba = .ok () ba₂ ∧
        ba₁.position = ba₂.position ∧ ba₁.size = ba₂.size ∧
        ba₁.bytes.take ba₁.size = ba₂.bytes.take ba₂.size ∧ Wf ba₁ ∧ ba₁.baseSize = b ∧
        (bs.length < 2 ^ 31 →
          SocketStream.read mem true len (.ok bs) ba = .ok (bs.length : Int) ba₁) := by
  obtain ⟨hwf, rfl⟩ := hreach.wf hb
  obtain ⟨fb, hrefines⟩ := hwf.refines
  obtain ⟨iovs, fresh, ba', hrun, hg, -, hroom, hcovers, hnonempty⟩ := getWriteBuffers_ok hwf mem hlen
  have hpos' := hg.position_eq
  obtain ⟨chain, ba₁, hscatter, hset, h₁, hbase⟩ := refines_receive (hg.refines hrefines)
    (hpos' ▸ hcovers) (by omega) hle
  have hset' : setPosition (ba.position + bs.length) { ba' with chain := chain } = .ok () ba₁ := by
    rw [← hpos']
    exact hset
  obtain ⟨ba₂, hwrite, h₂, -⟩ := refines_write hrefines mem bs
  refine ⟨iovs, ba', hrun, hcovers.pairwise_disjoint, hnonempty, hcovers.sum_len, chain, ba₁, ba₂,
    hscatter, hset', hwrite, h₁.pos_eq.symm.trans h₂.pos_eq, h₁.length_data.symm.trans h₂.length_data,
    h₁.data_eq.symm.trans h₂.data_eq, h₁.wf, hbase.trans hg.baseSize_eq, fun hint => ?_⟩
  -- `SocketStream::read` makes these calls, since `recvmsg` returns the number of the bytes
  have hrt : toInt32 (bs.length : Int) = bs.length :=
    toInt32_of_lt (Int.natCast_nonneg _) (by exact_mod_cast hint)
  have hrecv : SocketStream.recv iovs (.ok bs) ba' =
      .ok (bs.length : Int) { ba' with chain := chain } := by
    have hne : iovs ≠ [] := by
      rintro rfl
      have hzero : len = 0 := hcovers
      omega
    rw [SocketStream.recv, if_neg hne]
    simp only [hscatter, hrt]
  have hadvance :
      SocketStream.advance (bs.length : Int) { ba' with chain := chain } = .ok () ba₁ := by
    rw [SocketStream.advance, estate_bind_ok (estate_get _), if_pos (by exact_mod_cast hpos)]
    exact hset
  rw [SocketStream.read, if_pos rfl, estate_bind_ok hrun, estate_bind_ok hrecv,
    estate_bind_ok hadvance]
  rfl

/-- Three bytes in blocks of two, at the position 1, receive three of five bytes that were asked
for. -/
theorem scatter_eq_write_across :
    ∃ ba, Reachable (fun _ _ => 0) 2 ba ∧ ba.position = 1 ∧ ba.size = 3 ∧
      ∃ ba₁ ba₂, SocketStream.read (fun _ _ => 0) true 5 (.ok [7, 8, 9]) ba = .ok 3 ba₁ ∧
        write (fun _ _ => 0) [7, 8, 9] ba = .ok () ba₂ ∧ ba₁.position = ba₂.position ∧
        ba₁.size = ba₂.size ∧ ba₁.bytes.take ba₁.size = ba₂.bytes.take ba₂.size := by
  obtain ⟨ba, hreach, hpos, hsize⟩ :
      ∃ ba, Reachable (fun _ _ => 0) 2 ba ∧ ba.position = 1 ∧ ba.size = 3 :=
    ⟨_, ⟨[.write [1, 2, 3], .setPosition 1], rfl⟩, rfl, rfl⟩
  obtain ⟨-, -, -, -, -, -, -, ba₁, ba₂, -, -, hwrite, hpos', hsize', hbytes, -, -, hread⟩ :=
    scatter_eq_write (fun _ _ => 0) 2 (by decide) ba hreach 5 (by decide) [7, 8, 9] (by decide)
      (by decide)
  exact ⟨ba, hreach, hpos, hsize, ba₁, ba₂, hread (by decide), hwrite, hpos', hsize', hbytes⟩

end Sylar.ByteArray
