import Sylar.Proofs.ByteArray.Segments
import Sylar.Proofs.Stream.FixSize

/-!
# `Sylar.Proofs.Stream.Sending`: `SocketStream::write` of a `ByteArray`

`SocketStream::write` takes its `iovec`s from `getWriteBuffers`, which hands out `length` bytes from
the position on and appends blocks when they are missing. These are the readable bytes as long as
`length` stays inside the data, and then nothing but the position changes (`write_data`). A larger
`length` offers bytes behind the data to the socket (`sendsData_iff`).

`writeFixSize` asks for what is left of `length`, so it stays inside the data when `length` does.
Its invariant is `Sent`.
-/

set_option autoImplicit false

namespace Sylar

open Lib

open Sylar.ByteArray (Covers Wf Reachable gather getWriteBuffers getWriteBuffers_ok missing
  setPosition setPosition_ok)

namespace SocketStream

section
variable {ba : ByteArray} {length : Nat}

/-- No block is appended inside the data. -/
theorem getWriteBuffers_data (h : Wf ba) (mem : Nat → Nat → UInt8) (hlen : 1 ≤ length)
    (hle : length ≤ ba.getReadSize) :
    ∃ iovs ba', getWriteBuffers mem length ba = .ok (iovs, length) ba' ∧ iovs ≠ [] ∧
      Covers ba iovs ba.position length ∧ Wf ba' ∧ ba'.chain = ba.chain ∧
      ba'.position = ba.position ∧ ba'.size = ba.size ∧ ba'.baseSize = ba.baseSize := by
  obtain ⟨iovs, fresh, ba', hrun, hg, hfresh, -, hcovers, -⟩ := getWriteBuffers_ok h mem hlen
  have hread := h.getReadSize_eq
  have hpos := h.pos_le
  have hsize := h.size_le
  have hb := h.base_pos
  have hmissing : missing ba length = 0 := Nat.div_eq_of_lt (by omega)
  have hnil : fresh = [] := List.length_eq_zero_iff.mp (hfresh.trans hmissing)
  have hchain : ba'.chain = ba.chain := by rw [hg.chain_eq, hnil, List.append_nil]
  refine ⟨iovs, ba', hrun, ?_, hcovers.congr hg.baseSize_eq (by rw [hchain]), hg.wf, hchain,
    hg.position_eq, hg.size_eq, hg.baseSize_eq⟩
  rintro rfl
  have hzero : length = 0 := hcovers
  omega

/-- Inside the data, `write` offers the next `length` bytes and moves the position over those that
were sent. -/
theorem write_data (h : Wf ba) (mem : Nat → Nat → UInt8) (hlen : 1 ≤ length)
    (hle : length ≤ ba.getReadSize) {rt : Int} (hrt : rt ≤ length) :
    ∃ iovs ba', write mem true length rt ba = .ok (iovs, rt) ba' ∧
      Covers ba iovs ba.position length ∧ Wf ba' ∧ ba'.chain = ba.chain ∧
      ba'.position = ba.position + rt.toNat ∧ ba'.size = ba.size ∧ ba'.baseSize = ba.baseSize := by
  obtain ⟨iovs, ba₁, hrun, hne, hcovers, hwf, hchain, hpos, hsize, hbase⟩ :=
    getWriteBuffers_data h mem hlen hle
  have hsend : send iovs rt ba₁ = .ok rt ba₁ := if_neg hne
  rw [write, if_pos rfl, estate_bind_ok hrun, estate_bind_ok hsend]
  by_cases hsent : 0 < rt
  · have hread := h.getReadSize_eq
    have hin : ba₁.position + rt.toNat ≤ ba₁.size := by omega
    obtain ⟨cur, hset, hwf'⟩ := setPosition_ok hwf (Nat.le_trans hin hwf.size_le)
    have hadvance : advance rt ba₁ = setPosition (ba₁.position + rt.toNat) ba₁ := by
      rw [advance, estate_bind_ok (estate_get _), if_pos hsent]
    rw [hset, Nat.max_eq_left hin] at hadvance
    rw [Nat.max_eq_left hin] at hwf'
    rw [estate_bind_ok hadvance]
    exact ⟨iovs, _, rfl, hcovers, hwf', hchain, by rw [← hpos], hsize, hbase⟩
  · have hadvance : advance rt ba₁ = .ok () ba₁ := by
      rw [advance, estate_bind_ok (estate_get _), if_neg hsent]
      rfl
    rw [estate_bind_ok hadvance]
    refine ⟨iovs, ba₁, rfl, hcovers, hwf, hchain, ?_, hsize, hbase⟩
    rw [hpos]
    omega

/-- The `iovec`s that are offered are those of `getWriteBuffers`. -/
theorem of_write_ok {mem : Nat → Nat → UInt8} {rt rt' : Int} {iovs : List Iovec} {ba' : ByteArray}
    (h : write mem true length rt ba = .ok (iovs, rt') ba') :
    ∃ n ba₁, getWriteBuffers mem length ba = .ok (iovs, n) ba₁ := by
  rw [write, if_pos rfl] at h
  obtain ⟨⟨iovs', n⟩, ba₁, hrun, h⟩ := estate_of_bind_ok h
  obtain ⟨rt₁, ba₂, -, h⟩ := estate_of_bind_ok h
  obtain ⟨-, ba₃, -, h⟩ := estate_of_bind_ok h
  cases h
  exact ⟨n, ba₁, hrun⟩

theorem sendsData_iff_of_wf (h : Wf ba) (mem : Nat → Nat → UInt8) (hlen : 1 ≤ length) {rt : Int}
    (hrt : rt ≤ length) : SendsData mem ba length rt ↔ length ≤ ba.getReadSize := by
  constructor
  · rintro ⟨iovs, ba', hrun, hcovers, -⟩
    obtain ⟨n, ba₁, hbuffers⟩ := of_write_ok hrun
    obtain ⟨iovs', fresh, ba₂, hbuffers', -, -, -, hcovers', -⟩ := getWriteBuffers_ok h mem hlen
    rw [hbuffers] at hbuffers'
    cases hbuffers'
    -- the lengths of the `iovec`s add up to `length`
    have hsum := hcovers.sum_len
    rw [hcovers'.sum_len] at hsum
    omega
  · intro hle
    obtain ⟨iovs, ba', hrun, hcovers, hwf, hchain, hpos, hsize, hbase⟩ :=
      write_data h mem hlen hle hrt
    refine ⟨iovs, ba', hrun, ?_, hpos, hsize, ?_, ?_⟩
    · rwa [Nat.min_eq_left hle]
    · rw [hwf.cap_eq, h.cap_eq, hbase, hchain]
    · rw [ByteArray.bytes, hchain]
      rfl

/-! ### `writeFixSize` -/

/-- Behind `done` bytes of `ba`: they were sent, and the position is behind them. -/
structure Sent (ba : ByteArray) (done : Nat) (s : Sending) : Prop where
  wf : Wf s.ba
  chain_eq : s.ba.chain = ba.chain
  position_eq : s.ba.position = ba.position + done
  size_eq : s.ba.size = ba.size
  sent_eq : s.sent = (ba.bytes.drop ba.position).take done

/-- One call of the loop. -/
theorem sendCall_sent (h : Wf ba) (mem : Nat → Nat → UInt8) (io : Results)
    (hle : length ≤ ba.getReadSize) {done : Nat} {s : Sending} (hdone : done < length)
    (hs : Sent ba done s) :
    ∃ len s', sendCall mem io done (length - done) s = .ok len s' ∧ len ≤ (length - done : Nat) ∧
      (0 < len → Sent ba (done + len.toNat) s') ∧
      (len ≤ 0 → Sent ba done s' ∧ ∃ i n, len = io.result i n) := by
  have hread := h.getReadSize_eq
  have hread' := hs.wf.getReadSize_eq
  have hpos := hs.position_eq
  have hsize := hs.size_eq
  have hrt := io.le s.calls (length - done)
  obtain ⟨iovs, ba', hrun, hcovers, hwf, hchain, hpos', hsize', -⟩ :=
    write_data hs.wf mem (show 1 ≤ length - done by omega) (by omega) hrt
  generalize hlen : io.result s.calls (length - done) = len at hrun hrt hpos'
  have hcall : sendCall mem io done (length - done) s =
      .ok len ⟨ba', s.calls + 1, s.sent ++ (gather ba'.chain iovs).take len.toNat⟩ := by
    rw [sendCall, hlen, hrun]
  have hgather : (gather ba'.chain iovs).take len.toNat =
      (ba.bytes.drop (ba.position + done)).take len.toNat := by
    have hbytes : s.ba.bytes = ba.bytes := by
      rw [ByteArray.bytes, hs.chain_eq]
      rfl
    rw [hchain, hcovers.gather_eq hs.wf, hbytes, hpos, List.take_take, Nat.min_eq_left (by omega)]
  have hnext : Sent ba (done + len.toNat)
      ⟨ba', s.calls + 1, s.sent ++ (gather ba'.chain iovs).take len.toNat⟩ := by
    refine ⟨hwf, hchain.trans hs.chain_eq, ?_, hsize'.trans hsize, ?_⟩
    · show ba'.position = _
      omega
    · show s.sent ++ (gather ba'.chain iovs).take len.toNat = _
      rw [hgather, hs.sent_eq, List.take_add, List.drop_drop]
  refine ⟨len, _, hcall, hrt, fun _ => hnext, fun hstop => ⟨?_, s.calls, length - done, hlen.symm⟩⟩
  have hsame : done + len.toNat = done := by omega
  rwa [hsame] at hnext

/-- Inside the data, `writeFixSize` sends the next `length` bytes, or a part of them when a call
fails. -/
theorem writeFixSize_data (h : Wf ba) (mem : Nat → Nat → UInt8) (io : Results)
    (hle : length ≤ ba.getReadSize) (hsmall : ba.capacity < 2 ^ 63) :
    ∃ value s, writeFixSize mem io length ⟨ba, 0, []⟩ = .ok value s ∧
      (Sent ba length s ∧ value = toInt32 length ∨
        (∃ done < length, Sent ba done s) ∧ value ≤ 0 ∧ ∃ i n, value = io.result i n) := by
  have hleft : toInt64 length = length := by
    have hread := h.getReadSize_eq
    have hsize := h.size_le
    exact toInt64_of_lt (by omega) (by omega)
  have hstart : Sent ba 0 ⟨ba, 0, []⟩ := ⟨h, rfl, rfl, rfl, rfl⟩
  obtain ⟨stop, s, hrun, hend⟩ := fixSizeLoop_rule
    (S := fun len s => (∃ done < length, Sent ba done s) ∧ ∃ i n, len = io.result i n)
    (fun done s hdone hs => by
      obtain ⟨len, s', hcall, hrt, hgo, hstop⟩ := sendCall_sent h mem io hle hdone hs
      exact ⟨len, s', hcall, hrt, hgo, fun hneg => ⟨⟨done, hdone, (hstop hneg).1⟩, (hstop hneg).2⟩⟩)
    (length + 1) 0 ⟨ba, 0, []⟩ (by omega) (Nat.zero_le _) hstart
  rw [Nat.sub_zero] at hrun
  refine ⟨fixSizeResult length stop, s, ?_, ?_⟩
  · rw [writeFixSize, hleft, estate_bind_ok hrun]
    rfl
  · rcases hend with ⟨rfl, hs⟩ | ⟨len, rfl, hneg, hs, i, n, rfl⟩
    · exact .inl ⟨hs, rfl⟩
    · have hvalue : fixSizeResult length (some (io.result i n)) = io.result i n :=
        toInt32_of_isInt (io.isInt i n)
      rw [hvalue]
      exact .inr ⟨hs, hneg, i, n, rfl⟩

/-- `write` of an array sends its data and nothing else if and only if `length` stays inside the
data. `writeFixSize` then sends the `length` bytes, unless a call fails. -/
theorem sendsData_iff (mem : Nat → Nat → UInt8) (b : Nat) (hb : 1 ≤ b) (ba : ByteArray)
    (hreach : Reachable mem b ba) (length : Nat) (hlen : 1 ≤ length) (rt : Int) (hrt : rt ≤ length) :
    (SendsData mem ba length rt ↔ length ≤ ba.getReadSize) ∧
    (length ≤ ba.getReadSize → ba.capacity < 2 ^ 63 → ∀ io : Results,
      ∃ value s, writeFixSize mem io length ⟨ba, 0, []⟩ = .ok value s ∧
        s.ba.chain = ba.chain ∧ s.ba.size = ba.size ∧
        (s.sent = (ba.bytes.drop ba.position).take length ∧
            s.ba.position = ba.position + length ∧ value = toInt32 length ∨
          (∃ done < length, s.sent = (ba.bytes.drop ba.position).take done ∧
              s.ba.position = ba.position + done) ∧
            value ≤ 0 ∧ ∃ i n, value = io.result i n)) := by
  obtain ⟨hwf, -⟩ := hreach.wf hb
  refine ⟨sendsData_iff_of_wf hwf mem hlen hrt, fun hle hsmall io => ?_⟩
  obtain ⟨value, s, hrun, hend⟩ := writeFixSize_data hwf mem io hle hsmall
  rcases hend with ⟨hs, hvalue⟩ | ⟨⟨done, hdone, hs⟩, hvalue⟩
  · exact ⟨value, s, hrun, hs.chain_eq, hs.size_eq, .inl ⟨hs.sent_eq, hs.position_eq, hvalue⟩⟩
  · exact ⟨value, s, hrun, hs.chain_eq, hs.size_eq,
      .inr ⟨⟨done, hdone, hs.sent_eq, hs.position_eq⟩, hvalue⟩⟩

end

/-- Five bytes in blocks of two, from the second one on: four are asked for, and three are sent. -/
theorem sendsData_inside :
    ∃ ba, Reachable (fun _ _ => 0) 2 ba ∧ ba.position = 1 ∧ ba.size = 5 ∧
      SendsData (fun _ _ => 0) ba 4 3 ∧
      ∃ value s, writeFixSize (fun _ _ => 0) (Transfer.upTo 3) 4 ⟨ba, 0, []⟩ = .ok value s := by
  have hreach : Reachable (fun _ _ => 0) 2 _ :=
    ⟨[.write [1, 2, 3, 4, 5], .setPosition 1], rfl⟩
  obtain ⟨hiff, hfix⟩ :=
    sendsData_iff (fun _ _ => 0) 2 (by decide) _ hreach 4 (by decide) 3 (by decide)
  refine ⟨_, hreach, rfl, rfl, hiff.mpr (by decide), ?_⟩
  obtain ⟨value, s, hrun, -⟩ := hfix (by decide) (by decide) (Transfer.upTo 3)
  exact ⟨value, s, hrun⟩

/-- Three bytes in a block of four, from the beginning: of ten bytes that are asked for, ten are
offered and sent. Seven of them were never written. The array then has ten bytes and two blocks
more. -/
theorem send_beyond_data :
    ∃ ba, Reachable (fun _ _ => 0) 4 ba ∧ ba.position = 0 ∧ ba.size = 3 ∧ ba.capacity = 4 ∧
      (∃ ba', write (fun _ _ => 0) true 10 10 ba = .ok ([⟨0, 0, 4⟩, ⟨1, 0, 4⟩, ⟨2, 0, 2⟩], 10) ba' ∧
        ba'.size = 10 ∧ ba'.capacity = 12) ∧
      ¬ SendsData (fun _ _ => 0) ba 10 10 := by
  have hreach : Reachable (fun _ _ => 0) 4 _ := ⟨[.write [1, 2, 3], .setPosition 0], rfl⟩
  refine ⟨_, hreach, rfl, rfl, rfl, ⟨_, rfl, rfl, rfl⟩, ?_⟩
  obtain ⟨hwf, -⟩ := hreach.wf (by decide)
  exact fun h => absurd ((sendsData_iff_of_wf hwf _ (by decide) (by decide)).mp h) (by decide)

end SocketStream

end Sylar
