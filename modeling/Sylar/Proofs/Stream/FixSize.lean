import Sylar.Lib.EState
import Sylar.Proofs.Http.Reading
import Sylar.Spec.SocketStream

/-!
# `Sylar.Proofs.Stream.FixSize`: `readFixSize` and `writeFixSize`

`fixSizeLoop_rule` is the rule of the loop that the four functions share. What holds of the state
behind `done` bytes is `I done`, and what holds when a call ends the loop is `S`. One call of the
loop gives one or the other, and the number of bytes that are left bounds the rounds.

For a buffer, the state is the list of the calls. They follow each other without gap or overlap,
whatever the results are. The value that is returned is another matter. The length is narrowed to
an `int` at the end, so a transfer of 2^31 bytes or more that succeeds returns something else
(`transfers_exactly_iff`). With 2^63 bytes or more, `left` of `writeFixSize` is negative from the
start, and no call is made.
-/

set_option autoImplicit false

namespace Sylar

open Lib

/-! ### The loop -/

/-- A loop over `length` bytes with the invariant `I`, where a call that fails gives `S`. -/
theorem fixSizeLoop_rule {σ : Type} {call : (offset left : Nat) → EStateM Err σ Int}
    {length : Nat} {I : Nat → σ → Prop} {S : Int → σ → Prop}
    (hcall : ∀ done s, done < length → I done s →
      ∃ len s', call done (length - done) s = .ok len s' ∧ len ≤ (length - done : Nat) ∧
        (0 < len → I (done + len.toNat) s') ∧ (len ≤ 0 → S len s')) :
    ∀ (fuel done : Nat) (s : σ), length - done < fuel → done ≤ length → I done s →
      ∃ stop s', fixSizeLoop call fuel done (length - done : Nat) s = .ok stop s' ∧
        (stop = none ∧ I length s' ∨ ∃ len, stop = some len ∧ len ≤ 0 ∧ S len s') := by
  intro fuel
  induction fuel with
  | zero => intro done s hfuel; omega
  | succ fuel ih =>
      intro done s hfuel hdone hI
      by_cases hleft : done < length
      · obtain ⟨len, s₁, hrun, hle, hgo, hstop⟩ := hcall done s hleft hI
        rw [fixSizeLoop, if_pos (by omega), Int.toNat_natCast, estate_bind_ok hrun]
        by_cases hlen : len ≤ 0
        · rw [if_pos hlen]
          exact ⟨_, _, rfl, .inr ⟨len, rfl, hlen, hstop hlen⟩⟩
        · rw [if_neg hlen]
          have hcast :
              ((length - done : Nat) : Int) - len = (length - (done + len.toNat) : Nat) := by
            omega
          rw [hcast]
          exact ih (done + len.toNat) s₁ (by omega) (by omega) (hgo (by omega))
      · have hall : done = length := by omega
        subst hall
        rw [fixSizeLoop, if_neg (by omega)]
        exact ⟨none, s, rfl, .inl ⟨rfl, hI⟩⟩

/-! ### The pieces of a connection -/

namespace Stream

/-- The read of a `Stream`, as a call of the loop. -/
def pieceCall (_offset left : Nat) : EStateM Err Stream Int := fun s =>
  .ok ((s.read left).1.length : Int) (s.read left).2

theorem fixSizeLoop_pieces : ∀ (fuel left offset : Nat) (acc : List UInt8) (s : Stream),
    left ≤ fuel →
    fixSizeLoop pieceCall (fuel + 1) offset left s =
      .ok (if (readLoop fuel left acc s).1 = none then some 0 else none)
        (readLoop fuel left acc s).2 := by
  intro fuel
  induction fuel with
  | zero =>
      intro left offset acc s hle
      have hzero : left = 0 := by omega
      subst hzero
      rfl
  | succ fuel ih =>
      intro left offset acc s hle
      rw [fixSizeLoop, readLoop]
      by_cases hleft : left = 0
      · subst hleft
        rfl
      · have hbound := length_read_le left s
        have hcall :
            pieceCall offset left s = .ok ((s.read left).1.length : Int) (s.read left).2 := rfl
        rw [if_neg hleft, if_pos (by omega), Int.toNat_natCast, estate_bind_ok hcall]
        generalize s.read left = r at hbound ⊢
        obtain ⟨bs, s'⟩ := r
        cases bs with
        | nil => rfl
        | cons c bs =>
            have hpos : ¬ ((c :: bs).length : Int) ≤ 0 := by
              rw [List.length_cons]
              omega
            have hleft' : (left : Int) - (c :: bs).length = (left - (c :: bs).length : Nat) := by
              have hle' : (c :: bs).length ≤ left := hbound
              omega
            rw [if_neg hpos, Int.toNat_natCast, hleft']
            refine ih _ _ (acc ++ c :: bs) s' ?_
            rw [List.length_cons]
            omega

/-- `Stream.readFixSize` is the loop over the pieces that a connection delivers. -/
theorem readFixSize_pieces (length : Nat) (s : Stream) :
    ∃ stop, fixSizeLoop pieceCall (length + 1) 0 length s = .ok stop (s.readFixSize length).2.2 ∧
      fixSizeResult length stop = (s.readFixSize length).1 := by
  rw [fixSizeLoop_pieces length length 0 [] s (Nat.le_refl _), readFixSize]
  obtain ⟨bs, s'⟩ := readLoop length length [] s
  cases bs with
  | none => exact ⟨some 0, rfl, toInt32_of_lt (Int.le_refl 0) (by decide)⟩
  | some bs =>
      refine ⟨none, rfl, ?_⟩
      simp only [fixSizeResult]

end Stream

/-! ### Transfers of a buffer -/

namespace Transfer

section
variable {length : Nat}

/-- A call at the end of the bytes that were moved goes on without a gap. -/
theorem Consecutive.snoc (r : Int) : ∀ (calls : List Transfer) (offset done : Nat),
    Consecutive length offset calls → (∀ c ∈ calls, 0 < c.result) →
    (calls.map Transfer.result).sum = done →
    Consecutive length offset (calls ++ [⟨offset + done, length - (offset + done), r⟩]) := by
  intro calls
  induction calls with
  | nil =>
      intro offset done _ _ hsum
      have hcast : (0 : Int) = done := hsum
      have hzero : done = 0 := by omega
      subst hzero
      exact ⟨rfl, rfl, trivial⟩
  | cons c cs ih =>
      rintro offset done ⟨hoffset, hamount, hrest⟩ hpos hsum
      have hc : 0 < c.result := hpos c List.mem_cons_self
      rw [List.map_cons, List.sum_cons] at hsum
      have hsum' : 0 ≤ (cs.map Transfer.result).sum := by
        refine List.sum_nonneg fun r hr => ?_
        obtain ⟨c', hmem, rfl⟩ := List.mem_map.mp hr
        exact Int.le_of_lt (hpos c' (List.mem_cons_of_mem _ hmem))
      have hshift : offset + done = offset + c.result.toNat + (done - c.result.toNat) := by omega
      refine ⟨hoffset, hamount, ?_⟩
      show Consecutive length _ (cs ++ _)
      rw [hshift]
      exact ih _ _ hrest (fun c' hmem => hpos c' (List.mem_cons_of_mem _ hmem)) (by omega)

/-- The calls behind `done` bytes. -/
structure Moved (length done : Nat) (calls : List Transfer) : Prop where
  consecutive : Consecutive length 0 calls
  pos : ∀ c ∈ calls, 0 < c.result
  sum_eq : (calls.map Transfer.result).sum = done

/-- The calls behind a result that is not positive. -/
structure Stopped (length : Nat) (len : Int) (calls : List Transfer) : Prop where
  consecutive : Consecutive length 0 calls
  isInt : IsInt len
  last : ∃ before last, calls = before ++ [last] ∧ (∀ c ∈ before, 0 < c.result) ∧
    last.result = len

/-- One call. -/
theorem call_moved (io : Results) {done : Nat} {calls : List Transfer} (h : Moved length done calls) :
    ∃ len calls', call io done (length - done) calls = .ok len calls' ∧
      len ≤ (length - done : Nat) ∧ (0 < len → Moved length (done + len.toNat) calls') ∧
      (len ≤ 0 → Stopped length len calls') := by
  have hsnoc := Consecutive.snoc (io.result calls.length (length - done)) calls 0 done
    h.consecutive h.pos h.sum_eq
  rw [Nat.zero_add] at hsnoc
  refine ⟨_, _, rfl, io.le _ _, fun hpos => ⟨hsnoc, ?_, ?_⟩, fun _ => ⟨hsnoc, io.isInt _ _, calls, _,
    rfl, h.pos, rfl⟩⟩
  · intro c hmem
    rcases List.mem_append.mp hmem with hmem | hmem
    · exact h.pos c hmem
    · rw [List.mem_singleton.mp hmem]
      exact hpos
  · rw [List.map_append, List.sum_append, h.sum_eq, List.map_singleton, List.sum_singleton]
    show (done : Int) + io.result calls.length (length - done) = _
    omega

/-- The whole loop. -/
theorem readFixSize_ok (io : Results) (length : Nat) :
    ∃ value calls, readFixSize io length [] = .ok value calls ∧
      (Moved length length calls ∧ value = toInt32 length ∨
        value ≤ 0 ∧ Stopped length value calls) := by
  have hnew : Moved length 0 [] := ⟨trivial, fun _ h => (List.not_mem_nil h).elim, rfl⟩
  have hcall := fun (done : Nat) (calls : List Transfer) (_ : done < length)
    (h : Moved length done calls) => call_moved io h
  obtain ⟨stop, calls, hrun, hend⟩ :=
    fixSizeLoop_rule hcall (length + 1) 0 [] (by omega) (Nat.zero_le _) hnew
  rw [Nat.sub_zero] at hrun
  refine ⟨fixSizeResult length stop, calls, ?_, ?_⟩
  · rw [readFixSize, estate_bind_ok hrun]
    rfl
  · rcases hend with ⟨rfl, h⟩ | ⟨len, rfl, hlen, h⟩
    · exact .inl ⟨h, rfl⟩
    · have hvalue : fixSizeResult length (some len) = len := toInt32_of_isInt h.isInt
      rw [hvalue]
      exact .inr ⟨hlen, h⟩

/-- What is left of up to 2^63 bytes fits an `int64_t`. -/
theorem writeFixSize_eq (io : Results) (hsize : length < 2 ^ 63) :
    writeFixSize io length = readFixSize io length := by
  have hleft : toInt64 length = length := toInt64_of_lt (by omega) (by omega)
  rw [writeFixSize, hleft]
  rfl

/-- With more, it is negative and no call is made. -/
theorem writeFixSize_huge (io : Results) (hsize : 2 ^ 63 ≤ length) (hlt : length < 2 ^ 64) :
    writeFixSize io length [] = .ok (toInt32 length) [] := by
  have hleft : toInt64 length ≤ 0 := by
    have hmod : (length : Int) % ((2 ^ 64 : Nat) : Int) = length :=
      Int.emod_eq_of_lt (by omega) (by omega)
    rw [toInt64, Int.bmod, hmod, if_neg (by omega)]
    omega
  have hloop : fixSizeLoop (call io) (length + 1) 0 (toInt64 length) [] = .ok none [] := by
    rw [fixSizeLoop, if_neg (Int.not_lt.mpr hleft)]
    rfl
  rw [writeFixSize, estate_bind_ok hloop]
  rfl

/-- No call moves no byte. -/
theorem not_exact_nil {value : Int} (hlen : 1 ≤ length) : ¬ Exact length value [] := by
  rintro ⟨-, ⟨-, hsum, -⟩ | ⟨before, last, hnil, -⟩⟩
  · have hzero : (0 : Int) = length := hsum
    omega
  · exact List.append_ne_nil_of_right_ne_nil _ (List.cons_ne_nil _ _) hnil.symm

/-- A transfer is exact if and only if its length is an `int`, or it stops early. -/
theorem exact_iff {value : Int} {calls : List Transfer} (hlen : 1 ≤ length)
    (h : Moved length length calls ∧ value = toInt32 length ∨ value ≤ 0 ∧ Stopped length value calls) :
    Exact length value calls ↔ length < 2 ^ 31 ∨ ∃ c ∈ calls, c.result ≤ 0 := by
  rcases h with ⟨hmoved, hreturn⟩ | ⟨hvalue, hstopped⟩
  · have hnone : ¬ ∃ c ∈ calls, c.result ≤ 0 := by
      rintro ⟨c, hmem, hle⟩
      exact absurd (hmoved.pos c hmem) (Int.not_lt.mpr hle)
    rw [or_iff_left hnone]
    constructor
    · rintro ⟨-, ⟨-, -, hvalue⟩ | ⟨before, last, rfl, -, hle, -⟩⟩
      · have hhigh := (isInt_toInt32 length).high
        rw [← hreturn, hvalue] at hhigh
        omega
      · exact absurd ⟨last, List.mem_append_right _ List.mem_cons_self, hle⟩ hnone
    · intro hint
      have hlength : toInt32 (length : Int) = length :=
        toInt32_of_lt (Int.natCast_nonneg _) (by exact_mod_cast hint)
      exact ⟨hmoved.consecutive, .inl ⟨hmoved.pos, hmoved.sum_eq, hreturn.trans hlength⟩⟩
  · obtain ⟨before, last, rfl, hpos, hlast⟩ := hstopped.last
    have hle : last.result ≤ 0 := hlast ▸ hvalue
    refine iff_of_true ⟨hstopped.consecutive, .inr ⟨before, last, rfl, hpos, hle, hlast.symm⟩⟩ ?_
    exact .inr ⟨last, List.mem_append_right _ List.mem_cons_self, hle⟩

end

/-- Both functions end for all results of the calls. They are exact if and only if the length is an
`int`, or a call returned 0 or less. `recvRequest` takes a result of 0 or less as a failure. -/
theorem transfers_exactly_iff (io : Results) (length : Nat) (hlen : 1 ≤ length)
    (hsize : length < 2 ^ 64) :
    (∃ value calls, readFixSize io length [] = .ok value calls ∧
      (Exact length value calls ↔ length < 2 ^ 31 ∨ ∃ c ∈ calls, c.result ≤ 0)) ∧
    (∃ value calls, writeFixSize io length [] = .ok value calls ∧
      (Exact length value calls ↔ length < 2 ^ 31 ∨ ∃ c ∈ calls, c.result ≤ 0)) ∧
    ∀ (p : Http.HttpRequestParser) (rest : List UInt8) (s : Stream),
      (rest.length : Int) < Http.toInt64 p.getContentLenght →
      (s.readFixSize ((Http.toInt64 p.getContentLenght).toNat - rest.length)).1 ≤ 0 →
      (Http.recvBody p rest s).1 = none := by
  have hread : ∃ value calls, readFixSize io length [] = .ok value calls ∧
      (Exact length value calls ↔ length < 2 ^ 31 ∨ ∃ c ∈ calls, c.result ≤ 0) := by
    obtain ⟨value, calls, hrun, hend⟩ := readFixSize_ok io length
    exact ⟨value, calls, hrun, exact_iff hlen hend⟩
  refine ⟨hread, ?_, ?_⟩
  · by_cases hint64 : length < 2 ^ 63
    · rw [writeFixSize_eq io hint64]
      exact hread
    · refine ⟨_, [], writeFixSize_huge io (Nat.le_of_not_lt hint64) hsize,
        iff_of_false (not_exact_nil hlen) ?_⟩
      rintro (hint | ⟨c, hmem, -⟩)
      · omega
      · exact List.not_mem_nil hmem
  · intro p rest s hrest hfail
    have hpos := Int.lt_of_le_of_lt (Int.natCast_nonneg _) hrest
    rw [Http.recvBody, if_neg (Int.not_le.mpr hpos), if_neg (Int.not_le.mpr hrest)]
    generalize s.readFixSize ((Http.toInt64 p.getContentLenght).toNat - rest.length) = res at hfail ⊢
    obtain ⟨rt, bs, s'⟩ := res
    exact congrArg Prod.fst (if_pos hfail)

section
variable (k n : Nat)

theorem isInt_upTo : IsInt (min n (min k 2147483647) : Nat) := ⟨by omega, by omega⟩

theorem upTo_le : ((min n (min k 2147483647) : Nat) : Int) ≤ n := by omega

end

/-- Calls that move up to `k` bytes, and not more than an `int` can tell. -/
def upTo (k : Nat) : Results where
  result _ n := (min n (min k 2147483647) : Nat)
  isInt _ := isInt_upTo k
  le _ := upTo_le k

/-- Five bytes, three at a time. -/
theorem transfers_exactly_five :
    (∃ value calls, readFixSize (upTo 3) 5 [] = .ok value calls ∧ Exact 5 value calls) ∧
    ∃ value calls, writeFixSize (upTo 3) 5 [] = .ok value calls ∧ Exact 5 value calls :=
  have ⟨⟨value, calls, hrun, hiff⟩, ⟨value', calls', hrun', hiff'⟩, _⟩ :=
    transfers_exactly_iff (upTo 3) 5 (by decide) (by decide)
  ⟨⟨value, calls, hrun, hiff.mpr (.inl (by decide))⟩,
    ⟨value', calls', hrun', hiff'.mpr (.inl (by decide))⟩⟩

/-- All of 2^31 bytes are moved, in two calls, and the returned value is negative. -/
theorem transfer_narrowed :
    readFixSize (upTo 2147483648) 2147483648 [] =
      .ok (-2147483648) [⟨0, 2147483648, 2147483647⟩, ⟨2147483647, 1, 1⟩] ∧
    writeFixSize (upTo 2147483648) 2147483648 [] =
      .ok (-2147483648) [⟨0, 2147483648, 2147483647⟩, ⟨2147483647, 1, 1⟩] ∧
    ¬ Exact 2147483648 (-2147483648) [⟨0, 2147483648, 2147483647⟩, ⟨2147483647, 1, 1⟩] := by
  refine ⟨rfl, rfl, ?_⟩
  rintro ⟨-, ⟨-, -, hvalue⟩ | ⟨before, last, hcalls, -, hle, -⟩⟩
  · exact absurd hvalue (by decide)
  · have hsplit : [⟨0, 2147483648, 2147483647⟩] ++ [⟨2147483647, 1, 1⟩] = before ++ [last] := hcalls
    cases (List.append_inj' hsplit rfl).2
    exact absurd hle (by decide)

end Transfer

end Sylar
