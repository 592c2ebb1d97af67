import Sylar.Lib.Drive
import Sylar.Spec.HttpConnection
import Sylar.Proofs.Http.Reading
import Sylar.Proofs.Http.Slices

/-!
# `Sylar.Proofs.Http.Chunked`: a chunked response

The parser starts afresh on each attempt at a size line, although an attempt consumes the bytes it
has looked at. When the buffer holds the line as a whole, one attempt reads the size
(`execute_sizeLine`), and the loop goes on behind the chunk whatever the reads are
(`recvChunks_eq`). When a read ends inside the line, the next attempt starts in the middle of it.

`Whole` says where the reads may end, and `recvResponse_chunked` is the result for a whole response.
-/

set_option autoImplicit false

namespace Sylar.Http.HttpConnection

open Lib Lib.Rx

/-! ### The encoding -/

/-- The line in front of a chunk. -/
def sizeLine (d : List UInt8) : List UInt8 := numeral 16 d.length ++ text "\r\n"

def encodeChunk (d : List UInt8) : List UInt8 := sizeLine d ++ (d ++ text "\r\n")

/-- The chunks and the empty one that ends them. -/
def encodeChunks (ds : List (List UInt8)) : List UInt8 := (ds ++ [[]]).flatMap encodeChunk

example : encodeChunks [text "hello"] = text "5\r\nhello\r\n0\r\n\r\n" := by decide

/-- Each size line is in the buffer as a whole when the parser starts on it. The rest of the chunk
may be anywhere. -/
def Whole (buffSize : Nat) : List (List UInt8) → List UInt8 → Stream → Prop
  | [], _, _ => True
  | d :: ds, data, s =>
    ∃ tail s', fill buffSize true data s = (some (sizeLine d ++ tail), s') ∧
      Whole buffSize ds (tail.drop (d.length + 2)) (s'.skip (d.length + 2 - tail.length))

/-! ### The size line -/

section
variable {c : UInt8} {t : Marks} {ds tail : List UInt8} {n p : Nat}

/-- The states behind the first digit of a size and behind a later one. -/
def sizeMarks : List Marks :=
  [after true HttpClient.main .none (text "0"), after true HttpClient.main .none (text "00")]

/-- The state behind a size line. -/
def sizeEnd : Marks := after true HttpClient.main .none (text "0\r\n")

theorem size_first : ∀ c, isXdigit c = true →
    fired true HttpClient.main .none c = [.mark] ∧
      shift true HttpClient.main .none c ∈ sizeMarks := by
  decide +kernel

theorem size_next : ∀ c, isXdigit c = true → ∀ t ∈ sizeMarks,
    fired false HttpClient.main t c = [] ∧ shift false HttpClient.main t c ∈ sizeMarks := by
  decide +kernel

theorem size_crlf : ∀ t ∈ sizeMarks,
    fired false HttpClient.main t 13 = [.chunkSize] ∧
      fired false HttpClient.main (shift false HttpClient.main t 13) 10 = [.done] ∧
      shift false HttpClient.main (shift false HttpClient.main t 13) 10 = sizeEnd := by
  decide +kernel

theorem isNone_of_size : ∀ t ∈ sizeMarks, t.isNone = false ∧
    (shift false HttpClient.main t 13).isNone = false ∧ sizeEnd.isNone = false := by
  decide +kernel

/-- An action of the parser with `buffer` in its buffer. -/
def runResponseAct (buffer : List UInt8) (fpc : Nat) (a : ResponseAction)
    (st : Except Abort HttpResponseParser) : Except Abort HttpResponseParser :=
  st.bind (responseAct buffer fpc a)

/-- The digits behind the first one change nothing. -/
theorem size_digits {S : Type} {f : Nat → ResponseAction → S → S} {s : S} (ht : t ∈ sizeMarks)
    (hds : ∀ c ∈ ds, isXdigit c = true) :
    reads HttpClient.main ResponseAction.stops false t ds = true ∧
      after false HttpClient.main t ds ∈ sizeMarks ∧
      play HttpClient.main f p false t ds s = s := by
  induction ds generalizing t p s with
  | nil => exact ⟨rfl, ht, rfl⟩
  | cons c ds ih =>
      rw [List.forall_mem_cons] at hds
      obtain ⟨hfired, hshift⟩ := size_next c hds.1 t ht
      obtain ⟨hread, hafter, hplay⟩ := ih hshift hds.2 (p := p + 1) (s := s)
      refine ⟨?_, hafter, ?_⟩
      · rw [reads, hread, hfired, (isNone_of_size _ hshift).1]
        rfl
      · rw [play, hfired]
        exact hplay

/-- A size line as the machine reads it: `mark` at its start, `chunk_size` behind the digits, and
`done`. -/
theorem size_scan {S : Type} {f : Nat → ResponseAction → S → S} {s : S}
    (hc : isXdigit c = true) (hds : ∀ c ∈ ds, isXdigit c = true) :
    completes HttpClient.main ResponseAction.stops true .none (c :: (ds ++ [13, 10])) = true ∧
      after true HttpClient.main .none (c :: (ds ++ [13, 10])) = sizeEnd ∧
      play HttpClient.main f 0 true .none (c :: (ds ++ [13, 10])) s =
        f (ds.length + 2) .done (f (ds.length + 1) .chunkSize (f 0 .mark s)) := by
  obtain ⟨hfired, hshift⟩ := size_first c hc
  obtain ⟨hread, hafter, hplay⟩ := size_digits (f := f) (p := 1) (s := f 0 .mark s) hshift hds
  obtain ⟨hcr, hlf, hend⟩ := size_crlf _ hafter
  obtain ⟨-, hnone, hnone'⟩ := isNone_of_size _ hafter
  have hfirst : after true HttpClient.main .none [c] = shift true HttpClient.main .none c := rfl
  rw [← List.singleton_append]
  refine ⟨?_, ?_, ?_⟩
  · have hone : reads HttpClient.main ResponseAction.stops true .none [c] = true := by
      rw [reads, hfired, (isNone_of_size _ hshift).1]
      rfl
    rw [completes_append (List.append_ne_nil_of_right_ne_nil _ (List.cons_ne_nil _ _)),
      completes_append (List.cons_ne_nil _ _), hone, hfirst, List.isEmpty_cons, Bool.and_false,
      Bool.false_and, hread, completes, completes, hcr, hlf, hend, hnone, hnone']
    rfl
  · rw [after_append, after_append, hfirst, List.isEmpty_cons, Bool.and_false, Bool.false_and, after,
      after, after, hend]
  · rw [play_append, play_append, hfirst, List.isEmpty_cons, Bool.and_false, Bool.false_and, play,
      play, play, play, play, hfired]
    show List.foldl _ (List.foldl _ (play _ f 1 false _ ds (f 0 .mark s)) _) _ = _
    rw [hplay, hcr, hlf, List.length_singleton, Nat.zero_add, Nat.add_comm 1]
    rfl

/-- A call that ends with `done` leaves what follows it in the buffer. -/
theorem httpclientParserExecute_of_completes {w v : List UInt8} {m : Bool}
    {x y : HttpResponseParser} (hlen : (w ++ v).length < 2 ^ 31) (hcs : x.parser.cs = .at m t)
    (hread : completes HttpClient.main ResponseAction.stops m t w = true)
    (hplay : play HttpClient.main (runResponseAct (w ++ v)) 0 m t w (.ok x.reset) = .ok y)
    (hbody : y.parser.bodyStart ≤ (w ++ v).length) (hmark : y.parser.mark < (w ++ v).length)
    (hfield : y.parser.fieldLen ≤ (w ++ v).length ∧ y.parser.fieldStart < (w ++ v).length) :
    HttpResponseParser.httpclientParserExecute (w ++ v) x =
      .ok (w.length, { y with parser := { y.parser with
        nread := w.length
        cs := .at false (after m HttpClient.main t w) } }) := by
  have hexec : responseExec (w ++ v) (.at m t) x.reset =
      (w.length, .at false (after m HttpClient.main t w), .ok y) := by
    have h := exec_of_completes (v := v) (f := runResponseAct (w ++ v)) (p := 0)
      (s := .ok x.reset) hread
    rw [hplay, Nat.zero_add] at h
    exact h
  have hint : ((w ++ v).length : Int) = toInt32 (w ++ v).length :=
    (toInt32_of_lt (by omega) (by omega)).symm
  rw [HttpResponseParser.httpclientParserExecute, if_neg (not_not_intro hint), hcs, hexec]
  show HttpResponseParser.leaveExecute _ _ _ y = _
  rw [HttpResponseParser.leaveExecute, if_pos, if_pos]
  · exact ⟨hmark, hfield⟩
  · refine ⟨?_, hbody⟩
    rw [List.length_append]
    exact Nat.le_add_right ..

/-- The parser behind a size line. -/
def sized (n : Nat) (len : Nat) (x : HttpResponseParser) : HttpResponseParser :=
  { x with parser := { httpclientParserInit with
      cs := .at false sizeEnd
      bodyStart := len
      contentLen := n
      chunked := true
      chunksDone := decide (n = 0)
      nread := len } }

theorem length_sizeLine (d : List UInt8) :
    (sizeLine d).length = (numeral 16 d.length).length + 2 := List.length_append

/-- The three actions of a size line, carried out. -/
theorem sizeActs_eq {buffer : List UInt8} {k : Nat} {n : Int} {x : HttpResponseParser}
    (hn : toInt32 (strtol 16 buffer) = n) :
    runResponseAct buffer (k + 2) .done (runResponseAct buffer (k + 1) .chunkSize
        (runResponseAct buffer 0 .mark (.ok x))) =
      .ok { x with parser := { x.parser with
        mark := 0
        chunked := true
        contentLen := n
        chunksDone := decide (n ≤ 0)
        bodyStart := k + 2 + 1 } } := by
  subst hn
  rfl

/-- One attempt reads a size line that is there as a whole. -/
theorem execute_sizeLine {d : List UInt8} {x : HttpResponseParser}
    (hlen : (sizeLine d ++ tail).length < 2 ^ 31) (hd : d.length < 2 ^ 31) :
    x.execute true (sizeLine d ++ tail) = .ok (tail, sized d.length (sizeLine d).length x) := by
  obtain ⟨c, ds, hcs⟩ := List.exists_cons_of_ne_nil (numeral_ne_nil 16 d.length)
  have hdigits : ∀ e ∈ c :: ds, isXdigit e = true := fun e he =>
    isXdigit_of_isDigitOf (isDigitOf_of_mem_numeral (Or.inr rfl) (hcs ▸ he))
  have hline : sizeLine d = c :: (ds ++ [13, 10]) := by
    rw [sizeLine, hcs]
    rfl
  -- The number that `chunk_size` finds is the length of the chunk.
  have hsize : toInt32 (strtol 16 (sizeLine d ++ tail)) = d.length := by
    rw [sizeLine, List.append_assoc, strtol_digits (numeral_ne_nil _ _), ofNumeral_numeral,
      saturate_of_lt, toInt32_of_lt]
    all_goals first | omega | skip
    · exact fun e he => isDigitOf_of_mem_numeral (Or.inr rfl) he
    · intro e he
      obtain rfl := Option.some.inj he
      decide
  have hdone : decide ((d.length : Int) ≤ 0) = decide (d.length = 0) := by
    rw [decide_eq_decide]
    omega
  rw [List.forall_mem_cons] at hdigits
  obtain ⟨hread, hafter, hplay⟩ := size_scan hdigits.1 hdigits.2
    (f := runResponseAct (sizeLine d ++ tail))
    (s := .ok { x with parser := httpclientParserInit })
  rw [← hline] at hread hafter hplay
  have hstart : (sizeLine d).length = ds.length + 2 + 1 := by
    rw [hline, List.length_cons, List.length_append]
    rfl
  have hlen' : 0 < (sizeLine d ++ tail).length := by
    rw [List.length_append]
    omega
  have hexec := httpclientParserExecute_of_completes (x := { x with parser := httpclientParserInit })
    hlen rfl hread (hplay.trans (sizeActs_eq hsize)) (by
      rw [← hstart, List.length_append]
      exact Nat.le_add_right ..) hlen' ⟨Nat.zero_le _, hlen'⟩
  rw [HttpResponseParser.execute, cond_true, hexec, Except.map, List.drop_left, hafter, ← hstart,
    hdone]
  rfl

end

/-! ### The loops -/

section
variable {buffSize : Nat} {d body data tail y : List UInt8} {s s' : Stream}
  {x : HttpResponseParser}

theorem hasError_sized {n len : Nat} (hx : x.error = 0) : (sized n len x).hasError = false := by
  show (x.error != 0 || _) = false
  rw [hx]
  rfl

theorem isFinished_sized {n len : Nat} : (sized n len x).isFinished = true := by
  show (live false HttpClient.main sizeEnd && !hasNext false HttpClient.main sizeEnd) = true
  decide +kernel

/-- What is in the buffer and in the stream stays the same. -/
theorem fill_eq (hs : s.Solid) (hlen : data.length ≤ buffSize)
    (h : fill buffSize true data s = (some tail, s')) :
    tail ++ s'.flatten = data ++ s.flatten ∧ s'.Solid ∧ tail.length ≤ buffSize := by
  rw [fill, Bool.not_true, Bool.false_or] at h
  cases data with
  | cons c data =>
      obtain ⟨hdata, rfl⟩ := Prod.mk.inj h
      obtain rfl := Option.some.inj hdata
      exact ⟨rfl, hs, hlen⟩
  | nil =>
      rw [List.isEmpty_nil, cond_true, List.length_nil, Nat.sub_zero] at h
      cases hread : s.read buffSize with
      | mk bs s'' =>
          rw [hread] at h
          cases bs with
          | nil => cases h
          | cons c bs =>
              obtain ⟨hflat, hle, hsolid⟩ := Stream.read_keeps hs hread
              obtain ⟨hdata, rfl⟩ := Prod.mk.inj h
              obtain rfl := Option.some.inj hdata
              exact ⟨hflat, hsolid, hle⟩

theorem recvSize_eq {fuel : Nat} (hs : s.Solid) (hbuff : buffSize < 2 ^ 31)
    (hd : d.length < 2 ^ 31) (hdata : data.length ≤ buffSize) (hx : x.error = 0)
    (hfill : fill buffSize true data s = (some (sizeLine d ++ tail), s')) :
    recvSize buffSize (fuel + 1) true data x s =
      .ok (.parsed (sized d.length (sizeLine d).length x) tail, s') := by
  obtain ⟨-, -, hlen⟩ := fill_eq hs hdata hfill
  have htail : tail.length ≠ buffSize := by
    rw [List.length_append, length_sizeLine] at hlen
    omega
  rw [recvSize, hfill]
  simp only [execute_sizeLine (x := x) (by omega : (sizeLine d ++ tail).length < 2 ^ 31) hd]
  show (if _ = true then _ else if _ then _ else if _ = true then _ else _) = _
  rw [hasError_sized hx, if_neg Bool.false_ne_true, if_neg htail, isFinished_sized, if_pos rfl]

/-- A chunk is taken from the buffer and the stream, wherever its bytes are. -/
theorem recvData_eq (hs : s.Solid) (hbuff : 0 < buffSize) (hd : d.length + 2 < 2 ^ 31)
    (hflat : tail ++ s.flatten = d ++ (text "\r\n" ++ y)) :
    recvData buffSize d.length body tail s =
      .ok (some (body ++ d, tail.drop (d.length + 2)), s.skip (d.length + 2 - tail.length)) := by
  have hcrlf : (text "\r\n").length = 2 := rfl
  rw [recvData, if_neg (by omega)]
  split
  · next h =>
      have htake : tail.take d.length = d := by
        rw [← List.take_append_of_le_length (by omega : d.length ≤ tail.length), hflat, List.take_left]
      rw [if_neg (by omega), Int.toNat_natCast, htake, show d.length + 2 - tail.length = 0 by omega,
        Stream.skip_zero hs]
  · next h =>
      have hlen := congrArg List.length hflat
      simp only [List.length_append, hcrlf] at hlen
      have hleft : ((d.length : Int) - tail.length + 2).toNat = d.length + 2 - tail.length := by omega
      have hbody : body ++ tail ++ s.flatten.take (d.length + 2 - tail.length) =
          body ++ d ++ text "\r\n" := by
        have htake : (tail ++ s.flatten).take (d.length + 2) = d ++ text "\r\n" := by
          rw [hflat, ← List.append_assoc, ← hcrlf, ← List.length_append, List.take_left]
        rw [List.take_append, List.take_of_length_le (by omega)] at htake
        rw [List.append_assoc, htake, List.append_assoc]
      have hread : readLeft buffSize (d.length + 2 - tail.length) (d.length + 2 - tail.length)
          (body ++ tail) s =
          (some (body ++ d ++ text "\r\n"), s.skip (d.length + 2 - tail.length)) := by
        rw [Stream.readLeft_eq hs hbuff (by omega) le_rfl, hbody]
      simp only [hleft, hread]
      rw [if_neg, List.length_append, hcrlf, Nat.add_sub_cancel, List.take_left,
        List.drop_eq_nil_of_le (by omega)]
      rw [List.length_append, hcrlf]
      omega

/-- The bytes behind a chunk. -/
theorem flatten_behind (hflat : tail ++ s.flatten = d ++ (text "\r\n" ++ y)) :
    tail.drop (d.length + 2) ++ (s.skip (d.length + 2 - tail.length)).flatten = y := by
  have hcrlf : (text "\r\n").length = 2 := rfl
  rw [Stream.flatten_skip, ← List.drop_append, hflat, ← List.append_assoc, ← hcrlf,
    ← List.length_append, List.drop_left]

/-- One round of the loop over the chunks. -/
theorem recvChunks_step (fuel : Nat) (body : List UInt8) (hs : s.Solid) (hbuff : buffSize < 2 ^ 31)
    (hdata : data.length ≤ buffSize) (hx : x.error = 0) (hd : d.length + 2 < 2 ^ 31)
    (hflat : data ++ s.flatten = encodeChunk d ++ y)
    (hfill : fill buffSize true data s = (some (sizeLine d ++ tail), s')) :
    s'.Solid ∧ tail ++ s'.flatten = d ++ (text "\r\n" ++ y) ∧ tail.length ≤ buffSize ∧
    recvChunks buffSize (fuel + 1) body data x s =
      bif decide (d.length = 0) then
        .ok (some (body ++ d, sized d.length (sizeLine d).length x, tail.drop (d.length + 2)),
          s'.skip (d.length + 2 - tail.length))
      else
        recvChunks buffSize fuel (body ++ d) (tail.drop (d.length + 2))
          (sized d.length (sizeLine d).length x) (s'.skip (d.length + 2 - tail.length)) := by
  obtain ⟨hkeep, hs', hlen⟩ := fill_eq hs hdata hfill
  rw [List.length_append, length_sizeLine] at hlen
  have htail : tail ++ s'.flatten = d ++ (text "\r\n" ++ y) := by
    rw [hflat, encodeChunk, List.append_assoc, List.append_assoc, List.append_assoc] at hkeep
    exact List.append_cancel_left hkeep
  refine ⟨hs', htail, by omega, ?_⟩
  rw [recvChunks, rounds, recvSize_eq hs hbuff (by omega) hdata hx hfill]
  show Except.bind (recvData buffSize (d.length : Int) body tail s') _ = _
  rw [recvData_eq hs' (by omega) hd htail]
  rfl

/-- The loop over the chunks returns their data and stops behind the last one. -/
theorem recvChunks_eq (fuel : Nat) (body : List UInt8) {chunks : List (List UInt8)} (hs : s.Solid)
    (hbuff : buffSize < 2 ^ 31) (hdata : data.length ≤ buffSize) (hx : x.error = 0)
    (hne : ∀ d ∈ chunks, d ≠ []) (hsize : ∀ d ∈ chunks, d.length + 2 < 2 ^ 31)
    (hflat : data ++ s.flatten = encodeChunks chunks ++ y)
    (hwhole : Whole buffSize (chunks ++ [[]]) data s) (hfuel : chunks.length < fuel) :
    ∃ x' data' s', recvChunks buffSize fuel body data x s =
        .ok (some (body ++ chunks.flatten, x', data'), s') ∧ s'.Solid ∧
      data' ++ s'.flatten = y := by
  induction chunks generalizing body data s x fuel with
  | nil =>
      obtain ⟨fuel, rfl⟩ : ∃ n, fuel = n + 1 := ⟨fuel - 1, by rw [List.length_nil] at hfuel; omega⟩
      obtain ⟨tail, s', hfill, -⟩ := hwhole
      have hlast : encodeChunks [] = encodeChunk [] := List.append_nil _
      rw [hlast] at hflat
      obtain ⟨hs', htail, -, hstep⟩ := recvChunks_step fuel body hs hbuff hdata hx
        (by decide) hflat hfill
      rw [hstep]
      exact ⟨_, _, _, rfl, Stream.solid_skip hs', flatten_behind htail⟩
  | cons d chunks ih =>
      obtain ⟨fuel, rfl⟩ : ∃ n, fuel = n + 1 := ⟨fuel - 1, by rw [List.length_cons] at hfuel; omega⟩
      obtain ⟨tail, s', hfill, hrest⟩ := hwhole
      rw [List.forall_mem_cons] at hne hsize
      have hcons : encodeChunks (d :: chunks) = encodeChunk d ++ encodeChunks chunks := rfl
      rw [hcons, List.append_assoc] at hflat
      obtain ⟨hs', htail, hlen, hstep⟩ := recvChunks_step fuel body hs hbuff hdata
        hx hsize.1 hflat hfill
      have hpos : d.length ≠ 0 := mt List.length_eq_zero_iff.mp hne.1
      rw [hstep, decide_eq_false hpos, cond_false]
      have hdrop : (tail.drop (d.length + 2)).length ≤ buffSize := by
        rw [List.length_drop]
        omega
      have hx' : (sized d.length (sizeLine d).length x).error = 0 := hx
      obtain ⟨x', data', s'', hrun, hsolid, hy⟩ := ih fuel (body ++ d)
        (Stream.solid_skip hs') hdrop hx' hne.2 hsize.2 (flatten_behind htail) hrest
        (by rw [List.length_cons] at hfuel; omega)
      refine ⟨x', data', s'', ?_, hsolid, hy⟩
      rw [List.flatten_cons, ← List.append_assoc]
      exact hrun

end

/-! ### The head -/

/-- The head of a chunked response: the machine reads it, `done` ends the scan on its last byte, and
the parser has then seen `Transfer-Encoding: chunked` and no error. -/
def ChunkedHead (head : List UInt8) : Prop :=
  completes HttpClient.main ResponseAction.stops true .none head = true ∧
    ∃ p, HttpResponseParser.new.execute false head = .ok ([], p) ∧ p.hasError = false ∧
      p.isFinished = true ∧ p.parser.chunked = true

/-- The parser `x` has more bytes in its buffer than the parser `y` and both are at `p`. What the
rest of the call looks at is the same. -/
structure Agrees (p : Nat) (x y : HttpResponseParser) : Prop where
  error : x.error = y.error
  chunked : x.parser.chunked = y.parser.chunked
  mark : x.parser.mark = y.parser.mark
  fieldStart : x.parser.fieldStart = y.parser.fieldStart
  fieldLen : x.parser.fieldLen = y.parser.fieldLen
  bodyStart : x.parser.bodyStart = y.parser.bodyStart
  markLe : y.parser.mark ≤ p

section
variable {buf post : List UInt8} {p : Nat} {a : ResponseAction} {x y y' : HttpResponseParser}

theorem Agrees.next (h : Agrees p x y) : Agrees (p + 1) x y :=
  { h with markLe := Nat.le_succ_of_le h.markLe }

-- A lemma of its own, so that no proof looks into the number.
theorem Agrees.setFieldLen {n n' : Nat} (h : Agrees p x y) (hn : n = n') :
    Agrees p { x with parser := { x.parser with fieldLen := n } }
      { y with parser := { y.parser with fieldLen := n' } } := { h with fieldLen := hn }

/-- An action that stores a text stores it in both. -/
theorem Agrees.slice {k n : Nat} {f g : List UInt8 → Except Abort HttpResponseParser}
    (h : Http.slice buf k n >>= g = .ok y')
    (hf : ∀ v, g v = .ok y' → ∃ x', f v = .ok x' ∧ Agrees p x' y') :
    ∃ x', Http.slice (buf ++ post) k n >>= f = .ok x' ∧ Agrees p x' y' := by
  cases hv : Http.slice buf k n with
  | error e =>
      rw [hv] at h
      cases h
  | ok v =>
      rw [hv] at h
      rw [slice_append hv]
      exact hf v h

theorem Agrees.step (hp : p ≤ buf.length) (hsize : buf.length < 2 ^ 31) (h : Agrees p x y)
    (hy : responseAct buf p a y = .ok y') :
    ∃ x', responseAct (buf ++ post) p a x = .ok x' ∧ Agrees p x' y' := by
  cases a with
  | mark | startValue =>
      obtain rfl := Except.ok.inj hy
      exact ⟨_, rfl, { h with mark := rfl, markLe := le_rfl }⟩
  | startField =>
      obtain rfl := Except.ok.inj hy
      exact ⟨_, rfl, { h with fieldStart := rfl }⟩
  | writeField =>
      obtain rfl := Except.ok.inj hy
      exact ⟨_, rfl, h.setFieldLen (by rw [h.fieldStart])⟩
  | writeContentLen =>
      rw [responseAct] at hy ⊢
      generalize toInt32 (strtol 10 (buf.drop y.parser.mark)) = n at hy
      generalize toInt32 (strtol 10 ((buf ++ post).drop x.parser.mark)) = n'
      obtain rfl := Except.ok.inj hy
      exact ⟨_, rfl, { h with }⟩
  | writeConnectionClose =>
      obtain rfl := Except.ok.inj hy
      exact ⟨_, rfl, { h with }⟩
  | writeValue =>
      rw [responseAct] at hy ⊢
      rw [h.fieldLen, h.fieldStart, h.mark]
      split
      · next hlen =>
          rw [if_pos hlen] at hy
          obtain rfl := Except.ok.inj hy
          exact ⟨_, rfl, h⟩
      · next hlen =>
          rw [if_neg hlen] at hy
          refine Agrees.slice hy fun field hy => Agrees.slice hy fun value hy => ?_
          obtain rfl := Except.ok.inj hy
          exact ⟨_, rfl, { h with }⟩
  | reasonPhrase =>
      rw [responseAct] at hy ⊢
      rw [h.mark]
      refine Agrees.slice hy fun v hy => ?_
      obtain rfl := Except.ok.inj hy
      exact ⟨_, rfl, { h with }⟩
  | statusCode =>
      rw [responseAct] at hy ⊢
      generalize atoi (buf.drop y.parser.mark) = n at hy
      generalize atoi ((buf ++ post).drop x.parser.mark) = n'
      obtain rfl := Except.ok.inj hy
      exact ⟨_, rfl, { h with }⟩
  | httpVersion =>
      have hcmp : ∀ b, strncmpEq ((buf ++ post).drop y.parser.mark) b (p - y.parser.mark) =
          strncmpEq (buf.drop y.parser.mark) b (p - y.parser.mark) := by
        have hle := h.markLe
        intro b
        refine strncmpEq_congr ?_
        rw [List.drop_append_of_le_length (by omega),
          List.take_append_of_le_length (by rw [List.length_drop]; omega)]
      have hlen : lenTo y.parser.mark p = p - y.parser.mark := lenTo_eq h.markLe (by omega)
      rw [responseAct, hlen, onResponseVersion] at hy
      rw [responseAct, h.mark, hlen, onResponseVersion, hcmp, hcmp]
      obtain rfl := Except.ok.inj hy
      refine ⟨_, rfl, ?_⟩
      cases strncmpEq (buf.drop y.parser.mark) (text "HTTP/1.1") (p - y.parser.mark) with
      | true => exact { h with }
      | false =>
          cases strncmpEq (buf.drop y.parser.mark) (text "HTTP/1.0") (p - y.parser.mark) with
          | true => exact { h with }
          | false => exact { h with error := rfl }
  | chunkSize =>
      rw [responseAct] at hy ⊢
      generalize toInt32 (strtol 16 (buf.drop y.parser.mark)) = n at hy
      generalize toInt32 (strtol 16 ((buf ++ post).drop x.parser.mark)) = n'
      obtain rfl := Except.ok.inj hy
      exact ⟨_, rfl, { h with chunked := rfl }⟩
  | transChunked =>
      obtain rfl := Except.ok.inj hy
      exact ⟨_, rfl, { h with chunked := rfl }⟩
  | done =>
      obtain rfl := Except.ok.inj hy
      exact ⟨_, rfl, { h with bodyStart := rfl }⟩

theorem play_agrees {m : Bool} {t : Marks} (hsize : buf.length < 2 ^ 31) (h : Agrees 0 x y)
    (hy : play HttpClient.main (runResponseAct buf) 0 m t buf (.ok y) = .ok y') :
    ∃ x', play HttpClient.main (runResponseAct (buf ++ post)) 0 m t buf (.ok x) = .ok x' ∧
      Agrees buf.length x' y' := by
  have hplaces : Places HttpClient.main (fun p _ => p ≤ buf.length) 0 m t buf := by
    refine places_of_forall fun u c v hbuf _ _ => ?_
    rw [hbuf, List.length_append]
    omega
  have hrel := play_related (r := HttpClient.main) (m := m) (t := t) (w := buf)
    (f := runResponseAct (buf ++ post)) (g := runResponseAct buf) (p := 0) (q := 0)
    (R := fun p q _ st st' => p = q ∧ ∀ y, st' = .ok y → ∃ x, st = .ok x ∧ Agrees p x y)
    ?_ ?_ hplaces (l := []) ⟨rfl, fun z hz => ⟨x, rfl, Except.ok.inj hz ▸ h⟩⟩
  · obtain ⟨x', hx', hagrees⟩ := hrel.2 y' hy
    rw [Nat.zero_add] at hagrees
    exact ⟨x', hx', hagrees⟩
  · rintro p q a as st (e | z) hp ⟨rfl, hst⟩
    · exact ⟨rfl, fun y hy => by cases hy⟩
    · obtain ⟨x, rfl, hx⟩ := hst z rfl
      exact ⟨rfl, fun y hy => hx.step hp hsize hy⟩
  · rintro p q as st st' ⟨rfl, hst⟩
    refine ⟨rfl, fun y hy => ?_⟩
    obtain ⟨x, hx, hagrees⟩ := hst y hy
    exact ⟨x, hx, hagrees.next⟩

/-- What a call that ends with `done` and returns has done. -/
theorem of_httpclientParserExecute {m : Bool} {t : Marks} {n : Nat}
    (hcs : x.parser.cs = .at m t)
    (hread : completes HttpClient.main ResponseAction.stops m t buf = true)
    (h : HttpResponseParser.httpclientParserExecute buf x = .ok (n, y)) :
    ∃ z, play HttpClient.main (runResponseAct buf) 0 m t buf (.ok x.reset) = .ok z ∧
      y = { z with parser := { z.parser with
        nread := buf.length
        cs := .at false (after m HttpClient.main t buf) } } ∧
      z.parser.bodyStart ≤ buf.length ∧ z.parser.mark < buf.length ∧
      z.parser.fieldLen ≤ buf.length ∧ z.parser.fieldStart < buf.length := by
  have hexec := exec_of_completes (v := []) (f := runResponseAct buf) (p := 0)
    (s := .ok x.reset) hread
  rw [List.append_nil, Nat.zero_add] at hexec
  have hexec : responseExec buf (.at m t) x.reset = _ := hexec
  rw [HttpResponseParser.httpclientParserExecute] at h
  split at h
  · cases h
  · rw [hcs, hexec] at h
    cases hz : play HttpClient.main (runResponseAct buf) 0 m t buf (.ok x.reset) with
    | error e =>
        rw [hz] at h
        cases h
    | ok z =>
        rw [hz] at h
        change HttpResponseParser.leaveExecute _ _ _ z = _ at h
        rw [HttpResponseParser.leaveExecute] at h
        split at h
        · next hbody =>
            split at h
            · next hfield =>
                obtain ⟨-, rfl⟩ := Prod.mk.inj (Except.ok.inj h)
                exact ⟨z, rfl, rfl, hbody.2, hfield⟩
            · cases h
        · cases h

/-- A call on a complete head with more bytes behind it. -/
theorem execute_head {head rest : List UInt8}
    (hread : completes HttpClient.main ResponseAction.stops true .none head = true)
    (hlen : (head ++ post).length < 2 ^ 31)
    (hy : HttpResponseParser.new.execute false head = .ok (rest, y)) :
    ∃ x, HttpResponseParser.new.execute false (head ++ post) = .ok (post, x) ∧
      x.error = y.error ∧ x.parser.chunked = y.parser.chunked ∧ x.parser.cs = y.parser.cs := by
  rw [HttpResponseParser.execute, cond_false] at hy
  cases hexec : HttpResponseParser.httpclientParserExecute head .new with
  | error e =>
      rw [hexec] at hy
      cases hy
  | ok r =>
      rw [hexec] at hy
      obtain ⟨-, rfl⟩ := Prod.mk.inj (Except.ok.inj hy)
      obtain ⟨z, hplay, hz, hbody, hmark, hlen', hstart⟩ :=
        of_httpclientParserExecute rfl hread hexec
      have hnew : Agrees 0 HttpResponseParser.new.reset HttpResponseParser.new.reset :=
        ⟨rfl, rfl, rfl, rfl, rfl, rfl, le_rfl⟩
      rw [List.length_append] at hlen
      obtain ⟨x, hx, hagrees⟩ := play_agrees (by omega) hnew hplay
      have hle : head.length ≤ (head ++ post).length := by
        rw [List.length_append]
        exact Nat.le_add_right ..
      obtain ⟨w, hw, hwe, hwc, hws⟩ : ∃ w,
          HttpResponseParser.httpclientParserExecute (head ++ post) .new = .ok (head.length, w) ∧
            w.error = x.error ∧ w.parser.chunked = x.parser.chunked ∧
            w.parser.cs = .at false (after true HttpClient.main .none head) := by
        refine ⟨_, httpclientParserExecute_of_completes (by rwa [List.length_append]) rfl hread hx
          (by rw [hagrees.bodyStart]; omega) (by rw [hagrees.mark]; omega)
          ⟨by rw [hagrees.fieldLen]; omega, by rw [hagrees.fieldStart]; omega⟩, rfl, rfl, rfl⟩
      refine ⟨w, ?_, ?_, ?_, ?_⟩
      · rw [HttpResponseParser.execute, cond_false, hw, Except.map, List.drop_left]
      · rw [hwe, hz, hagrees.error]
      · rw [hwc, hz, hagrees.chunked]
      · rw [hws, hz]

end

/-! ### The response -/

section
variable {buffSize : Nat} {head rest : List UInt8}

/-- The first read brings the head and some bytes behind it. -/
theorem recvHead_chunked (fuel : Nat) (s : Stream) (hhead : ChunkedHead head)
    (hfit : (head ++ rest).length ≤ buffSize) (hbuff : buffSize < 2 ^ 31) :
    ∃ p, recvHead buffSize (fuel + 1) [] .new ((head ++ rest) :: s) =
        .ok (.parsed p rest, s) ∧ p.error = 0 ∧ p.parser.chunked = true := by
  obtain ⟨hread, y, hy, herror, hfinished, hchunked⟩ := hhead
  have hne : head ≠ [] := by
    rintro rfl
    cases hread
  obtain ⟨x, hx, hxe, hxc, hxs⟩ := execute_head hread (by omega : (head ++ rest).length < 2 ^ 31) hy
  have hxerror : x.hasError = false := by
    rw [HttpResponseParser.hasError, hxe, hxs]
    exact herror
  have hxfinished : x.isFinished = true := by
    rw [HttpResponseParser.isFinished, hxs]
    exact hfinished
  have hlen : rest.length ≠ buffSize := by
    have := List.length_pos_iff.mpr hne
    rw [List.length_append] at hfit
    omega
  refine ⟨x, ?_, ?_, hxc.trans hchunked⟩
  · obtain ⟨c, head, rfl⟩ := List.exists_cons_of_ne_nil hne
    rw [recvHead, List.length_nil, Nat.sub_zero, Stream.read, if_pos hfit]
    simp only [List.nil_append, List.cons_append]
    rw [← List.cons_append, hx]
    show (if _ = true then _ else if _ then _ else if _ = true then _ else _) = _
    rw [hxerror, if_neg Bool.false_ne_true, if_neg hlen, hxfinished, if_pos rfl]
  · rw [HttpResponseParser.hasError, Bool.or_eq_false_iff, bne_eq_false_iff_eq] at hxerror
    exact hxerror.1

theorem length_lt_encodeChunks (chunks : List (List UInt8)) :
    chunks.length < (encodeChunks chunks).length := by
  induction chunks with
  | nil => decide
  | cons d chunks ih =>
      have hcons : encodeChunks (d :: chunks) = encodeChunk d ++ encodeChunks chunks := rfl
      rw [hcons, List.length_append, encodeChunk, List.length_append, length_sizeLine,
        List.length_cons]
      omega

/-- A chunked response is decoded when no size line is cut. -/
theorem recvResponse_chunked (buffSize : Nat) (head rest y : List UInt8)
    (chunks : List (List UInt8)) (pieces : Stream) (hbuff : buffSize < 2 ^ 31)
    (hhead : ChunkedHead head) (hfit : (head ++ rest).length ≤ buffSize)
    (hpieces : ∀ v ∈ pieces, v ≠ []) (hchunks : ∀ d ∈ chunks, d ≠ [])
    (hsize : ∀ d ∈ chunks, d.length + 2 < 2 ^ 31)
    (hflat : rest ++ pieces.flatten = encodeChunks chunks ++ y)
    (hwhole : Whole buffSize (chunks ++ [[]]) rest pieces) :
    ∃ r data s, recvResponse buffSize ((head ++ rest) :: pieces) = .ok (some (r, data), s) ∧
      r.body = chunks.flatten ∧ data ++ s.flatten = y := by
  obtain ⟨p, hhead, herror, hchunked⟩ := recvHead_chunked
    ((head ++ rest) :: pieces).flatten.length pieces hhead hfit hbuff
  have hfuel : chunks.length < rest.length + rounds pieces := by
    have hlen := congrArg List.length hflat
    rw [List.length_append, List.length_append] at hlen
    have hlt := length_lt_encodeChunks chunks
    rw [rounds]
    omega
  have hrest : rest.length ≤ buffSize := by
    rw [List.length_append] at hfit
    omega
  obtain ⟨p', data, s, hrun, -, hy⟩ := recvChunks_eq (rest.length + rounds pieces) [] hpieces hbuff
    hrest herror hchunks hsize hflat hwhole
    hfuel
  refine ⟨{ p'.data with body := chunks.flatten }, data, s, ?_, rfl, hy⟩
  rw [recvResponse, rounds, hhead]
  show (bif p.parser.chunked then _ else _) = _
  rw [hchunked, cond_true, hrun]
  rfl

end

/-- The shortest head of a chunked response. -/
def plainHead : List UInt8 := text "HTTP/1.1 200 OK\r\nTransfer-Encoding: chunked\r\n\r\n"

theorem chunkedHead_plainHead : ChunkedHead plainHead := by
  have hexec : (HttpResponseParser.new.execute false plainHead).toOption.map
      (fun r => (r.1, r.2.hasError, r.2.isFinished, r.2.parser.chunked)) =
      some ([], false, true, true) := by
    decide +kernel
  refine ⟨by decide +kernel, ?_⟩
  cases h : HttpResponseParser.new.execute false plainHead with
  | error e =>
      rw [h] at hexec
      cases hexec
  | ok r =>
      rw [h] at hexec
      obtain ⟨rest, p⟩ := r
      simp only [Except.toOption, Option.map_some, Option.some.injEq, Prod.mk.injEq] at hexec
      obtain ⟨rfl, hrest⟩ := hexec
      exact ⟨p, rfl, hrest⟩

/-- One chunk, with its size line and its data in reads of their own. -/
theorem recvResponse_chunked_hello :
    ∃ r data s, recvResponse 4096
        [plainHead, text "5\r\n", text "hel", text "lo\r\n", text "0\r\n\r\n"] =
        .ok (some (r, data), s) ∧
      r.body = text "hello" ∧ data ++ s.flatten = [] := by
  have h := recvResponse_chunked 4096 plainHead [] [] [text "hello"]
    [text "5\r\n", text "hel", text "lo\r\n", text "0\r\n\r\n"] (by decide) chunkedHead_plainHead
    (by decide) (by decide) (by decide) (by decide) (by decide)
    ⟨[], _, rfl, text "\r\n", [], rfl, trivial⟩
  exact h

/-- The size line is cut, and the second attempt starts in the middle of it. -/
theorem recvResponse_cut_size :
    ChunkedHead plainHead ∧
      [text "5", text "\r\nhello\r\n0\r\n\r\n"].flatten = encodeChunks [text "hello"] ∧
      ∃ s, recvResponse 4096 [plainHead, text "5", text "\r\nhello\r\n0\r\n\r\n"] =
        .ok (none, s) := by
  have hrun : (recvResponse 4096 [plainHead, text "5",
      text "\r\nhello\r\n0\r\n\r\n"]).toOption.map (fun r => r.1.isSome) = some false := by
    decide +kernel
  refine ⟨chunkedHead_plainHead, by decide, ?_⟩
  cases h : recvResponse 4096 [plainHead, text "5", text "\r\nhello\r\n0\r\n\r\n"] with
  | error e =>
      rw [h] at hrun
      cases hrun
  | ok r =>
      rw [h] at hrun
      obtain ⟨_ | _, s⟩ := r
      · exact ⟨s, rfl⟩
      · cases hrun

end Sylar.Http.HttpConnection
