import Sylar.Proofs.Http.RequestMachine
import Sylar.Proofs.Http.Slices
import Sylar.Spec.HttpSession

/-!
# `Sylar.Proofs.Http.Segmentation`: a request head in several reads

The parser keeps four positions between its actions: `mark`, `field_start`, `field_len` and
`query_start`. They are offsets into the buffer of one call. `http_parser_execute` resets three of
them when it is called and leaves the fourth as it is, and the bytes that they pointed at have been
moved out of the buffer. So a position that was saved before a cut is lost, and the head is parsed as
in one read when no such position is used after the cut (`CleanCut`).

The proof runs the parser on the whole head and on the piece that is in the buffer side by side.
`Sim` relates the two states. The saved positions have to agree only if one of the actions to come
uses them before they are set again.
-/

set_option autoImplicit false

namespace Sylar.Http

open Lib Lib.Rx

/-- The positions that the parser saves in one action for a later one. -/
inductive Saved where
  | mark | fieldStart | fieldLen | queryStart
  deriving DecidableEq, Repr

/-- The action looks at the position. `request_uri` has a callback that does nothing. -/
def RequestAction.uses : RequestAction → Saved → Bool
  | .writeField, .fieldStart => true
  | .writeValue, .mark => true
  | .writeValue, .fieldStart => true
  | .writeValue, .fieldLen => true
  | .requestMethod, .mark => true
  | .fragment, .mark => true
  | .queryString, .queryStart => true
  | .httpVersion, .mark => true
  | .requestPath, .mark => true
  | _, _ => false

def RequestAction.sets : RequestAction → Saved → Bool
  | .mark, .mark => true
  | .startValue, .mark => true
  | .startField, .fieldStart => true
  | .writeField, .fieldLen => true
  | .startQuery, .queryStart => true
  | _, _ => false

/-- The action sets one of the positions. -/
def RequestAction.saves (a : RequestAction) : Bool :=
  a.sets .mark || a.sets .fieldStart || a.sets .fieldLen || a.sets .queryStart

/-- One of the actions uses the position before it is set again. -/
def needs (x : Saved) : List RequestAction → Bool
  | [] => false
  | a :: as => a.uses x || !a.sets x && needs x as

/-- The head of a request: the machine reads it, and `done` ends the scan on its last byte. -/
def CompleteHead (relaxed : Bool) (h : List UInt8) : Prop :=
  completes (Http11.main relaxed) RequestAction.stops true .none h = true

/-- No position that is saved in `u` is used in `v`. -/
def CleanCut (relaxed : Bool) (u v : List UInt8) : Prop :=
  ∀ x, needs x (emits (Http11.main relaxed) false (after true (Http11.main relaxed) .none u) v) =
    false

/-- Every cut between two pieces is clean. -/
def CleanCuts (relaxed : Bool) (pieces : Stream) : Prop :=
  ∀ us ws, pieces = us ++ ws → us ≠ [] → CleanCut relaxed us.flatten ws.flatten

/-- The request that the loop over the head has made, or none. -/
def Head.request : Head → Option HttpRequest
  | .closed => none
  | .parsed p _ => some p.data

/-- What the loop of `recvRequest` makes of the pieces. -/
def parseHead (junk : Junk) (buffSize : Nat) (pieces : Stream) :
    Except Abort (Option HttpRequest) :=
  (recvHead junk.uriRelaxed buffSize (rounds pieces) [] (.new junk) pieces).map
    fun r => r.1.request

/-! ### The two runs -/

/-- What is known of an action at the position `p` of the head `pre ++ (buf ++ post)`. -/
structure Allowed (pre buf post : List UInt8) (bound p : Nat) (a : RequestAction) : Prop where
  inBuf : p < pre.length + buf.length
  method : a = .requestMethod → ∃ u x, pre ++ (buf ++ post) = u ++ 32 :: x ∧ u.length = p ∧
    (32 : UInt8) ∉ u ∧ ¬ text "- SEARCH" <+: x
  done : a = .done → buf.length ≤ bound

/-- The parser `x` has the whole head in its buffer and is at `p`. The parser `y` has the piece `buf`
that follows `pre`, and it is at `q`. -/
structure Sim (pre buf : List UInt8) (bound p q : Nat) (as : List RequestAction)
    (x y : HttpRequestParser) : Prop where
  pos : p = pre.length + q
  data : y.data = x.data
  error : y.error = x.error
  running : y.parser.cs ≠ .error
  mark : needs .mark as = true → x.parser.mark = pre.length + y.parser.mark
  fieldStart : needs .fieldStart as = true → x.parser.fieldStart = pre.length + y.parser.fieldStart
  fieldLen : needs .fieldLen as = true → x.parser.fieldLen = y.parser.fieldLen
  queryStart : needs .queryStart as = true →
    x.parser.queryStart = pre.length + y.parser.queryStart ∧ y.parser.queryStart ≤ q
  markLe : y.parser.mark ≤ q ∧ y.parser.mark < buf.length
  fieldStartLe : y.parser.fieldStart ≤ q ∧ y.parser.fieldStart < buf.length
  fieldLenLe : y.parser.fieldLen ≤ q
  body : y.parser.bodyStart ≤ bound
  -- A name that has been written lies in the piece.
  name : ∃ b, brackets b as = true ∧ (b = true → y.parser.fieldStart + y.parser.fieldLen ≤ q)

section
variable {pre buf post : List UInt8} {bound p q : Nat} {as : List RequestAction} {a : RequestAction}
  {x y : HttpRequestParser}

/-- The text from a saved position to the current one is the same in both buffers. -/
theorem slice_both {k k' : Nat} (hsize : (pre ++ (buf ++ post)).length < 2 ^ 31)
    (hp : p = pre.length + q) (hq : q ≤ buf.length) (hk : k = pre.length + k') (hle : k' ≤ q) :
    slice (pre ++ (buf ++ post)) k (lenTo k p) = .ok ((buf.drop k').take (q - k')) ∧
      slice buf k' (lenTo k' q) = .ok ((buf.drop k').take (q - k')) := by
  simp only [List.length_append] at hsize
  rw [hk, hp, lenTo_eq (by omega) (by omega), lenTo_eq hle (by omega), Nat.add_sub_add_left]
  exact ⟨slice_whole (by omega), slice_eq (by omega)⟩

/-- An action that sets no position. -/
theorem Sim.keep {x' y' : HttpRequestParser} (h : Sim pre buf bound p q (a :: as) x y)
    (ha : a.saves = false) (hb : ∀ b, brackets b (a :: as) = true → brackets b as = true)
    (hx : x'.parser = x.parser) (hy : y'.parser = y.parser) (hdata : y'.data = x'.data)
    (herror : y'.error = x'.error) : Sim pre buf bound p q as x' y' := by
  have hneeds : ∀ {s}, needs s as = true → needs s (a :: as) = true := by
    intro s hs
    have hsets : a.sets s = false := by
      simp only [RequestAction.saves, Bool.or_eq_false_iff] at ha
      cases s <;> grind
    rw [needs, hsets, hs, Bool.not_false, Bool.true_and, Bool.or_true]
  obtain ⟨b, hname, hle⟩ := h.name
  refine ⟨h.pos, hdata, herror, ?_, ?_, ?_, ?_, ?_, ?_, ?_, ?_, ?_, b, hb b hname, ?_⟩
  all_goals try rw [hx]
  all_goals rw [hy]
  · exact h.running
  · exact fun hs => h.mark (hneeds hs)
  · exact fun hs => h.fieldStart (hneeds hs)
  · exact fun hs => h.fieldLen (hneeds hs)
  · exact fun hs => h.queryStart (hneeds hs)
  · exact h.markLe
  · exact h.fieldStartLe
  · exact h.fieldLenLe
  · exact h.body
  · exact hle

/-- The lookup of the method finds the same entry in both buffers. -/
theorem charsToHttpMethod_both {k k' : Nat} (hp : p = pre.length + q) (hq : q < buf.length)
    (hk : k = pre.length + k') (hle : k' ≤ q)
    (hm : ∃ u x, pre ++ (buf ++ post) = u ++ 32 :: x ∧ u.length = p ∧ (32 : UInt8) ∉ u ∧
      ¬ text "- SEARCH" <+: x) :
    charsToHttpMethod ((pre ++ (buf ++ post)).drop k) = charsToHttpMethod (buf.drop k') := by
  obtain ⟨u, x, hu, hlen, hblank, hx⟩ := hm
  -- The blank at `q` splits the piece too.
  obtain ⟨v, rfl, hv⟩ : ∃ v, u = pre ++ v ∧ buf ++ post = v ++ 32 :: x := by
    rcases List.append_eq_append_iff.mp hu with ⟨v, hv⟩ | ⟨v, hpre, hv⟩
    · exact ⟨v, hv⟩
    · have hnil : v = [] := List.length_eq_zero_iff.mp (by rw [hpre, List.length_append] at hp; omega)
      rw [hnil, List.append_nil] at hpre
      rw [hnil, List.nil_append] at hv
      exact ⟨[], by rw [hpre, List.append_nil], hv.symm⟩
  have hlen' : v.length = q := by rw [List.length_append] at hlen; omega
  obtain ⟨z, rfl, rfl⟩ : ∃ z, buf = v ++ 32 :: z ∧ x = z ++ post := by
    rcases List.append_eq_append_iff.mp hv with ⟨z, hz, -⟩ | ⟨z, hz, htail⟩
    · rw [hz, List.length_append] at hlen'
      omega
    · cases z with
      | nil =>
          rw [hz, List.append_nil] at hq
          omega
      | cons c z =>
          obtain ⟨rfl, hpost⟩ := List.cons.inj htail
          exact ⟨z, hz, hpost⟩
  have hblank' : (32 : UInt8) ∉ v.drop k' :=
    fun hmem => hblank (List.mem_append_right _ (List.mem_of_mem_drop hmem))
  have hz : ¬ text "- SEARCH" <+: z := fun hle => hx (hle.trans (List.prefix_append ..))
  rw [hk, List.drop_length_add_append, List.append_assoc, List.cons_append,
    List.drop_append_of_le_length (by omega), List.drop_append_of_le_length (by omega),
    charsToHttpMethod_append hblank' fun h => hx h.2,
    charsToHttpMethod_append hblank' fun h => hz h.2]

theorem Sim.step (hsize : (pre ++ (buf ++ post)).length < 2 ^ 31)
    (ha : Allowed pre buf post bound p a) (h : Sim pre buf bound p q (a :: as) x y) :
    ∃ x' y', requestAct (pre ++ (buf ++ post)) p a x = .ok x' ∧ requestAct buf q a y = .ok y' ∧
      Sim pre buf bound p q as x' y' := by
  have hq : q < buf.length := by
    have := ha.inBuf
    have := h.pos
    omega
  cases a with
  | mark =>
      exact ⟨_, _, rfl, rfl, { h with mark := fun _ => h.pos, markLe := ⟨le_rfl, hq⟩ }⟩
  | startField =>
      obtain ⟨b, hb, -⟩ := h.name
      refine ⟨_, _, rfl, rfl, { h with
        fieldStart := fun _ => h.pos, fieldStartLe := ⟨le_rfl, hq⟩, name := ⟨false, hb, ?_⟩ }⟩
      exact fun hfalse => absurd hfalse Bool.false_ne_true
  | writeField =>
      obtain ⟨b, hb, -⟩ := h.name
      have hstart := h.fieldStart rfl
      have hle := h.fieldStartLe.1
      simp only [List.length_append] at hsize
      have hx : lenTo x.parser.fieldStart p = q - y.parser.fieldStart := by
        rw [hstart, h.pos, lenTo_eq (by omega) (by omega), Nat.add_sub_add_left]
      have hy : lenTo y.parser.fieldStart q = q - y.parser.fieldStart := lenTo_eq hle (by omega)
      have hsum : y.parser.fieldStart + (q - y.parser.fieldStart) ≤ q := by omega
      generalize q - y.parser.fieldStart = n at hx hy hsum
      refine ⟨{ x with parser := { x.parser with fieldLen := n } },
        { y with parser := { y.parser with fieldLen := n } }, ?_, ?_, { h with
          fieldStart := fun _ => hstart
          fieldLen := fun _ => rfl
          fieldLenLe := Nat.le_trans (Nat.le_add_left ..) hsum
          name := ⟨true, hb, fun _ => hsum⟩ }⟩
      · simp only [requestAct, hx]
      · simp only [requestAct, hy]
  | startValue =>
      exact ⟨_, _, rfl, rfl, { h with mark := fun _ => h.pos, markLe := ⟨le_rfl, hq⟩ }⟩
  | writeValue =>
      have hbrackets : ∀ b, brackets b (.writeValue :: as) = true → brackets b as = true :=
        fun b hb => (Bool.and_eq_true _ _ |>.mp hb).2
      have hlen := h.fieldLen rfl
      by_cases h0 : y.parser.fieldLen = 0
      · exact ⟨x, y, if_pos (hlen.trans h0), if_pos h0,
          h.keep rfl hbrackets rfl rfl h.data h.error⟩
      · obtain ⟨b, hb, hname⟩ := h.name
        have hin := hname (Bool.and_eq_true _ _ |>.mp hb).1
        have hle : y.parser.fieldStart + y.parser.fieldLen ≤ buf.length := by omega
        have hfield' := slice_eq hle
        have hfield : slice (pre ++ (buf ++ post)) x.parser.fieldStart x.parser.fieldLen =
            .ok ((buf.drop y.parser.fieldStart).take y.parser.fieldLen) := by
          rw [h.fieldStart rfl, hlen]
          exact slice_whole hle
        obtain ⟨hvalue, hvalue'⟩ := slice_both hsize h.pos hq.le (h.mark rfl) h.markLe.1
        generalize (buf.drop y.parser.fieldStart).take y.parser.fieldLen = field at hfield hfield'
        generalize (buf.drop y.parser.mark).take (q - y.parser.mark) = value at hvalue hvalue'
        refine ⟨onRequestHttpField field value x, onRequestHttpField field value y, ?_, ?_, ?_⟩
        · simp only [requestAct, if_neg (hlen ▸ h0), hfield, hvalue]
          rfl
        · simp only [requestAct, if_neg h0, hfield', hvalue']
          rfl
        · rw [onRequestHttpField, onRequestHttpField]
          cases field.isEmpty with
          | true => exact h.keep rfl hbrackets rfl rfl h.data h.error
          | false => exact h.keep rfl hbrackets rfl rfl (by rw [cond_false, h.data]; rfl) h.error
  | requestMethod =>
      have hmethod := charsToHttpMethod_both h.pos hq (h.mark rfl) h.markLe.1 (ha.method rfl)
      refine ⟨_, _, rfl, rfl, ?_⟩
      rw [onRequestMethod, onRequestMethod, hmethod]
      cases charsToHttpMethod (buf.drop y.parser.mark) with
      | none => exact h.keep rfl (fun _ hb => hb) rfl rfl h.data rfl
      | some method =>
          exact h.keep rfl (fun _ hb => hb) rfl rfl (by rw [h.data]) h.error
  | requestUri => exact ⟨_, _, rfl, rfl, { h with }⟩
  | fragment =>
      obtain ⟨hx, hy⟩ := slice_both hsize h.pos hq.le (h.mark rfl) h.markLe.1
      refine ⟨_, _, congrArg (· >>= _) hx, congrArg (· >>= _) hy, ?_⟩
      exact h.keep rfl (fun _ hb => hb) rfl rfl (by rw [h.data]) h.error
  | startQuery =>
      exact ⟨_, _, rfl, rfl, { h with queryStart := fun _ => ⟨h.pos, le_rfl⟩ }⟩
  | queryString =>
      obtain ⟨hstart, hle⟩ := h.queryStart rfl
      obtain ⟨hx, hy⟩ := slice_both hsize h.pos hq.le hstart hle
      refine ⟨_, _, congrArg (· >>= _) hx, congrArg (· >>= _) hy, ?_⟩
      exact h.keep rfl (fun _ hb => hb) rfl rfl (by rw [h.data]) h.error
  | httpVersion =>
      have hcmp : ∀ b, strncmpEq ((pre ++ (buf ++ post)).drop x.parser.mark) b
          (lenTo x.parser.mark p) = strncmpEq (buf.drop y.parser.mark) b (lenTo y.parser.mark q) := by
        intro b
        have hle := h.markLe.1
        simp only [List.length_append] at hsize
        rw [h.mark rfl, h.pos, lenTo_eq (by omega) (by omega), lenTo_eq hle (by omega),
          Nat.add_sub_add_left]
        exact strncmpEq_congr (take_drop_whole (by omega))
      refine ⟨_, _, rfl, rfl, ?_⟩
      rw [onRequestVersion, onRequestVersion, hcmp, hcmp]
      cases strncmpEq (buf.drop y.parser.mark) (text "HTTP/1.1") (lenTo y.parser.mark q) with
      | true => exact h.keep rfl (fun _ hb => hb) rfl rfl (by rw [cond_true, h.data]; rfl) h.error
      | false =>
          cases strncmpEq (buf.drop y.parser.mark) (text "HTTP/1.0") (lenTo y.parser.mark q) with
          | true =>
              exact h.keep rfl (fun _ hb => hb) rfl rfl (by rw [cond_false, cond_true, h.data]; rfl)
                h.error
          | false => exact h.keep rfl (fun _ hb => hb) rfl rfl h.data rfl
  | requestPath =>
      obtain ⟨hx, hy⟩ := slice_both hsize h.pos hq.le (h.mark rfl) h.markLe.1
      refine ⟨_, _, congrArg (· >>= _) hx, congrArg (· >>= _) hy, ?_⟩
      exact h.keep rfl (fun _ hb => hb) rfl rfl (by rw [h.data]) h.error
  | done =>
      have hbound := ha.done rfl
      have hmark := h.markLe.2
      have hdone : ∀ (buffer : List UInt8) (fpc : Nat) (z : HttpRequestParser),
          ∃ n c, requestAct buffer fpc .done z =
            .ok { z with parser := { z.parser with bodyStart := n, contentLen := c } } ∧
            (n = z.parser.mark ∨ n = fpc + 1) := by
        intro buffer fpc z
        rw [requestAct]
        cases z.parser.xmlSent || z.parser.jsonSent with
        | true => exact ⟨_, _, rfl, Or.inl rfl⟩
        | false => exact ⟨_, _, rfl, Or.inr rfl⟩
      obtain ⟨n, c, hx, -⟩ := hdone (pre ++ (buf ++ post)) p x
      obtain ⟨n', c', hy, hn'⟩ := hdone buf q y
      refine ⟨_, _, hx, hy, { h with body := ?_ }⟩
      show n' ≤ bound
      omega
  | xml => exact ⟨_, _, rfl, rfl, { h with }⟩
  | json => exact ⟨_, _, rfl, rfl, { h with }⟩

theorem Sim.next (h : Sim pre buf bound p q as x y) :
    Sim pre buf bound (p + 1) (q + 1) as x y := by
  obtain ⟨b, hb, hname⟩ := h.name
  exact { h with
    pos := by rw [h.pos, Nat.add_assoc]
    queryStart := fun hs => ⟨(h.queryStart hs).1, Nat.le_succ_of_le (h.queryStart hs).2⟩
    markLe := ⟨Nat.le_succ_of_le h.markLe.1, h.markLe.2⟩
    fieldStartLe := ⟨Nat.le_succ_of_le h.fieldStartLe.1, h.fieldStartLe.2⟩
    fieldLenLe := Nat.le_succ_of_le h.fieldLenLe
    name := ⟨b, hb, fun hbt => Nat.le_succ_of_le (hname hbt)⟩ }

/-- An action of the parser with `buffer` in its buffer. -/
def runAct (buffer : List UInt8) (fpc : Nat) (a : RequestAction)
    (st : Except Abort HttpRequestParser) : Except Abort HttpRequestParser :=
  st.bind (requestAct buffer fpc a)

/-- The parser with the whole head `h` in its buffer, when it has read `u`. -/
def whole (relaxed : Bool) (junk : Junk) (h u : List UInt8) : Except Abort HttpRequestParser :=
  play (Http11.main relaxed) (runAct h) 0 true .none u (.ok (.new junk))

variable {relaxed m : Bool} {t : Marks} {junk : Junk}

theorem whole_append {h u v : List UInt8} :
    whole relaxed junk h (u ++ v) =
      play (Http11.main relaxed) (runAct h) u.length (true && u.isEmpty)
        (after true (Http11.main relaxed) .none u) v (whole relaxed junk h u) := by
  rw [whole, play_append, Nat.zero_add]
  rfl

theorem play_sim (hsize : (pre ++ (buf ++ post)).length < 2 ^ 31)
    (hplaces : Places (Http11.main relaxed) (Allowed pre buf post bound) pre.length m t buf)
    (h : Sim pre buf bound pre.length 0 (emits (Http11.main relaxed) m t buf ++ as) x y) :
    ∃ x' y', play (Http11.main relaxed) (runAct (pre ++ (buf ++ post))) pre.length m t buf (.ok x) =
        .ok x' ∧ play (Http11.main relaxed) (runAct buf) 0 m t buf (.ok y) = .ok y' ∧
      Sim pre buf bound (pre.length + buf.length) buf.length as x' y' := by
  have hrel := play_related (r := Http11.main relaxed) (m := m) (t := t) (w := buf)
    (f := runAct (pre ++ (buf ++ post))) (g := runAct buf) (q := 0)
    (R := fun p q as st st' => ∃ x y, st = .ok x ∧ st' = .ok y ∧ Sim pre buf bound p q as x y)
    ?_ ?_ hplaces ⟨x, y, rfl, rfl, h⟩
  · rwa [Nat.zero_add] at hrel
  · rintro p q a as st st' ha ⟨x, y, rfl, rfl, h⟩
    exact h.step hsize ha
  · rintro p q as st st' ⟨x, y, hx, hy, h⟩
    exact ⟨x, y, hx, hy, h.next⟩

/-! ### One call -/

/-- A call that consumes its buffer. -/
theorem execute_all (hbuf : buf ≠ []) (hsize : buf.length < 2 ^ 31)
    (hcs : y.parser.cs = .at m t)
    (hread : reads (Http11.main relaxed) RequestAction.stops m t buf = true ∨
      completes (Http11.main relaxed) RequestAction.stops m t buf = true)
    {y' : HttpRequestParser}
    (hplay : play (Http11.main relaxed) (runAct buf) 0 m t buf (.ok y.reset) = .ok y')
    (hsim : Sim pre buf bound p buf.length as x y') (hbound : bound ≤ buf.length) :
    y.execute relaxed buf = .ok ([], { y' with parser := { y'.parser with
      nread := buf.length
      cs := .at false (after m (Http11.main relaxed) t buf) } }) := by
  have hexec : requestExec relaxed buf (.at m t) y.reset =
      (buf.length, .at false (after m (Http11.main relaxed) t buf), .ok y') := by
    rw [← hplay]
    have hempty : (m && buf.isEmpty) = false := by
      rw [List.isEmpty_eq_false_iff.mpr hbuf, Bool.and_false]
    rcases hread with hread | hread
    · have h := exec_of_reads (v := []) (f := runAct buf) (p := 0) (s := .ok y.reset) hread
      rw [List.append_nil, Nat.zero_add, hempty] at h
      exact h
    · have h := exec_of_completes (v := []) (f := runAct buf) (p := 0) (s := .ok y.reset) hread
      rw [List.append_nil, Nat.zero_add] at h
      exact h
  have hlen : (buf.length : Int) = toInt32 buf.length :=
    (toInt32_of_lt (by omega) (by omega)).symm
  have hpos : buf.length ≠ 0 := by rwa [ne_eq, List.length_eq_zero_iff]
  rw [HttpRequestParser.execute, httpParserExecute, if_neg hpos, if_neg (not_not_intro hlen), hcs,
    hexec]
  show Except.map _ (leaveExecute buf _ _ y') = _
  rw [leaveExecute, if_neg hsim.running, if_pos]
  · rw [Except.map, List.drop_length]
  · exact ⟨le_rfl, hsim.body.trans hbound, hsim.markLe.2, hsim.fieldLenLe, hsim.fieldStartLe.2⟩

/-! ### The loop -/

theorem mem_lang_of_completeHead {h : List UInt8} (hh : CompleteHead relaxed h) :
    h ∈ lang (Http11.main relaxed) := by
  refine mem_lang_of_live ?_
  rw [live, final_of_completes hh, Bool.or_true]

/-- What is known of the actions on a piece of a complete head. -/
theorem places_of_completeHead (hh : CompleteHead relaxed (pre ++ (buf ++ post)))
    (hbound : post = [] → buf.length ≤ bound) :
    Places (Http11.main relaxed) (Allowed pre buf post bound) pre.length (true && pre.isEmpty)
      (after true (Http11.main relaxed) .none pre) buf := by
  refine places_of_forall fun u c v hbuf a ha => ?_
  subst hbuf
  have hempty : (pre ++ u).isEmpty = (pre.isEmpty && u.isEmpty) := by cases pre <;> rfl
  rw [← after_append, Bool.and_assoc, ← hempty] at ha
  refine ⟨?_, ?_, ?_⟩
  · rw [List.length_append, List.length_cons]
    omega
  · rintro rfl
    obtain ⟨rfl, hu⟩ := method_of_mem_fired ha
    refine ⟨pre ++ u, v ++ post, ?_, List.length_append, ?_, ?_⟩
    · simp only [List.append_assoc, List.cons_append]
    · exact notMem_of_avoids (r := Http11.method) (by decide) hu
    · have hmem := mem_lang_of_completeHead hh
      rw [List.append_assoc, List.cons_append, ← List.append_assoc] at hmem
      rw [← List.append_nil (v ++ post)]
      exact not_search_of_mem_lang hu hmem
  · rintro rfl
    by_cases hpost : post = []
    · exact hbound hpost
    · -- The head goes on behind the piece, so `done` does not run in it.
      rw [CompleteHead, ← List.append_assoc, completes_append hpost, Bool.and_eq_true,
        ← List.append_assoc] at hh
      cases not_stops_of_reads hh.1 ha

/-- The positions of the parser `x` that are still needed are those that a call at `p` starts
with. -/
structure Ready (p : Nat) (as : List RequestAction) (x : HttpRequestParser) : Prop where
  mark : needs .mark as = true → x.parser.mark = p
  fieldStart : needs .fieldStart as = true → x.parser.fieldStart = p
  fieldLen : needs .fieldLen as = true → x.parser.fieldLen = 0
  queryStart : needs .queryStart as = false

theorem Ready.sim (hready : Ready pre.length as x) (hbuf : buf ≠ []) (hdata : y.data = x.data)
    (herror : y.error = x.error) (hcs : y.parser.cs ≠ .error) (hbody : y.parser.bodyStart ≤ bound)
    (hbrackets : brackets true as = true) :
    Sim pre buf bound pre.length 0 as x y.reset where
  pos := rfl
  data := hdata
  error := herror
  running := hcs
  mark := hready.mark
  fieldStart := hready.fieldStart
  fieldLen := hready.fieldLen
  queryStart hs := by
    rw [hready.queryStart] at hs
    cases hs
  markLe := ⟨le_rfl, List.length_pos_iff.mpr hbuf⟩
  fieldStartLe := ⟨le_rfl, List.length_pos_iff.mpr hbuf⟩
  fieldLenLe := le_rfl
  body := hbody
  name := ⟨true, hbrackets, fun _ => le_rfl⟩

theorem needs_queryStart : needs .queryStart as = !awaits .startQuery .queryString as := by
  induction as with
  | nil => rfl
  | cons a as ih =>
      cases a with
      | queryString => rfl
      | startQuery => rfl
      | _ => exact ih

/-- The machine stores where a query begins before it stores the query. -/
theorem ready_new {h : List UInt8} :
    Ready 0 (emits (Http11.main relaxed) true .none h) (.new junk) where
  mark _ := rfl
  fieldStart _ := rfl
  fieldLen _ := rfl
  queryStart := by
    rw [needs_queryStart, emits_awaits, Bool.not_true]
    · revert relaxed
      decide
    · exact opened_none ..

theorem ok_of_bind_ok {ε α β : Type} {z : Except ε α} {f : α → Except ε β} {b : β}
    (h : z >>= f = .ok b) : ∃ v, z = .ok v ∧ f v = .ok b := by
  cases z with
  | error e => cases h
  | ok v => exact ⟨v, rfl, h⟩

/-- What no action changes: the state of the machine, an error and the body. The only version that is
ever stored is 1.1. -/
structure Keeps (x y : HttpRequestParser) : Prop where
  cs : y.parser.cs = x.parser.cs
  error : x.error ≠ 0 → y.error ≠ 0
  body : y.data.body = x.data.body
  version : x.data.version = 0x11 → y.data.version = 0x11

-- For any length, so that no proof looks into the number.
theorem keeps_fieldLen (n : Nat) :
    Keeps x { x with parser := { x.parser with fieldLen := n } } := ⟨rfl, id, rfl, id⟩

theorem requestAct_keeps {buffer : List UInt8} {fpc : Nat}
    (h : requestAct buffer fpc a x = .ok y) : Keeps x y := by
  have hkeep : ∀ {z}, Except.ok z = (Except.ok y : Except Abort HttpRequestParser) → Keeps x z →
      Keeps x y := fun hz hk => Except.ok.inj hz ▸ hk
  have hsame : ∀ {z : HttpRequestParser}, z.parser.cs = x.parser.cs → z.error = x.error →
      z.data.body = x.data.body → z.data.version = x.data.version → Keeps x z :=
    fun hcs he hb hv => ⟨hcs, fun h => he ▸ h, hb, fun h => hv.trans h⟩
  cases a with
  | writeField => exact hkeep h (keeps_fieldLen _)
  | writeValue =>
      rw [requestAct] at h
      split at h
      · exact hkeep h (hsame rfl rfl rfl rfl)
      · obtain ⟨field, -, h⟩ := ok_of_bind_ok h
        obtain ⟨value, -, h⟩ := ok_of_bind_ok h
        refine hkeep h ?_
        rw [onRequestHttpField]
        cases field.isEmpty with
        | true => exact hsame rfl rfl rfl rfl
        | false => exact hsame rfl rfl rfl rfl
  | requestMethod =>
      refine hkeep h ?_
      rw [onRequestMethod]
      cases charsToHttpMethod (buffer.drop x.parser.mark) with
      | none => exact ⟨rfl, fun _ => (by decide : (1000 : Nat) ≠ 0), rfl, id⟩
      | some method => exact hsame rfl rfl rfl rfl
  | fragment | queryString | requestPath =>
      obtain ⟨v, -, h⟩ := ok_of_bind_ok h
      exact hkeep h (hsame rfl rfl rfl rfl)
  | httpVersion =>
      refine hkeep h ?_
      rw [onRequestVersion]
      cases strncmpEq (buffer.drop x.parser.mark) (text "HTTP/1.1") (lenTo x.parser.mark fpc) with
      | true => exact ⟨rfl, id, rfl, fun _ => rfl⟩
      | false =>
          cases strncmpEq (buffer.drop x.parser.mark) (text "HTTP/1.0") (lenTo x.parser.mark fpc) with
          | true => exact ⟨rfl, id, rfl, fun _ => rfl⟩
          | false => exact ⟨rfl, fun _ => (by decide : (1001 : Nat) ≠ 0), rfl, id⟩
  | done =>
      rw [requestAct] at h
      cases hsent : x.parser.xmlSent || x.parser.jsonSent with
      | true =>
          rw [hsent] at h
          exact hkeep h (hsame rfl rfl rfl rfl)
      | false =>
          rw [hsent] at h
          exact hkeep h (hsame rfl rfl rfl rfl)
  | _ => exact hkeep h (hsame rfl rfl rfl rfl)

theorem play_error {buffer u : List UInt8}
    (h : play (Http11.main relaxed) (runAct buffer) p m t u (.ok x) = .ok y) (hx : x.error ≠ 0) :
    y.error ≠ 0 := by
  have hinv := play_invariant (r := Http11.main relaxed) (f := runAct buffer) (p := p) (m := m)
    (t := t) (w := u) (s := .ok x) (P := fun st => ∀ z, st = .ok z → z.error ≠ 0) ?_ ?_
  · exact hinv y h
  · rintro p a (e | z) hst w hw
    · cases hw
    · exact (requestAct_keeps hw).error (hst z rfl)
  · rintro z hz
    exact Except.ok.inj hz ▸ hx

/-- A call on a piece of the head keeps up with the parser of the whole head. -/
theorem execute_piece (hh : CompleteHead relaxed (pre ++ (buf ++ post)))
    (hsize : (pre ++ (buf ++ post)).length < 2 ^ 31) (hbuf : buf ≠ [])
    (hx : whole relaxed junk (pre ++ (buf ++ post)) pre = .ok x)
    (hcs : y.parser.cs = .at (true && pre.isEmpty) (after true (Http11.main relaxed) .none pre))
    (hbody : y.parser.bodyStart = 0) (hdata : y.data = x.data) (herror : y.error = x.error)
    (hready : Ready pre.length (emits (Http11.main relaxed) (true && pre.isEmpty)
      (after true (Http11.main relaxed) .none pre) (buf ++ post)) x) :
    ∃ x' y', whole relaxed junk (pre ++ (buf ++ post)) (pre ++ buf) = .ok x' ∧
      y.execute relaxed buf = .ok ([], y') ∧ y'.data = x'.data ∧ y'.error = x'.error ∧
      y'.parser.cs = .at false (after true (Http11.main relaxed) .none (pre ++ buf)) ∧
      (post ≠ [] → y'.parser.bodyStart = 0) := by
  have hempty : (true && pre.isEmpty && buf.isEmpty) = false := by
    rw [List.isEmpty_eq_false_iff.mpr hbuf, Bool.and_false]
  have hbrackets : brackets true (emits (Http11.main relaxed) (true && pre.isEmpty)
      (after true (Http11.main relaxed) .none pre) (buf ++ post)) = true := by
    have h := emits_brackets (m := true) (w := pre ++ (buf ++ post))
      (zones_none : Zones relaxed .none) (fun _ => rfl)
    rw [emits_append] at h
    exact brackets_suffix h
  -- Without `done` the body of the request has not begun.
  let bound := if post = [] then buf.length else 0
  have hbound : bound ≤ buf.length := by
    unfold bound
    split <;> omega
  have hsim : Sim pre buf bound pre.length 0 _ x y.reset :=
    hready.sim hbuf hdata herror (by rw [hcs]; exact Cs.noConfusion) (hbody ▸ Nat.zero_le _)
      hbrackets
  rw [emits_append] at hsim
  obtain ⟨x', y', hx', hy', hsim'⟩ := play_sim hsize
    (places_of_completeHead hh fun hpost => by unfold bound; rw [if_pos hpost]) hsim
  have hread : reads (Http11.main relaxed) RequestAction.stops (true && pre.isEmpty)
      (after true (Http11.main relaxed) .none pre) buf = true ∨
      completes (Http11.main relaxed) RequestAction.stops (true && pre.isEmpty)
        (after true (Http11.main relaxed) .none pre) buf = true := by
    rw [CompleteHead, completes_append (List.append_ne_nil_of_left_ne_nil hbuf _),
      Bool.and_eq_true] at hh
    by_cases hpost : post = []
    · rw [hpost, List.append_nil] at hh
      exact Or.inr hh.2
    · rw [completes_append hpost, Bool.and_eq_true] at hh
      exact Or.inl hh.2.1
  have hexec := execute_all hbuf (by simp only [List.length_append] at hsize; omega) hcs hread hy'
    hsim' hbound
  refine ⟨x', _, ?_, hexec, hsim'.data, hsim'.error, ?_, ?_⟩
  · rw [whole_append, hx]
    exact hx'
  · rw [after_append]
  · intro hpost
    have hle := hsim'.body
    unfold bound at hle
    rw [if_neg hpost] at hle
    exact Nat.le_zero.mp hle

variable {h : List UInt8} {buffSize : Nat} {xe : HttpRequestParser}

theorem hasError_at (hcs : y.parser.cs = .at m t) : y.hasError = (y.error != 0) := by
  rw [HttpRequestParser.hasError, hcs]
  exact Bool.or_false _

theorem isFinished_at (hcs : y.parser.cs = .at m t) :
    y.isFinished relaxed = live m (Http11.main relaxed) t := by
  rw [HttpRequestParser.isFinished, hcs]

theorem recvHead_cons {v : List UInt8} {vs : Stream} {fuel : Nat} (hv : v ≠ [])
    (hlen : v.length ≤ buffSize) (hexec : x.execute relaxed v = .ok ([], y)) (hpos : 0 < buffSize) :
    recvHead relaxed buffSize (fuel + 1) [] x (v :: vs) =
      if y.hasError then .ok (.closed, vs)
      else if y.isFinished relaxed then .ok (.parsed y [], vs)
      else recvHead relaxed buffSize fuel [] y vs := by
  obtain ⟨c, v, rfl⟩ := List.exists_cons_of_ne_nil hv
  rw [recvHead, List.length_nil, Nat.sub_zero, Stream.read, if_pos hlen]
  simp only [List.nil_append, hexec]
  show (if y.hasError = true then _ else if ([] : List UInt8).length = buffSize then _ else _) = _
  rw [List.length_nil, if_neg (by omega : ¬ 0 = buffSize)]

/-- The loop over clean pieces of a head ends with what the parser of the whole head has. -/
theorem recvHead_pieces (hh : CompleteHead relaxed h) (hsize : h.length < 2 ^ 31)
    (hbuff : h.length < buffSize) (hxe : whole relaxed junk h h = .ok xe) {vs : Stream} {fuel : Nat}
    (hfuel : vs.length ≤ fuel) (hvs : vs ≠ []) (hne : ∀ v ∈ vs, v ≠ [])
    (hflat : pre ++ vs.flatten = h)
    (hclean : ∀ us ws, vs = us ++ ws → us ≠ [] → CleanCut relaxed (pre ++ us.flatten) ws.flatten)
    (hx : whole relaxed junk h pre = .ok x)
    (hcs : y.parser.cs = .at (true && pre.isEmpty) (after true (Http11.main relaxed) .none pre))
    (hbody : y.parser.bodyStart = 0) (hdata : y.data = x.data) (herror : y.error = x.error)
    (hready : Ready pre.length (emits (Http11.main relaxed) (true && pre.isEmpty)
      (after true (Http11.main relaxed) .none pre) vs.flatten) x) :
    (recvHead relaxed buffSize fuel [] y vs).map (fun r => r.1.request) =
      .ok (if xe.error = 0 then some xe.data else none) := by
  induction vs generalizing pre x y fuel with
  | nil => exact absurd rfl hvs
  | cons v vs ih =>
      subst hflat
      rw [List.flatten_cons] at *
      have hv : v ≠ [] := hne v (List.mem_cons_self ..)
      obtain ⟨fuel, rfl⟩ : ∃ n, fuel = n + 1 := ⟨fuel - 1, by rw [List.length_cons] at hfuel; omega⟩
      obtain ⟨x', y', hx', hexec, hdata', herror', hcs', hbody'⟩ :=
        execute_piece hh hsize hv hx hcs hbody hdata herror hready
      have hlen : v.length ≤ buffSize := by simp only [List.length_append] at hbuff; omega
      rw [recvHead_cons hv hlen hexec (by omega), hasError_at hcs', isFinished_at hcs', live_false]
      by_cases he : y'.error = 0
      · rw [bne_eq_false_iff_eq.mpr he, if_neg Bool.false_ne_true]
        cases vs with
        | nil =>
            -- The last piece completes the head.
            rw [List.flatten_nil, List.append_nil] at hh hx' hxe
            rw [final_of_completes hh, if_pos rfl]
            obtain rfl := Except.ok.inj (hx'.symm.trans hxe)
            rw [← herror', if_pos he, ← hdata']
            rfl
        | cons v' vs =>
            have hpost : (v' :: vs).flatten ≠ [] := by
              rw [List.flatten_cons]
              exact List.append_ne_nil_of_left_ne_nil
                (hne v' (List.mem_cons_of_mem _ (List.mem_cons_self ..))) _
            have hreads : reads (Http11.main relaxed) RequestAction.stops true .none (pre ++ v) =
                true := by
              rw [CompleteHead, ← List.append_assoc, completes_append hpost, Bool.and_eq_true] at hh
              exact hh.1
            have hempty : (true && (pre ++ v).isEmpty) = false := by
              rw [List.isEmpty_eq_false_iff.mpr (List.append_ne_nil_of_right_ne_nil _ hv),
                Bool.and_false]
            rw [not_final_of_reads (List.append_ne_nil_of_right_ne_nil _ hv) hreads,
              if_neg Bool.false_ne_true]
            have hcut := hclean [v] (v' :: vs) rfl (List.cons_ne_nil _ _)
            rw [List.flatten_singleton, CleanCut] at hcut
            have hflat : (pre ++ v) ++ (v' :: vs).flatten = pre ++ (v ++ (v' :: vs).flatten) :=
              List.append_assoc ..
            refine ih (by rw [List.length_cons] at hfuel; omega) (List.cons_ne_nil _ _)
              (fun w hw => hne w (List.mem_cons_of_mem _ hw)) hflat ?_ hx' ?_ (hbody' hpost) hdata'
              herror' ?_
            · intro us ws hus hne'
              have hcl := hclean (v :: us) ws (by rw [hus, List.cons_append]) (List.cons_ne_nil _ _)
              rwa [List.flatten_cons, ← List.append_assoc] at hcl
            · rw [hcs', hempty]
            · rw [hempty]
              refine ⟨?_, ?_, ?_, hcut .queryStart⟩
              · exact fun hn => absurd hn (by rw [hcut]; exact Bool.false_ne_true)
              · exact fun hn => absurd hn (by rw [hcut]; exact Bool.false_ne_true)
              · exact fun hn => absurd hn (by rw [hcut]; exact Bool.false_ne_true)
      · rw [bne_iff_ne.mpr he, if_pos rfl]
        have hxe' : xe.error ≠ 0 := by
          nth_rewrite 2 [← List.append_assoc] at hxe
          rw [whole_append, hx'] at hxe
          exact play_error hxe (herror' ▸ he)
        rw [if_neg hxe']
        rfl

variable (junk) in
/-- A new parser that gets a complete head in one call. -/
theorem execute_whole (hh : CompleteHead relaxed h) (hsize : h.length < 2 ^ 31) :
    ∃ x y, whole relaxed junk h h = .ok x ∧
      (HttpRequestParser.new junk).execute relaxed h = .ok ([], y) ∧ y.data = x.data ∧
      y.error = x.error ∧ y.parser.cs = .at false (after true (Http11.main relaxed) .none h) := by
  have hne : h ≠ [] := by
    rintro rfl
    cases hh
  have hh' : CompleteHead relaxed ([] ++ (h ++ [])) := by rwa [List.nil_append, List.append_nil]
  have hnew : whole relaxed junk ([] ++ (h ++ [])) [] = .ok (.new junk) := rfl
  obtain ⟨x, y, hx, hexec, hdata, herror, hcs, -⟩ := execute_piece (y := .new junk) hh'
    (by rwa [List.nil_append, List.append_nil]) hne hnew rfl rfl rfl rfl
    (by rw [List.append_nil]; exact ready_new)
  rw [List.nil_append, List.append_nil] at hx
  exact ⟨x, y, hx, hexec, hdata, herror, hcs⟩

/-- The parser of the whole head ends without an abort. -/
theorem whole_ok (hh : CompleteHead relaxed h) (hsize : h.length < 2 ^ 31) :
    ∃ x, whole relaxed junk h h = .ok x := by
  obtain ⟨x, -, hx, -⟩ := execute_whole junk hh hsize
  exact ⟨x, hx⟩

theorem length_le_rounds {pieces : Stream} (hne : ∀ v ∈ pieces, v ≠ []) :
    pieces.length ≤ rounds pieces := by
  induction pieces with
  | nil => exact Nat.zero_le _
  | cons v vs ih =>
      have hv := List.length_pos_iff.mpr (hne v (List.mem_cons_self ..))
      have hrest := ih fun w hw => hne w (List.mem_cons_of_mem _ hw)
      rw [rounds, List.flatten_cons, List.length_append, List.length_cons]
      rw [rounds] at hrest
      omega

theorem parseHead_of_cleanCuts {pieces : Stream}
    (hh : CompleteHead junk.uriRelaxed pieces.flatten)
    (hsize : pieces.flatten.length < 2 ^ 31) (hbuff : pieces.flatten.length < buffSize)
    (hne : ∀ v ∈ pieces, v ≠ []) (hclean : CleanCuts junk.uriRelaxed pieces)
    (hxe : whole junk.uriRelaxed junk pieces.flatten pieces.flatten = .ok xe) :
    parseHead junk buffSize pieces = .ok (if xe.error = 0 then some xe.data else none) := by
  have hvs : pieces ≠ [] := by
    rintro rfl
    cases hh
  have hflat : [] ++ pieces.flatten = pieces.flatten := List.nil_append _
  exact recvHead_pieces hh hsize hbuff hxe (length_le_rounds hne) hvs hne hflat hclean rfl rfl rfl
    rfl rfl ready_new

/-- A head that is cut cleanly is parsed as in one read. -/
theorem parseHead_eq_of_cleanCuts (junk : Junk) (buffSize : Nat) (h : List UInt8)
    (pieces : Stream) (hh : CompleteHead junk.uriRelaxed h) (hbuff : h.length < buffSize)
    (hint : h.length < 2 ^ 31) (hne : ∀ v ∈ pieces, v ≠ []) (hflat : pieces.flatten = h)
    (hclean : CleanCuts junk.uriRelaxed pieces) :
    ∃ r, parseHead junk buffSize pieces = .ok r ∧ parseHead junk buffSize [h] = .ok r := by
  subst hflat
  obtain ⟨xe, hxe⟩ : ∃ x, whole junk.uriRelaxed junk pieces.flatten pieces.flatten = .ok x :=
    whole_ok hh hint
  refine ⟨_, parseHead_of_cleanCuts hh hint hbuff hne hclean hxe, ?_⟩
  have hone : ([pieces.flatten] : Stream).flatten = pieces.flatten := List.flatten_singleton ..
  rw [← hone] at hh hint hbuff hxe
  refine parseHead_of_cleanCuts hh hint hbuff ?_ ?_ hxe
  · intro v hv hnil
    rw [List.mem_singleton.mp hv] at hnil
    rw [hone, hnil] at hh
    cases hh
  · -- Nothing follows the only piece.
    intro us ws hus hne' x
    obtain ⟨rfl, rfl⟩ : us = [pieces.flatten] ∧ ws = [] := by
      cases us with
      | nil => exact absurd rfl hne'
      | cons u us =>
          obtain ⟨rfl, hnil⟩ := List.cons.inj hus
          obtain ⟨rfl, rfl⟩ := List.append_eq_nil_iff.mp hnil.symm
          exact ⟨rfl, rfl⟩
    rfl

/-- The request line in one read and the blank line in the next. -/
theorem parseHead_two_lines :
    ∃ r, parseHead ⟨false, 0⟩ 4096 [text "GET / HTTP/1.1\r\n", text "\r\n"] = .ok r ∧
      parseHead ⟨false, 0⟩ 4096 [text "GET / HTTP/1.1\r\n\r\n"] = .ok r := by
  refine parseHead_eq_of_cleanCuts ⟨false, 0⟩ 4096 _ _ ?_ (by decide) (by decide) (by decide)
    (by decide) ?_
  · unfold CompleteHead
    decide
  · intro us ws hus hne x
    rcases us with _ | ⟨u, _ | ⟨u', us⟩⟩
    · exact absurd rfl hne
    · obtain ⟨rfl, rfl⟩ := List.cons.inj hus
      cases x <;> decide
    · obtain ⟨rfl, hus'⟩ := List.cons.inj hus
      obtain ⟨rfl, hnil⟩ := List.cons.inj hus'
      obtain ⟨rfl, rfl⟩ := List.append_eq_nil_iff.mp hnil.symm
      rfl

/-- A cut inside the method: the request is refused. -/
theorem parseHead_cut_in_method :
    CompleteHead false (text "GET / HTTP/1.1\r\n\r\n") ∧
      [text "GE", text "T / HTTP/1.1\r\n\r\n"].flatten = text "GET / HTTP/1.1\r\n\r\n" ∧
      parseHead ⟨false, 0⟩ 4096 [text "GE", text "T / HTTP/1.1\r\n\r\n"] ≠
        parseHead ⟨false, 0⟩ 4096 [text "GET / HTTP/1.1\r\n\r\n"] := by
  have hcut : (parseHead ⟨false, 0⟩ 4096 [text "GE", text "T / HTTP/1.1\r\n\r\n"]).toOption.map
      Option.isSome = some false := by
    decide
  have hone : (parseHead ⟨false, 0⟩ 4096 [text "GET / HTTP/1.1\r\n\r\n"]).toOption.map
      Option.isSome = some true := by
    decide
  refine ⟨by unfold CompleteHead; decide, by decide, fun heq => ?_⟩
  rw [heq, hone] at hcut
  cases hcut

end

end Sylar.Http
