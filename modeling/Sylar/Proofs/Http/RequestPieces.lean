import Sylar.Proofs.Http.RequestScan
import Sylar.Proofs.Http.Session

/-!
# `Sylar.Proofs.Http.RequestPieces`: what the parser makes of the parts of a head

`Parses` puts the two sides of a piece of the head together: the machine reads it, and its actions
turn the request `d` into `d'`. The pieces are the method, the target, the version and the header
lines. A head that consists of such pieces and ends with the blank line is parsed as a whole
(`whole_of_parses`).
-/

set_option autoImplicit false

namespace Sylar.Http

open Lib Lib.Rx Http11

/-- The actions of a piece at the position `p` turn the request `d` into `d'`. -/
def Yields (buffer : List UInt8) (p : Nat) (tr : List (List RequestAction)) (d d' : HttpRequest) :
    Prop :=
  ∀ x : HttpRequestParser, x.data = d → x.error = 0 →
    ∃ y, perform (runAct buffer) p tr (.ok x) = .ok y ∧ y.data = d' ∧ y.error = 0

/-- The machine reads the piece `w` at the position `p`, from the marks `t` to the marks `t'`, and
its actions turn `d` into `d'`. -/
def Parses (relaxed : Bool) (buffer : List UInt8) (m : Bool) (t : Marks) (p : Nat)
    (w : List UInt8) (d : HttpRequest) (t' : Marks) (d' : HttpRequest) : Prop :=
  ∃ tr, Walk (main relaxed) RequestAction.stops m t w tr t' ∧ Yields buffer p tr d d'

section
variable {relaxed m : Bool} {buffer u v w w' : List UInt8} {t t' t'' : Marks} {p n : Nat}
  {d d' d'' : HttpRequest} {tr tr' : List (List RequestAction)} {x : HttpRequestParser} {c : UInt8}

theorem Yields.append (h : Yields buffer p tr d d') (h' : Yields buffer (p + tr.length) tr' d' d'') :
    Yields buffer p (tr ++ tr') d d'' := by
  intro x hx he
  obtain ⟨y, hy, hdata, herror⟩ := h x hx he
  obtain ⟨z, hz, hdata', herror'⟩ := h' y hdata herror
  refine ⟨z, ?_, hdata', herror'⟩
  rw [perform_append, hy, hz]

theorem Parses.append (h : Parses relaxed buffer m t p w d t' d')
    (h' : Parses relaxed buffer (m && w.isEmpty) t' (p + w.length) w' d' t'' d'') :
    Parses relaxed buffer m t p (w ++ w') d t'' d'' := by
  obtain ⟨tr, hwalk, hyield⟩ := h
  obtain ⟨tr', hwalk', hyield'⟩ := h'
  rw [← hwalk.length_eq] at hyield'
  exact ⟨tr ++ tr', hwalk.append hwalk', hyield.append hyield'⟩

/-- The next piece behind all that has been read. -/
theorem Parses.extend (h : Parses relaxed buffer true .none 0 u d t d') (hu : u ≠ [])
    (h' : Parses relaxed buffer false t u.length w d' t' d'') :
    Parses relaxed buffer true .none 0 (u ++ w) d t' d'' := by
  refine h.append ?_
  rwa [List.isEmpty_eq_false_iff.mpr hu, Bool.and_false, Nat.zero_add]

theorem Parses.nil : Parses relaxed buffer m t p [] d t d :=
  ⟨[], Walk.nil, fun x hx he => ⟨x, rfl, hx, he⟩⟩

/-! ### Texts of the buffer -/

/-- The text from a saved position to the current one. -/
theorem slice_piece (hsize : buffer.length < 2 ^ 31) (hb : buffer = u ++ (w ++ v)) :
    slice buffer u.length (lenTo u.length (u.length + w.length)) = .ok w := by
  have hlen : buffer.length = u.length + (w.length + v.length) := by
    rw [hb, List.length_append, List.length_append]
  have hle : lenTo u.length (u.length + w.length) = w.length := by
    rw [lenTo_eq (by omega) (by omega), Nat.add_sub_cancel_left]
  rw [hle, hb]
  have h : slice (u ++ (w ++ v)) (u.length + 0) w.length = .ok ((w.drop 0).take w.length) :=
    slice_whole (by omega)
  rwa [Nat.add_zero, List.drop_zero, List.take_length] at h

theorem runAct_ok {a : RequestAction} : runAct buffer p a (.ok x) = requestAct buffer p a x := rfl

theorem runAct_path (h : slice buffer x.parser.mark (lenTo x.parser.mark p) = .ok w) :
    runAct buffer p .requestPath (.ok x) = .ok { x with data := { x.data with path := w } } := by
  rw [runAct_ok, requestAct, h]
  rfl

theorem runAct_query (h : slice buffer x.parser.queryStart (lenTo x.parser.queryStart p) = .ok w) :
    runAct buffer p .queryString (.ok x) = .ok { x with data := { x.data with query := w } } := by
  rw [runAct_ok, requestAct, h]
  rfl

theorem runAct_fragment (h : slice buffer x.parser.mark (lenTo x.parser.mark p) = .ok w) :
    runAct buffer p .fragment (.ok x) = .ok { x with data := { x.data with fragment := w } } := by
  rw [runAct_ok, requestAct, h]
  rfl

/-! ### The pieces -/

/-- The method. -/
theorem yields_method {q : HttpMethod} (hm : charsToHttpMethod buffer = some q) :
    Yields buffer 0 ([.mark] :: List.replicate n [] ++ [[.requestMethod]]) d
      { d with method := q } := by
  intro x hx he
  rw [List.cons_append, perform, perform_append, perform_replicate_nil]
  refine ⟨_, rfl, ?_, ?_⟩
  · show (onRequestMethod (buffer.drop 0) _).data = _
    rw [List.drop_zero, onRequestMethod, hm, ← hx]
  · show (onRequestMethod (buffer.drop 0) _).error = _
    rw [List.drop_zero, onRequestMethod, hm]
    exact he

variable {path query fragment : List UInt8}

/-- The path and the query, from the symbol behind the path on. -/
theorem perform_query (hsize : buffer.length < 2 ^ 31)
    (hb : buffer = u ++ (path ++ ((HttpRequest.mark "?" query ++ query) ++ v)))
    (hmark : x.parser.mark = u.length) (hquery : x.data.query = []) :
    ∃ y, perform (runAct buffer) (u.length + path.length) (queryTrace query.length) (.ok x) =
        .ok y ∧ y.data = { x.data with path := path, query := query } ∧ y.error = x.error := by
  have hpath : slice buffer x.parser.mark (lenTo x.parser.mark (u.length + path.length)) =
      .ok path := by
    rw [hmark]
    exact slice_piece hsize hb
  cases query with
  | nil =>
      refine ⟨{ x with data := { x.data with path := path } }, ?_, ?_, rfl⟩
      · rw [List.length_nil, queryTrace, perform, List.foldl_cons, runAct_path hpath]
        rfl
      · rw [← hquery]
  | cons c query =>
      have hb' : buffer = (u ++ path ++ [63]) ++ ((c :: query) ++ v) := by
        rw [hb]
        simp [HttpRequest.mark, text]
      have hslice := slice_piece hsize hb'
      have hlen : (u ++ path ++ [63]).length = u.length + path.length + 1 := by
        simp only [List.length_append, List.length_singleton]
      rw [hlen, List.length_cons, ← Nat.add_assoc (u.length + path.length + 1)] at hslice
      refine ⟨{ x with
        parser := { x.parser with queryStart := u.length + path.length + 1 }
        data := { x.data with path := path, query := c :: query } }, ?_, rfl, rfl⟩
      rw [List.length_cons, queryTrace, List.cons_append, List.cons_append, perform,
        List.foldl_cons, List.foldl_nil, runAct_path hpath, perform, List.foldl_cons, List.foldl_nil,
        runAct_ok, requestAct, perform_append, perform_replicate_nil, List.length_replicate, perform,
        List.foldl_cons, Nat.add_right_comm (u.length + path.length + 1) 1, runAct_query hslice]
      rfl

/-- The fragment, from its first byte on. -/
theorem perform_fragment (hsize : buffer.length < 2 ^ 31)
    (hb : buffer = u ++ ((HttpRequest.mark "#" fragment ++ fragment) ++ v))
    (hfragment : x.data.fragment = []) :
    ∃ y, perform (runAct buffer) (u.length + 1) (fragmentTrace fragment.length) (.ok x) = .ok y ∧
      y.data = { x.data with fragment := fragment } ∧ y.error = x.error := by
  cases fragment with
  | nil => exact ⟨x, rfl, by rw [← hfragment], rfl⟩
  | cons c fragment =>
      have hb' : buffer = (u ++ [35]) ++ ((c :: fragment) ++ v) := by
        rw [hb]
        simp [HttpRequest.mark, text]
      have hslice := slice_piece hsize hb'
      have hlen : (u ++ [35]).length = u.length + 1 := by
        simp only [List.length_append, List.length_singleton]
      rw [hlen, List.length_cons, ← Nat.add_assoc (u.length + 1)] at hslice
      refine ⟨{ x with
        parser := { x.parser with mark := u.length + 1 }
        data := { x.data with fragment := c :: fragment } }, ?_, rfl, rfl⟩
      rw [List.length_cons, fragmentTrace, List.cons_append, perform, List.foldl_cons,
        List.foldl_nil, runAct_ok, requestAct, perform_append, perform_replicate_nil,
        List.length_replicate, perform, List.foldl_cons, Nat.add_right_comm (u.length + 1) 1,
        runAct_fragment hslice]
      rfl

theorem length_queryTrace :
    (queryTrace query.length).length = (HttpRequest.mark "?" query ++ query).length + 1 := by
  cases query with
  | nil => rfl
  | cons c query =>
      show (List.replicate query.length [] ++ [_]).length + 1 + 1 = query.length + 1 + 1 + 1
      rw [List.length_append, List.length_replicate]
      rfl

/-- The target. -/
theorem yields_target (hsize : buffer.length < 2 ^ 31)
    (hb : buffer = u ++ (path ++ (HttpRequest.mark "?" query ++ query) ++
      (HttpRequest.mark "#" fragment ++ fragment) ++ v))
    (hpath : path.length = n + 1) (hquery : d.query = []) (hfragment : d.fragment = []) :
    Yields buffer u.length ([.mark] :: List.replicate n [] ++ queryTrace query.length ++
      fragmentTrace fragment.length) d
      { d with path := path, query := query, fragment := fragment } := by
  rintro x rfl he
  have hb₁ : buffer = u ++ (path ++ ((HttpRequest.mark "?" query ++ query) ++
      ((HttpRequest.mark "#" fragment ++ fragment) ++ v))) := by
    rw [hb]
    simp only [List.append_assoc]
  have hb₂ : buffer = (u ++ path ++ (HttpRequest.mark "?" query ++ query)) ++
      ((HttpRequest.mark "#" fragment ++ fragment) ++ v) := by
    rw [hb]
    simp only [List.append_assoc]
  obtain ⟨y, hy, hdata, herror⟩ := perform_query (x := { x with
    parser := { x.parser with mark := u.length } }) hsize hb₁ rfl hquery
  obtain ⟨z, hz, hdata', herror'⟩ := perform_fragment (x := y) hsize hb₂ (by rw [hdata]; exact hfragment)
  have hpos : u.length + 1 + (List.replicate n ([] : List RequestAction)).length =
      u.length + path.length := by
    rw [List.length_replicate]
    omega
  have hpos' : u.length + 1 + (List.replicate n [] ++ queryTrace query.length).length =
      (u ++ path ++ (HttpRequest.mark "?" query ++ query)).length + 1 := by
    simp only [List.length_append, List.length_replicate, length_queryTrace]
    omega
  refine ⟨z, ?_, ?_, ?_⟩
  · rw [List.cons_append, List.cons_append, perform, List.foldl_cons, List.foldl_nil, runAct_ok,
      requestAct, perform_append, perform_append, perform_replicate_nil, hpos', hpos, hy, hz]
  · rw [hdata', hdata]
  · rw [herror', herror]
    exact he

/-- The version. -/
theorem yields_version (hb : buffer = u ++ (text "HTTP/1.1" ++ v)) (hsize : buffer.length < 2 ^ 31) :
    Yields buffer u.length ([.mark] :: List.replicate 7 [] ++ [[.httpVersion], []]) d
      { d with version := 0x11 } := by
  rintro x rfl he
  have hlen : buffer.length = u.length + (8 + v.length) := by
    rw [hb, List.length_append, List.length_append]
    rfl
  have hpos : lenTo u.length (u.length + 8) = 8 := by
    rw [lenTo_eq (by omega) (by omega), Nat.add_sub_cancel_left]
  have hcmp : strncmpEq (buffer.drop u.length) (text "HTTP/1.1") 8 = true := by
    rw [hb, List.drop_left]
    rfl
  refine ⟨{ x with
    parser := { x.parser with mark := u.length }
    data := { x.data with version := 0x11 } }, ?_, rfl, he⟩
  rw [List.cons_append, perform, List.foldl_cons, List.foldl_nil, runAct_ok, requestAct,
    perform_append, perform_replicate_nil, List.length_replicate, perform, List.foldl_cons, runAct_ok,
    requestAct]
  show perform _ _ _ (Except.ok (onRequestVersion (buffer.drop u.length)
    (lenTo u.length (u.length + 8)) _)) = _
  rw [hpos, onRequestVersion, hcmp]
  rfl

variable (relaxed) in
/-- The method and its blank, in front of a path. -/
theorem parses_method {q : HttpMethod} (hlen : w.length < 20) (hc : isUpper c = true)
    (hw : ∀ e ∈ w, isUpper e = true) (hm : charsToHttpMethod (c :: w) = some q)
    (hb : buffer = (c :: w ++ [32]) ++ 47 :: v) :
    Parses relaxed buffer true .none 0 (c :: w ++ [32]) d targetAt { d with method := q } := by
  refine ⟨_, walk_method hlen hc hw, yields_method ?_⟩
  have hblank : (32 : UInt8) ∉ c :: w := by
    intro hmem
    have hupper : ∀ e ∈ c :: w, isUpper e = true := List.forall_mem_cons.mpr ⟨hc, hw⟩
    exact absurd (hupper 32 hmem) (by decide)
  have hsearch : ¬ text "- SEARCH" <+: 47 :: v := by
    rintro ⟨s, hs⟩
    cases congrArg List.head? hs
  rw [hb, List.append_assoc, List.singleton_append,
    charsToHttpMethod_append hblank fun h => hsearch h.2, hm]

/-- The target and its blank. -/
theorem parses_target (hpath : 47 :: path ∈ lang (relativePart relaxed))
    (hquery : query ∈ lang (queryChars relaxed)) (hfragment : fragment ∈ lang (queryChars relaxed))
    (hsize : buffer.length < 2 ^ 31)
    (hb : buffer = u ++ ((47 :: path ++ (HttpRequest.mark "?" query ++ query) ++
      (HttpRequest.mark "#" fragment ++ fragment) ++ [32]) ++ v))
    (hd : d.query = []) (hd' : d.fragment = []) :
    Parses relaxed buffer false targetAt u.length
      (47 :: path ++ (HttpRequest.mark "?" query ++ query) ++
        (HttpRequest.mark "#" fragment ++ fragment) ++ [32]) d versionAt
      { d with path := 47 :: path, query := query, fragment := fragment } := by
  rw [List.append_assoc _ [32] v] at hb
  exact ⟨_, walk_target hpath hquery hfragment, yields_target hsize hb rfl hd hd'⟩

/-- The version and the end of the line. -/
theorem parses_version (hsize : buffer.length < 2 ^ 31)
    (hb : buffer = u ++ (text "HTTP/1.1\r\n" ++ v)) :
    Parses relaxed buffer false versionAt u.length (text "HTTP/1.1\r\n") d lineEnd
      { d with version := 0x11 } := by
  rw [show text "HTTP/1.1\r\n" = text "HTTP/1.1" ++ [13, 10] by decide, List.append_assoc] at hb
  exact ⟨_, walk_version, yields_version hb hsize⟩

/-! ### Header lines -/

variable {name value b : List UInt8}

/-- The actions on a value of `k` bytes and the CRLF behind it. -/
def valueTrace : Nat → List (List RequestAction)
  | 0 => [[.startValue, .writeValue], []]
  | k + 1 => [.startValue] :: List.replicate k [] ++ [[.writeValue], []]

/-- Two texts of the buffer and what is done with them. -/
theorem slices_bind {k k' n' : Nat} {f : List UInt8 → List UInt8 → HttpRequestParser}
    (hfield : slice buffer k n = .ok name) (hvalue : slice buffer k' n' = .ok value) :
    (slice buffer k n >>= fun field => slice buffer k' n' >>= fun value =>
      (.ok (f field value) : Except Abort HttpRequestParser)) = .ok (f name value) := by
  rw [hfield, hvalue]
  rfl

theorem runAct_value (hfield : slice buffer x.parser.fieldStart x.parser.fieldLen = .ok name)
    (hlen : x.parser.fieldLen ≠ 0) (hname : name ≠ [])
    (hvalue : slice buffer x.parser.mark (lenTo x.parser.mark p) = .ok value) :
    runAct buffer p .writeValue (.ok x) = .ok { x with data := x.data.setHeader name value } := by
  rw [runAct_ok, requestAct, if_neg hlen, slices_bind hfield hvalue, onRequestHttpField,
    List.isEmpty_eq_false_iff.mpr hname]
  rfl

/-- A value, when the name has been read. -/
theorem perform_value (hsize : buffer.length < 2 ^ 31) (hb : buffer = u ++ (value ++ v))
    (hfield : slice buffer x.parser.fieldStart x.parser.fieldLen = .ok name)
    (hlen : x.parser.fieldLen ≠ 0) (hname : name ≠ []) :
    ∃ y, perform (runAct buffer) u.length (valueTrace value.length) (.ok x) = .ok y ∧
      y.data = x.data.setHeader name value ∧ y.error = x.error := by
  have hwrite := runAct_value (x := { x with parser := { x.parser with mark := u.length } })
    hfield hlen hname (slice_piece hsize hb)
  refine ⟨{ x with
    parser := { x.parser with mark := u.length }
    data := x.data.setHeader name value }, ?_, rfl, rfl⟩
  cases value with
  | nil =>
      rw [List.length_nil, Nat.add_zero] at hwrite
      rw [List.length_nil, valueTrace, perform, List.foldl_cons, runAct_ok, requestAct,
        List.foldl_cons, hwrite]
      rfl
  | cons c value =>
      rw [List.length_cons, Nat.add_comm value.length, ← Nat.add_assoc] at hwrite
      rw [List.length_cons, valueTrace, List.cons_append, perform, List.foldl_cons, List.foldl_nil,
        runAct_ok, requestAct, perform_append, perform_replicate_nil, List.length_replicate, perform,
        List.foldl_cons, hwrite]
      rfl

variable (buffer) in
/-- Blanks in front of the value only move the mark. -/
theorem perform_blanks {k : Nat} : ∃ n, perform (runAct buffer) p
    (List.replicate k [RequestAction.startValue]) (.ok x) =
      .ok { x with parser := { x.parser with mark := n } } := by
  induction k generalizing p x with
  | zero => exact ⟨x.parser.mark, rfl⟩
  | succ k ih =>
      rw [List.replicate_succ, perform, List.foldl_cons, List.foldl_nil, runAct_ok, requestAct]
      exact ih

/-- A name and its value. -/
theorem yields_field (hsize : buffer.length < 2 ^ 31)
    (hb : buffer = u ++ (name ++ [58] ++ b ++ value ++ v)) (hname : name.length = n + 1) :
    Yields buffer u.length ([.startField] :: List.replicate n [] ++ [[.writeField]] ++
      (List.replicate b.length [.startValue] ++ valueTrace value.length)) d
      (d.setHeader name value) := by
  rintro x rfl he
  have hb₁ : buffer = u ++ (name ++ ([58] ++ b ++ value ++ v)) := by
    rw [hb]
    simp only [List.append_assoc]
  have hb₂ : buffer = (u ++ name ++ [58] ++ b) ++ (value ++ v) := by
    rw [hb]
    simp only [List.append_assoc]
  have hfield := slice_piece hsize hb₁
  have hlen : lenTo u.length (u.length + name.length) = name.length := by
    have : buffer.length = u.length + (name.length + ([58] ++ b ++ value ++ v).length) := by
      rw [hb₁, List.length_append, List.length_append]
    rw [lenTo_eq (by omega) (by omega), Nat.add_sub_cancel_left]
  rw [hlen] at hfield
  -- The parser behind the colon.
  obtain ⟨z, hz, hstart, hfl, hdata, herror⟩ : ∃ z : HttpRequestParser,
      perform (runAct buffer) u.length ([.startField] :: List.replicate n [] ++ [[.writeField]])
        (.ok x) = .ok z ∧ z.parser.fieldStart = u.length ∧ z.parser.fieldLen = name.length ∧
      z.data = x.data ∧ z.error = x.error := by
    refine ⟨{ x with parser := { x.parser with
      fieldStart := u.length
      fieldLen := name.length } }, ?_, rfl, rfl, rfl, rfl⟩
    rw [List.cons_append, perform, List.foldl_cons, List.foldl_nil, runAct_ok, requestAct,
      perform_append, perform_replicate_nil, List.length_replicate, perform, List.foldl_cons,
      runAct_ok, requestAct, Nat.add_assoc u.length, Nat.add_comm 1, ← hname, hlen]
    rfl
  obtain ⟨k, hk⟩ := perform_blanks buffer (p := u.length + (n + 2)) (x := z)
    (k := b.length)
  have hne : name ≠ [] := by
    rintro rfl
    cases hname
  obtain ⟨y, hy, hdata', herror'⟩ := perform_value
    (x := { z with parser := { z.parser with mark := k } }) hsize hb₂
    (by rw [← hstart, ← hfl] at hfield; exact hfield)
    (by rw [← hfl] at hname; show z.parser.fieldLen ≠ 0; omega) hne
  refine ⟨y, ?_, ?_, ?_⟩
  · have hpos : u.length + ([RequestAction.startField] :: List.replicate n [] ++
        [[RequestAction.writeField]]).length = u.length + (n + 2) := by
      rw [List.length_append, List.length_cons, List.length_replicate]
      rfl
    have hpos' : u.length + (n + 2) + (List.replicate b.length [RequestAction.startValue]).length =
        (u ++ name ++ [58] ++ b).length := by
      simp only [List.length_append, List.length_replicate, List.length_singleton]
      omega
    rw [perform_append, hz, hpos, perform_append, hk, hpos', hy]
  · rw [hdata']
    show z.data.setHeader name value = _
    rw [hdata]
  · rw [herror']
    show z.error = 0
    rw [herror, he]

/-- A header line as it is printed, with the blanks `b` behind the colon. -/
structure Field where
  name : List UInt8
  blanks : List UInt8
  value : List UInt8

def Field.line (f : Field) : List UInt8 := f.name ++ [58] ++ f.blanks ++ f.value ++ [13, 10]

/-- The machine reads the line as the name and the value that it was printed from. -/
structure Field.Fits (f : Field) : Prop where
  name_ne_nil : f.name ≠ []
  name : ∀ c ∈ f.name, isNameChar c = true
  value : ∀ c ∈ f.value, isValueChar c = true
  head : f.value.head? ≠ some 32
  blanks : f.blanks = [] ∨ f.blanks = [32] ∧ f.value ≠ []

theorem walk_valueTrace (ht : t = colonAt ∨ t = colonBlank ∧ value ≠ [])
    (hvalue : ∀ c ∈ value, isValueChar c = true) (hhead : value.head? ≠ some 32) :
    Walk (main relaxed) RequestAction.stops false (inHeader t) (value ++ [13, 10])
      (valueTrace value.length) (inHeader headerEnd) := by
  cases value with
  | nil =>
      rcases ht with rfl | ⟨-, ht⟩
      · exact walk_value_none
      · exact absurd rfl ht
  | cons c value =>
      refine walk_value (ht.imp_right And.left) (hvalue c (List.mem_cons_self ..)) ?_
        fun d hd => hvalue d (List.mem_cons_of_mem _ hd)
      rintro rfl
      exact hhead rfl

variable (relaxed) in
/-- One header line. -/
theorem parses_field {f : Field} (hf : f.Fits) (ht : BetweenLines t)
    (hsize : buffer.length < 2 ^ 31) (hb : buffer = u ++ (f.line ++ v)) :
    Parses relaxed buffer false t u.length f.line d (inHeader headerEnd)
      (d.setHeader f.name f.value) := by
  obtain ⟨name, b, value⟩ := f
  obtain ⟨hne, hname, hvalue, hhead, hblanks⟩ := hf
  cases name with
  | nil => exact absurd rfl hne
  | cons c w =>
      rw [Field.line, List.append_assoc] at hb
      have hyields : Yields buffer u.length _ d (d.setHeader (c :: w) value) :=
        yields_field hsize hb rfl
      refine ⟨_, ?_, hyields⟩
      have hwalk := walk_name relaxed ht (hname c (List.mem_cons_self ..))
        fun d hd => hname d (List.mem_cons_of_mem _ hd)
      rw [Field.line, List.append_assoc, List.append_assoc]
      refine hwalk.append ?_
      rcases hblanks with rfl | ⟨rfl, hvalue'⟩
      · exact walk_valueTrace (Or.inl rfl) hvalue hhead
      · exact walk_blank.append (walk_valueTrace (Or.inr ⟨rfl, hvalue'⟩) hvalue hhead)

variable (relaxed) in
/-- The header lines, one after the other. -/
theorem parses_fields {fs : List Field} (hfs : ∀ f ∈ fs, f.Fits) (ht : BetweenLines t)
    (hsize : buffer.length < 2 ^ 31) (hb : buffer = u ++ (fs.flatMap Field.line ++ v)) :
    ∃ t', BetweenLines t' ∧ Parses relaxed buffer false t u.length (fs.flatMap Field.line) d t'
      (fs.foldl (fun d f => d.setHeader f.name f.value) d) := by
  induction fs generalizing t u d with
  | nil => exact ⟨t, ht, Parses.nil⟩
  | cons f fs ih =>
      rw [List.flatMap_cons, List.append_assoc] at hb
      have hline := parses_field relaxed (d := d) (hfs f (List.mem_cons_self ..)) ht
        hsize hb
      obtain ⟨t', ht', hlines⟩ := ih (t := inHeader headerEnd) (u := u ++ f.line)
        (d := d.setHeader f.name f.value) (fun g hg => hfs g (List.mem_cons_of_mem _ hg)) (Or.inr rfl)
        (by rw [hb, List.append_assoc])
      rw [List.length_append] at hlines
      exact ⟨t', ht', hline.append hlines⟩

/-! ### The head -/

/-- The pieces of a head and the blank line behind them. -/
theorem whole_of_parses (junk : Junk) {head : List UInt8} (hhead : head = w ++ [13, 10])
    (hw : w ≠ []) (h : Parses relaxed head true .none 0 w .new t d) (ht : BetweenLines t) :
    CompleteHead relaxed head ∧
      ∃ x, whole relaxed junk head head = .ok x ∧ x.data = d ∧ x.error = 0 := by
  obtain ⟨tr, hwalk, hyield⟩ := h
  obtain ⟨hcompletes, htrace⟩ := blank_line relaxed ht
  have hempty : (true && w.isEmpty) = false := by
    rw [List.isEmpty_eq_false_iff.mpr hw, Bool.and_false]
  refine ⟨?_, ?_⟩
  · rw [CompleteHead, hhead, completes_append (List.cons_ne_nil _ _), hwalk.reads, hwalk.after,
      hempty, hcompletes]
    rfl
  · obtain ⟨y, hy, hdata, herror⟩ := hyield (.new junk) rfl rfl
    have hlast : whole relaxed junk head head =
        runAct head (tr.length + 1) .done (runAct head tr.length .startField (.ok y)) := by
      rw [whole, play_eq_perform]
      nth_rewrite 2 [hhead]
      rw [trace_append, hwalk.trace, hwalk.after, hempty, htrace, perform_append, hy, Nat.zero_add]
      rfl
    rw [hlast, runAct_ok, requestAct, runAct_ok, requestAct]
    cases y.parser.xmlSent || y.parser.jsonSent with
    | true => exact ⟨_, rfl, hdata, herror⟩
    | false => exact ⟨_, rfl, hdata, herror⟩

end

end Sylar.Http
