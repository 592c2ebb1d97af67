import Sylar.Spec.LogPattern

/-!
# `Sylar.Proofs.Log.Pattern`: the patterns that are read as they are meant

The scan of a directive ends behind its name or behind the brace that closes its format, or it
finds that no brace does (`scan_name`, `scan_format` and `scan_unclosed`; `exists_cut` says that
there is no other case). So the outer loop makes the entries of the rest, behind those of the first
element (`entries_directive` and `entries_unclosed`).

A list of elements without `%%` and without a brace behind a bare directive gives its own entries
(`entries_spell`). Any other list does not: `init` reads the second percent sign of a `%%` again,
and takes the brace for a part of the name. The entries then differ at the first place of this kind
(`entries_percent_ne`, `entries_brace_ne` and `entries_spell_ne`). A pattern is read without an
error exactly when it is the text of elements that `init` reads (`isError_eq_false_iff`).
-/

set_option autoImplicit false

namespace Sylar.Log.LogFormatter

open Lib Element

section
variable {r q str fmt nstr s : Text} {es : List Element}

/-! ### The scan of a directive -/

/-- The characters that the scan passes over in front of a format. -/
def inName (c : UInt8) : Bool := isAlpha c || c == 125

theorem inName_eq_false_iff {c : UInt8} : inName c = false ↔ isAlpha c = false ∧ c ≠ 125 := by
  rw [inName, Bool.or_eq_false_iff, beq_eq_false_iff_ne]

/-- The scan passes over a character of a name. When it is the last one of the pattern, the name is
all that was seen. -/
theorem scan_cons_inName {c : UInt8} (hc : inName c = true) (seen inFmt rest : Text) :
    scan [] false seen inFmt (c :: rest) =
      scan (if rest.isEmpty then seen ++ [c] else []) false (seen ++ [c]) (inFmt ++ [c]) rest := by
  have hcases : isAlpha c = true ∨ c = 125 := by
    rwa [inName, Bool.or_eq_true, beq_iff_eq] at hc
  have hstop : (!isAlpha c && c != 123 && c != 125) = false := by
    rcases hcases with hc | rfl
    · rw [hc]
      rfl
    · decide
  have hbrace : (c == 123) = false := by
    refine beq_eq_false_iff_ne.mpr ?_
    rintro rfl
    cases hc
  rw [scan]
  simp only [Bool.not_false, Bool.true_and, hstop, hbrace, Bool.false_and, Bool.false_eq_true,
    if_false, List.isEmpty_nil, Bool.and_true]

theorem scan_name (hname : ∀ c ∈ str, inName c = true) (hq : q ≠ []) : ∀ seen inFmt : Text,
    scan [] false seen inFmt (str ++ q) = scan [] false (seen ++ str) (inFmt ++ str) q := by
  induction str with
  | nil =>
      intro seen inFmt
      rw [List.nil_append, List.append_nil, List.append_nil]
  | cons c str ih =>
      intro seen inFmt
      rw [List.forall_mem_cons] at hname
      have hrest : (str ++ q).isEmpty = false :=
        List.isEmpty_eq_false_iff.mpr fun h => hq (List.append_eq_nil_iff.mp h).2
      rw [List.cons_append, scan_cons_inName hname.1, hrest, if_neg Bool.false_ne_true, ih hname.2,
        List.append_assoc, List.append_assoc, List.singleton_append]

/-- A name that the pattern ends with. -/
theorem scan_end (hname : ∀ c ∈ str, inName c = true) :
    scan [] false [] [] str = ⟨str, [], true, str.length⟩ := by
  rcases List.eq_nil_or_concat str with rfl | ⟨u, c, rfl⟩
  · rfl
  · rw [List.concat_eq_append] at hname ⊢
    rw [List.forall_mem_append, List.forall_mem_singleton] at hname
    rw [scan_name hname.1 (List.cons_ne_nil _ _), scan_cons_inName hname.2]
    rfl

theorem scan_format (hfmt : 125 ∉ fmt) : ∀ seen inFmt : Text,
    scan str true seen inFmt (fmt ++ 125 :: q) =
      ⟨str, inFmt ++ fmt, true, seen.length + fmt.length + 1⟩ := by
  induction fmt with
  | nil =>
      intro seen inFmt
      rw [List.append_nil]
      rfl
  | cons c fmt ih =>
      intro seen inFmt
      rw [List.mem_cons, not_or] at hfmt
      have hclose : (c == 125) = false := beq_eq_false_iff_ne.mpr (Ne.symm hfmt.1)
      have hrest : (fmt ++ 125 :: q).isEmpty = false :=
        List.isEmpty_eq_false_iff.mpr (List.append_ne_nil_of_right_ne_nil _ (List.cons_ne_nil _ _))
      rw [List.cons_append, scan]
      simp only [Bool.not_true, Bool.false_and, Bool.true_and, hclose, hrest, Bool.false_eq_true,
        if_false]
      rw [ih hfmt.2, List.append_assoc, List.singleton_append, List.length_append,
        List.length_singleton, List.length_cons, Nat.add_assoc seen.length, Nat.add_comm 1]

theorem scan_unclosed (hq : 125 ∉ q) : ∀ str seen inFmt : Text,
    (scan str true seen inFmt q).closed = false := by
  induction q with
  | nil =>
      intro str seen inFmt
      rfl
  | cons c q ih =>
      intro str seen inFmt
      rw [List.mem_cons, not_or] at hq
      have hclose : (c == 125) = false := beq_eq_false_iff_ne.mpr (Ne.symm hq.1)
      rw [scan]
      simp only [Bool.not_true, Bool.false_and, Bool.true_and, hclose, Bool.false_eq_true, if_false]
      exact ih hq.2 ..

/-- A directive with its format is scanned as it is spelled. -/
theorem scan_body (hname : ∀ c ∈ str, inName c = true) {fmt : Option Text}
    (hbehind : DelimitedRead q fmt) :
    scan [] false [] [] (body str fmt ++ q) =
      ⟨str, fmt.getD [], true, (body str fmt).length⟩ := by
  cases fmt with
  | none =>
      cases q with
      | nil => rw [List.append_nil, body, scan_end hname, Option.getD_none]
      | cons c q =>
          obtain ⟨halpha, hopen, hclose⟩ := hbehind c rfl
          rw [body, scan_name hname (List.cons_ne_nil _ _), scan]
          simp only [halpha, bne_iff_ne.mpr hopen, bne_iff_ne.mpr hclose, Bool.not_false,
            Bool.and_self, if_true, List.nil_append, Option.getD_none]
  | some fmt =>
      have hspell : body str (some fmt) ++ q = str ++ 123 :: (fmt ++ 125 :: q) := by
        simp [body]
      rw [hspell, scan_name hname (List.cons_ne_nil _ _), scan]
      simp only [List.nil_append, Bool.not_false, Bool.true_and, bne_self_eq_false, Bool.and_false,
        Bool.false_and, Bool.false_eq_true, if_false, beq_self_eq_true, if_true]
      rw [scan_format hbehind]
      simp [body]
      omega

/-- Every text behind a percent sign is a directive, or a directive whose format is not closed. The
name has all the characters that it can have. -/
theorem exists_cut (r : Text) :
    (∃ str fmt q, r = body str fmt ++ q ∧ str = r.takeWhile inName ∧ DelimitedRead q fmt) ∨
      ∃ q, r = r.takeWhile inName ++ 123 :: q ∧ 125 ∉ q := by
  have hcut : r = r.takeWhile inName ++ r.dropWhile inName := List.takeWhile_append_dropWhile.symm
  cases hq : r.dropWhile inName with
  | nil =>
      rw [hq] at hcut
      exact .inl ⟨_, none, [], hcut, rfl, fun c h => nomatch h⟩
  | cons c q =>
      have hc : inName c = false := by
        have hne : r.dropWhile inName ≠ [] := by
          rw [hq]
          exact List.cons_ne_nil _ _
        have hhead := List.head_dropWhile_not inName hne
        simp only [hq, List.head_cons] at hhead
        exact hhead
      rw [hq] at hcut
      by_cases hopen : c = 123
      · subst hopen
        by_cases hclose : (125 : UInt8) ∈ q
        · obtain ⟨fmt, q, rfl, hfmt⟩ := List.eq_append_cons_of_mem hclose
          refine .inl ⟨_, some fmt, q, ?_, rfl, hfmt⟩
          rw [body, List.append_assoc, List.cons_append, List.append_assoc, List.singleton_append]
          exact hcut
        · exact .inr ⟨q, hcut, hclose⟩
      · obtain ⟨halpha, hbrace⟩ := inName_eq_false_iff.mp hc
        refine .inl ⟨_, none, c :: q, hcut, rfl, fun d hd => ?_⟩
        cases hd
        exact ⟨halpha, hopen, hbrace⟩

/-! ### The entries of a pattern -/

/-- The text for a format that is not closed. -/
def patternError : Text := text "<<pattern_error>>"

/-- The entries of the text `s` behind the plain text `nstr`, and whether a format is not closed. -/
def entries (nstr s : Text) : List Part × Bool := loop 0 nstr [] false s

/-- The loop goes on behind what it has skipped. -/
theorem loop_skip (s : Text) : ∀ (skip : Nat) (nstr : Text) (vec : List Part) (error : Bool),
    loop skip nstr vec error s = loop 0 nstr vec error (s.drop skip) := by
  induction s with
  | nil =>
      intro skip nstr vec error
      rw [List.drop_nil]
      cases skip <;> rfl
  | cons c s ih =>
      intro skip nstr vec error
      cases skip with
      | zero => rfl
      | succ skip =>
          rw [loop, List.drop_succ_cons]
          exact ih ..

/-- The entries that were found stay in front, and an error stays. -/
theorem loop_eq (s : Text) : ∀ (skip : Nat) (nstr : Text) (vec : List Part) (error : Bool),
    loop skip nstr vec error s =
      (vec ++ (loop skip nstr [] false s).1, error || (loop skip nstr [] false s).2) := by
  induction s with
  | nil =>
      intro skip nstr vec error
      cases skip <;> simp [loop]
  | cons c s ih =>
      intro skip nstr vec error
      cases skip with
      | succ skip =>
          rw [loop, loop]
          exact ih ..
      | zero =>
          rw [loop, loop]
          split
          · exact ih ..
          · split
            · exact ih ..
            · simp only
              split
              · rw [ih _ _ (vec ++ _ ++ _), ih _ _ ([] ++ _ ++ _)]
                simp
              · rw [ih _ _ (vec ++ _), ih _ _ ([] ++ _)]
                simp

theorem entries_literal {c : UInt8} (hc : c ≠ 37) :
    entries nstr (c :: s) = entries (nstr ++ [c]) s := by
  rw [entries, loop, if_pos (bne_iff_ne.mpr hc)]
  rfl

/-- The first percent sign of two stands for itself. -/
theorem entries_percent : entries nstr (37 :: 37 :: s) = entries (nstr ++ [37]) (37 :: s) := rfl

theorem entries_directive (hname : ∀ c ∈ str, inName c = true) {fmt : Option Text}
    (hbehind : DelimitedRead q fmt) (hhead : (body str fmt ++ q).head? ≠ some 37) :
    entries nstr (37 :: (body str fmt ++ q)) =
      (flush nstr ++ .directive str (fmt.getD []) :: (entries [] q).1, (entries [] q).2) := by
  rw [entries, loop, if_neg (by decide), if_neg (by simpa using hhead), scan_body hname hbehind]
  show loop _ [] _ false (body str fmt ++ q) = _
  rw [loop_skip, List.drop_left, loop_eq, List.nil_append, List.append_assoc, List.singleton_append,
    Bool.false_or]
  rfl

theorem entries_unclosed (hname : ∀ c ∈ str, inName c = true) (hq : 125 ∉ q) :
    entries nstr (37 :: (str ++ 123 :: q)) =
      (.plain patternError :: (entries nstr (str ++ 123 :: q)).1, true) := by
  have hscan : (scan [] false [] [] (str ++ 123 :: q)).closed = false := by
    rw [scan_name hname (List.cons_ne_nil _ _), scan]
    exact scan_unclosed hq ..
  have hhead : ((str ++ 123 :: q).head? == some 37) = false := by
    cases str with
    | nil => rfl
    | cons c str =>
        refine beq_eq_false_iff_ne.mpr fun h => ?_
        cases Option.some.inj h
        exact absurd (hname 37 (List.mem_cons_self ..)) (by decide)
  rw [entries, loop, if_neg (by decide), hhead, if_neg Bool.false_ne_true]
  simp only [hscan, Bool.false_eq_true, if_false]
  rw [loop_eq]
  rfl

/-- What happens at a percent sign that is not in front of another one. -/
theorem entries_cases (nstr : Text) (hhead : r.head? ≠ some 37) :
    (∃ fmt q, r = body (r.takeWhile inName) fmt ++ q ∧
      (entries nstr (37 :: r)).1 =
        flush nstr ++ .directive (r.takeWhile inName) (fmt.getD []) :: (entries [] q).1) ∨
      (entries nstr (37 :: r)).1 = .plain patternError :: (entries nstr r).1 := by
  have hname : ∀ c ∈ r.takeWhile inName, inName c = true := fun c => List.mem_takeWhile_imp
  rcases exists_cut r with ⟨str, fmt, q, hr, rfl, hbehind⟩ | ⟨q, hr, hq⟩
  · refine .inl ⟨fmt, q, hr, ?_⟩
    have hentries : entries nstr _ = _ := entries_directive hname hbehind (hr ▸ hhead)
    rw [← hr] at hentries
    rw [hentries]
  · right
    have hentries : entries nstr _ = _ := entries_unclosed hname hq
    rw [← hr] at hentries
    rw [hentries]

theorem flush_of_ne_nil (h : nstr ≠ []) : flush nstr = [.plain nstr] :=
  if_neg fun hempty => h (List.isEmpty_iff.mp hempty)

/-! ### Elements that are read as they are meant -/

theorem inName_of_isAlpha {c : UInt8} (h : isAlpha c = true) : inName c = true := by
  rw [inName, h, Bool.true_or]

theorem head_body_ne (hne : str ≠ []) (halpha : ∀ c ∈ str, isAlpha c = true) (fmt : Option Text) :
    (body str fmt ++ q).head? ≠ some 37 := by
  obtain ⟨c, str, rfl⟩ := List.exists_cons_of_ne_nil hne
  have hc : c ≠ 37 := by
    rintro rfl
    exact absurd (halpha 37 (List.mem_cons_self ..)) (by decide)
  cases fmt <;> exact fun h => hc (Option.some.inj h)

/-- Only a closing brace behind a directive without a format is in its way. -/
theorem delimitedRead_of {fmt : Option Text} (h : Delimited q fmt)
    (hbrace : ¬ (fmt = none ∧ q.head? = some 125)) : DelimitedRead q fmt := by
  cases fmt with
  | none =>
      intro c hc
      refine ⟨(h c hc).1, (h c hc).2, ?_⟩
      rintro rfl
      exact hbrace ⟨rfl, hc⟩
  | some fmt => exact h

theorem tame_directive {fmt : Option Text} : Tame (.directive str fmt :: es) ↔
    ¬ (fmt = none ∧ (spell es).head? = some 125) ∧ Tame es := by
  cases fmt with
  | none => exact and_congr_left' (not_congr (and_iff_right rfl)).symm
  | some fmt => exact (and_iff_right fun h => nomatch h.1).symm

/-- A directive that is read as it is meant. -/
theorem entries_spell_directive {fmt : Option Text} (h : WellFormed (.directive str fmt :: es))
    (hbrace : ¬ (fmt = none ∧ (spell es).head? = some 125)) :
    entries nstr (spell (.directive str fmt :: es)) =
      (flush nstr ++ .directive str (fmt.getD []) :: (entries [] (spell es)).1,
        (entries [] (spell es)).2) := by
  obtain ⟨⟨hne, halpha⟩, hbehind, -⟩ := h
  exact entries_directive (fun c hc => inName_of_isAlpha (halpha c hc))
    (delimitedRead_of hbehind hbrace) (head_body_ne hne halpha fmt)

theorem entries_spell (h : WellFormed es) (htame : Tame es) :
    ∀ nstr, entries nstr (spell es) = (parts nstr es, false) := by
  induction es with
  | nil => exact fun nstr => rfl
  | cons e es ih =>
      intro nstr
      cases e with
      | literal c => exact (entries_literal h.1).trans (ih h.2 htame _)
      | percent => exact htame.elim
      | directive str fmt =>
          obtain ⟨hbrace, htame⟩ := tame_directive.mp htame
          rw [entries_spell_directive h hbrace, ih h.2.2 htame, parts]

/-! ### Errors -/

theorem toItem_directive_snd : (toItem (.directive str fmt)).2 = (ItemKind.find str).isNone := by
  rw [toItem]
  cases ItemKind.find str <;> rfl

theorem any_flush (nstr : Text) : ((flush nstr).any fun p => (toItem p).2) = false := by
  rw [flush]
  split <;> rfl

/-- A directive of the pattern is not known. -/
theorem any_parts_iff :
    ∀ nstr, ((parts nstr es).any fun p => (toItem p).2) = true ↔ Unknown es := by
  induction es with
  | nil =>
      intro nstr
      rw [parts, any_flush]
      exact iff_of_false Bool.false_ne_true fun ⟨_, _, h, _⟩ => nomatch h
  | cons e es ih =>
      intro nstr
      have hunknown : Unknown (e :: es) ↔
          (∃ str fmt, Element.directive str fmt = e ∧ ItemKind.find str = none) ∨ Unknown es := by
        simp only [Unknown, List.mem_cons, or_and_right, exists_or]
      rw [hunknown]
      cases e with
      | literal c => simp [parts, ih]
      | percent => simp [parts, ih]
      | directive str fmt =>
          rw [parts, List.any_append, List.any_cons, any_flush, Bool.false_or, Bool.or_eq_true,
            toItem_directive_snd, Option.isNone_iff_eq_none, ih]
          simp

/-- The pattern is in error. -/
def errorIn (nstr s : Text) : Bool :=
  (entries nstr s).2 || (entries nstr s).1.any fun p => (toItem p).2

theorem errorIn_directive (hname : ∀ c ∈ str, inName c = true) {fmt : Option Text}
    (hbehind : DelimitedRead q fmt) (hhead : (body str fmt ++ q).head? ≠ some 37) :
    errorIn nstr (37 :: (body str fmt ++ q)) = ((ItemKind.find str).isNone || errorIn [] q) := by
  rw [errorIn, entries_directive hname hbehind hhead]
  simp only [List.any_append, List.any_cons, any_flush, Bool.false_or, toItem_directive_snd]
  rw [Bool.or_left_comm]
  rfl

/-- The names that are known. -/
def names : List Text := ["m", "p", "r", "c", "t", "n", "d", "f", "l", "T", "F", "N"].map text

theorem mem_names_of_find (h : (ItemKind.find str).isSome) : str ∈ names := by
  by_contra hmem
  simp only [names, List.map_cons, List.map_nil, List.mem_cons, List.not_mem_nil, or_false,
    not_or] at hmem
  simp [ItemKind.find, hmem] at h

/-- A name that is known has letters only. -/
theorem isAlpha_of_find (h : (ItemKind.find str).isSome) :
    str ≠ [] ∧ ∀ c ∈ str, isAlpha c = true := by
  have hnames : (names.all fun str => !str.isEmpty && str.all isAlpha) = true := rfl
  have hstr := List.all_eq_true.mp hnames str (mem_names_of_find h)
  rw [Bool.and_eq_true, Bool.not_eq_true', List.isEmpty_eq_false_iff, List.all_eq_true] at hstr
  exact hstr

theorem errorIn_spellRead (h : Read es) : ∀ nstr, errorIn nstr (spellRead es) = false := by
  induction es with
  | nil =>
      intro nstr
      exact any_flush nstr
  | cons e es ih =>
      intro nstr
      cases e with
      | literal c =>
          rw [errorIn, spellRead, entries_literal h.1]
          exact ih h.2 _
      | percent =>
          obtain ⟨s, hs⟩ : ∃ s, spellRead es = 37 :: s := List.head?_eq_some_iff.mp h.1
          rw [errorIn, spellRead, hs, entries_percent, ← hs]
          exact ih h.2 _
      | directive str fmt =>
          obtain ⟨hknown, hbehind, h⟩ := h
          obtain ⟨hne, halpha⟩ := isAlpha_of_find hknown
          rw [spellRead, errorIn_directive (fun c hc => inName_of_isAlpha (halpha c hc)) hbehind
            (head_body_ne hne halpha fmt), ih h, Option.isNone_eq_false_iff.mpr hknown]
          rfl

/-- A text without an error is that of the elements that were read. The induction is on its length.
-/
theorem exists_read (s : Text) (nstr : Text) (h : errorIn nstr s = false) :
    ∃ es, Read es ∧ spellRead es = s := by
  induction hn : s.length using Nat.strong_induction_on generalizing s nstr with
  | _ n ih =>
    subst hn
    cases s with
    | nil => exact ⟨[], trivial, rfl⟩
    | cons c r =>
      by_cases hc : c = 37
      · subst hc
        by_cases hhead : r.head? = some 37
        · obtain ⟨s, rfl⟩ := List.head?_eq_some_iff.mp hhead
          obtain ⟨es, hread, hes⟩ := ih (37 :: s).length (Nat.lt_succ_self _) (37 :: s) _ h rfl
          exact ⟨.percent :: es, ⟨by rw [hes]; rfl, hread⟩, by rw [spellRead, hes]⟩
        · rcases exists_cut r with ⟨str, fmt, q, hr, hstr, hbehind⟩ | ⟨q, hr, hq⟩
          · have hname : ∀ c ∈ str, inName c = true := by
              rw [hstr]
              exact fun c => List.mem_takeWhile_imp
            rw [hr, errorIn_directive hname hbehind (hr ▸ hhead), Bool.or_eq_false_iff,
              Option.isNone_eq_false_iff] at h
            have hlen : q.length < (37 :: r).length := by
              rw [hr, List.length_cons, List.length_append]
              omega
            obtain ⟨es, hread, rfl⟩ := ih q.length hlen q _ h.2 rfl
            exact ⟨.directive str fmt :: es, ⟨h.1, hbehind, hread⟩, by rw [spellRead, ← hr]⟩
          · rw [hr, errorIn, entries_unclosed (fun c => List.mem_takeWhile_imp) hq] at h
            cases h
      · rw [errorIn, entries_literal hc] at h
        obtain ⟨es, hread, rfl⟩ := ih r.length (Nat.lt_succ_self _) r _ h rfl
        exact ⟨.literal c :: es, ⟨hc, hread⟩, rfl⟩

/-! ### Elements that are not -/

/-- The item of an entry. -/
def item (p : Part) : FormatItem := (toItem p).1

/-- The text in front is the beginning of the first entry. -/
theorem parts_of_ne_nil (es : List Element) : ∀ nstr : Text, nstr ≠ [] →
    ∃ u tail, parts nstr es = .plain (nstr ++ u) :: tail := by
  induction es with
  | nil =>
      intro nstr hne
      exact ⟨[], [], by rw [parts, flush_of_ne_nil hne, List.append_nil]⟩
  | cons e es ih =>
      intro nstr hne
      cases e with
      | literal c =>
          obtain ⟨u, tail, hparts⟩ := ih (nstr ++ [c]) (by simp)
          exact ⟨c :: u, tail, by rw [parts, hparts, List.append_assoc, List.singleton_append]⟩
      | percent =>
          obtain ⟨u, tail, hparts⟩ := ih (nstr ++ [37]) (by simp)
          exact ⟨37 :: u, tail, by rw [parts, hparts, List.append_assoc, List.singleton_append]⟩
      | directive str fmt =>
          exact ⟨[], _, by rw [parts, flush_of_ne_nil hne, List.append_nil]; rfl⟩

/-- The text in front is the beginning of the first entry, unless a format is not closed. -/
theorem entries_of_ne_nil (s : Text) : ∀ nstr : Text, nstr ≠ [] →
    ∃ u tail, (entries nstr s).1 = .plain u :: tail ∧ (nstr <+: u ∨ u = patternError) := by
  induction s with
  | nil =>
      intro nstr hne
      exact ⟨nstr, [], flush_of_ne_nil hne, .inl (List.prefix_refl _)⟩
  | cons c r ih =>
      intro nstr hne
      by_cases hc : c = 37
      · subst hc
        by_cases hhead : r.head? = some 37
        · obtain ⟨s, rfl⟩ := List.head?_eq_some_iff.mp hhead
          obtain ⟨u, tail, hentries, hu⟩ := ih (nstr ++ [37]) (by simp)
          exact ⟨u, tail, hentries, hu.imp_left (List.prefix_append ..).trans⟩
        · rcases entries_cases nstr hhead with ⟨fmt, q, -, hentries⟩ | hentries
          · rw [flush_of_ne_nil hne] at hentries
            exact ⟨nstr, _, hentries, .inl (List.prefix_refl _)⟩
          · exact ⟨patternError, _, hentries, .inr rfl⟩
      · rw [entries_literal hc]
        obtain ⟨u, tail, hentries, hu⟩ := ih (nstr ++ [c]) (by simp)
        exact ⟨u, tail, hentries, hu.imp_left (List.prefix_append ..).trans⟩

/-- The item of a directive is not the text for a format that is not closed, or longer. -/
theorem item_directive_ne {u : Text} (hu : text "<<p" <+: u) :
    item (.directive str fmt) ≠ .string u := by
  intro h
  rw [item, toItem] at h
  cases hfind : ItemKind.find str with
  | some kind =>
      rw [hfind] at h
      cases h
  | none =>
      rw [hfind] at h
      rw [← FormatItem.string.inj h, List.append_assoc] at hu
      have hle : text "<<p" <+: text "<<error_format %" :=
        List.prefix_of_prefix_length_le hu (List.prefix_append ..) (by decide)
      exact absurd hle (by decide)

/-- The item of a name that has a brace is that of no other name. -/
theorem item_directive_brace_ne {str' fmt' : Text} (hbrace : 125 ∈ str)
    (halpha : ∀ c ∈ str', isAlpha c = true) :
    item (.directive str fmt) ≠ item (.directive str' fmt') := by
  have hnone : ItemKind.find str = none := by
    rw [← Option.not_isSome_iff_eq_none]
    exact fun h => absurd ((isAlpha_of_find h).2 125 hbrace) (by decide)
  have hitem : item (.directive str fmt) =
      .string (text "<<error_format %" ++ str ++ text ">>") := by
    rw [item, toItem, hnone]
  intro h
  rw [hitem, item, toItem] at h
  cases hfind : ItemKind.find str' with
  | some kind =>
      rw [hfind] at h
      cases h
  | none =>
      rw [hfind] at h
      have htext := FormatItem.string.inj h
      rw [List.append_cancel_right_eq, List.append_cancel_left_eq] at htext
      rw [htext] at hbrace
      exact absurd (halpha 125 hbrace) (by decide)

theorem percent_not_mem_patternError : 37 ∉ patternError := by
  decide

/-- After a `%%` the entries differ. `v` is the plain text that the elements have in front of them,
and ends with a percent sign. `init` has as many percent signs more as it has read twice, and one
of them it still has to read. The induction is on the elements, for a row of `%%`. -/
theorem entries_percent_ne (h : WellFormed es) : ∀ (v : Text) (k : Nat), 37 ∈ v →
    (entries (v ++ List.replicate k 37) (37 :: spell es)).1.map item ≠ (parts v es).map item := by
  have hne : ∀ {v : Text} (k : Nat), (37 : UInt8) ∈ v → v ++ List.replicate k 37 ≠ [] :=
    fun k hv h => List.ne_nil_of_mem hv (List.append_eq_nil_iff.mp h).1
  induction es with
  | nil =>
      -- The last percent sign is a directive without a name.
      intro v k hv hitems
      have hlast : entries (v ++ List.replicate k 37) (37 :: spell []) =
          (flush (v ++ List.replicate k 37) ++ [.directive [] []], false) :=
        @entries_directive [] [] _ (fun c hc => nomatch hc) none (fun c hc => nomatch hc)
          (fun hc => nomatch hc)
      rw [hlast, flush_of_ne_nil (hne k hv), parts,
        flush_of_ne_nil (List.ne_nil_of_mem hv)] at hitems
      cases congrArg List.length hitems
  | cons e es ih =>
      intro v k hv hitems
      cases e with
      | percent =>
          have hrow : v ++ List.replicate k 37 ++ [37] ++ [37] =
              v ++ [37] ++ List.replicate (k + 1) 37 := by
            rw [List.append_assoc, List.append_assoc, List.append_assoc, List.singleton_append,
              List.singleton_append, ← List.replicate_succ, List.replicate_succ',
              List.replicate_succ', List.append_assoc, List.singleton_append]
          rw [spell, entries_percent, entries_percent, hrow] at hitems
          exact ih h (v ++ [37]) (k + 1) (List.mem_append_left _ hv) hitems
      | literal c =>
          -- The literal follows `v` here, and there it is the name of a directive.
          obtain ⟨u, tail, hparts⟩ := parts_of_ne_nil es (v ++ [c]) (by simp)
          have hhead : (c :: spell es).head? ≠ some 37 := fun hc => h.1 (Option.some.inj hc)
          rw [parts, hparts, spell] at hitems
          rcases entries_cases (v ++ List.replicate k 37) hhead with
            ⟨fmt, q, -, hentries⟩ | hentries
          · rw [hentries, flush_of_ne_nil (hne k hv)] at hitems
            have htext := FormatItem.string.inj (List.cons.inj hitems).1
            rw [List.append_assoc, List.append_cancel_left_eq] at htext
            have hmem : c ∈ List.replicate k 37 := htext ▸ List.mem_cons_self
            exact h.1 (List.eq_of_mem_replicate hmem)
          · rw [hentries] at hitems
            have htext := FormatItem.string.inj (List.cons.inj hitems).1
            refine percent_not_mem_patternError ?_
            rw [htext]
            exact List.mem_append_left _ (List.mem_append_left _ hv)
      | directive str fmt =>
          obtain ⟨u, tail, hentries, hu⟩ := entries_of_ne_nil (37 :: (body str fmt ++ spell es))
            (v ++ List.replicate k 37 ++ [37]) (by simp)
          rw [spell, entries_percent, hentries, parts,
            flush_of_ne_nil (List.ne_nil_of_mem hv)] at hitems
          have htext : u = v := FormatItem.string.inj (List.cons.inj hitems).1
          rcases hu with hu | rfl
          · have hlen := hu.length_le
            rw [htext, List.length_append, List.length_append, List.length_singleton] at hlen
            omega
          · exact percent_not_mem_patternError (htext ▸ hv)

/-- When a brace follows a directive without a format, the entries differ. -/
theorem entries_brace_ne (halpha : ∀ c ∈ str, isAlpha c = true) (hne : str ≠ [])
    (hbrace : (spell es).head? = some 125) :
    (entries nstr (37 :: (str ++ spell es))).1.map item ≠
      (flush nstr ++ .directive str [] :: parts [] es).map item := by
  obtain ⟨t, ht⟩ := List.head?_eq_some_iff.mp hbrace
  have hhead : (str ++ spell es).head? ≠ some 37 := head_body_ne hne halpha none
  have hmem : 125 ∈ (str ++ spell es).takeWhile inName := by
    rw [ht, List.takeWhile_append_of_pos fun c hc => inName_of_isAlpha (halpha c hc),
      List.takeWhile_cons_of_pos rfl]
    exact List.mem_append_right _ List.mem_cons_self
  intro hitems
  rcases entries_cases nstr hhead with ⟨fmt, q, -, hentries⟩ | hentries
  · rw [hentries, List.map_append, List.map_append, List.append_cancel_left_eq] at hitems
    exact item_directive_brace_ne hmem halpha (List.cons.inj hitems).1
  · -- The format is not closed. The text for it stands in front of `nstr`, which might be the same.
    rw [hentries] at hitems
    by_cases hnil : nstr = []
    · subst hnil
      exact item_directive_ne (u := patternError) (by decide) (List.cons.inj hitems).1.symm
    · rw [flush_of_ne_nil hnil] at hitems
      obtain ⟨hfirst, hrest⟩ := List.cons.inj hitems
      have hnstr : patternError = nstr := FormatItem.string.inj hfirst
      obtain ⟨u, tail, hentries, hu⟩ := entries_of_ne_nil (str ++ spell es) nstr hnil
      rw [hentries] at hrest
      have hstart : text "<<p" <+: u := by
        rcases hu with hu | rfl
        · exact List.IsPrefix.trans (hnstr ▸ by decide) hu
        · decide
      exact item_directive_ne hstart (List.cons.inj hrest).1.symm

theorem entries_spell_ne (h : WellFormed es) (htame : ¬ Tame es) :
    ∀ nstr, (entries nstr (spell es)).1.map item ≠ (parts nstr es).map item := by
  induction es with
  | nil => exact absurd trivial htame
  | cons e es ih =>
      intro nstr
      cases e with
      | literal c =>
          rw [spell, entries_literal h.1]
          exact ih h.2 htame _
      | percent =>
          rw [spell, entries_percent]
          have hitems := entries_percent_ne (show WellFormed es from h) (nstr ++ [37]) 0 (by simp)
          rwa [List.replicate_zero, List.append_nil] at hitems
      | directive str fmt =>
          by_cases hbrace : fmt = none ∧ (spell es).head? = some 125
          · obtain ⟨rfl, hbrace⟩ := hbrace
            exact entries_brace_ne h.1.2 h.1.1 hbrace
          · -- The directive is read as it is meant, so the difference is behind it.
            have hrest : ¬ Tame es := fun hes => htame (tame_directive.mpr ⟨hbrace, hes⟩)
            rw [entries_spell_directive h hbrace, parts]
            simp only [List.map_append, List.map_cons]
            intro hitems
            exact ih h.2.2 hrest [] (List.cons.inj (List.append_cancel_left hitems)).2

/-! ### Patterns -/

theorem items_eq (pattern : Text) : items ⟨pattern⟩ = (entries [] pattern).1.map item := by
  show ((entries [] pattern).1.map toItem).map Prod.fst = _
  rw [List.map_map]
  rfl

theorem isError_eq (pattern : Text) : isError ⟨pattern⟩ = errorIn [] pattern := by
  show ((entries [] pattern).2 || ((entries [] pattern).1.map toItem).any Prod.snd) = _
  rw [List.any_map]
  rfl

theorem isError_eq_false_iff (pattern : Text) : isError ⟨pattern⟩ = false ↔ Readable pattern := by
  rw [isError_eq]
  constructor
  · exact exists_read pattern []
  · rintro ⟨es, hread, rfl⟩
    exact errorIn_spellRead hread []

/-- A well-formed pattern without a percent sign in front starts with a literal. -/
theorem exists_of_spell_literal {c : UInt8} (h : WellFormed es) (hspell : spell es = c :: r)
    (hc : c ≠ 37) : ∃ es', WellFormed es' ∧ spell es' = r := by
  cases es with
  | nil => cases hspell
  | cons e es =>
      cases e with
      | literal d => exact ⟨es, h.2, (List.cons.inj hspell).2⟩
      | percent => exact absurd (List.cons.inj hspell).1.symm hc
      | directive str fmt => exact absurd (List.cons.inj hspell).1.symm hc

/-- A percent sign is followed by a letter or by a percent sign. -/
theorem exists_of_spell_percent {c : UInt8} (h : WellFormed es) (hspell : spell es = 37 :: c :: r)
    (hc : isAlpha c = false) : c = 37 ∧ ∃ es', WellFormed es' ∧ spell es' = r := by
  cases es with
  | nil => cases hspell
  | cons e es =>
      cases e with
      | literal d => exact absurd (List.cons.inj hspell).1 h.1
      | percent =>
          obtain ⟨hpercent, hrest⟩ := List.cons.inj (List.cons.inj hspell).2
          exact ⟨hpercent.symm, es, h, hrest⟩
      | directive str fmt =>
          obtain ⟨⟨hne, halpha⟩, -, -⟩ := h
          obtain ⟨d, str, rfl⟩ := List.exists_cons_of_ne_nil hne
          have hd : d = c := by
            cases fmt <;> exact (List.cons.inj (List.cons.inj hspell).2).1
          rw [← hd, halpha d List.mem_cons_self] at hc
          cases hc

end

/-- A pattern is parsed as stated if and only if its elements have no `%%` and no closing brace
directly behind a directive without a format, or it has no elements and `init` does not read it as
others. -/
theorem parses_iff (pattern : Text) :
    Parses pattern ↔ (∀ es, WellFormed es → spell es = pattern → Tame es) ∧
      ((∀ es, WellFormed es → spell es ≠ pattern) → ¬ Readable pattern) := by
  have hmalformed : isError ⟨pattern⟩ = true ↔ ¬ Readable pattern := by
    rw [← isError_eq_false_iff, Bool.not_eq_false]
  constructor
  · intro h
    refine ⟨fun es hes hspell => ?_, fun hnone => hmalformed.mp (h.malformed hnone)⟩
    by_contra htame
    have hitems := (h.wellFormed es hes hspell).1
    rw [items_eq, ← hspell] at hitems
    exact entries_spell_ne hes htame [] hitems
  · rintro ⟨htame, hnone⟩
    refine ⟨fun es hes hspell => ?_, fun h => hmalformed.mpr (hnone h)⟩
    have hentries := entries_spell hes (htame es hes hspell) []
    rw [items_eq, isError_eq, errorIn, ← hspell, hentries]
    exact ⟨rfl, any_parts_iff []⟩

/-- `%%` is in error, and so is `%m` with a brace behind it. A pattern with a `%` in front of a
blank is not in error, because the second sign of its `%%` is read as that of a directive. -/
theorem not_parses :
    (items ⟨text "%%"⟩ = [.string (text "%"), .string (text "<<error_format %>>")] ∧
      ¬ Parses (text "%%")) ∧
    (items ⟨text "%m\x7d"⟩ = [.string (text "<<error_format %m\x7d>>")] ∧
      ¬ Parses (text "%m\x7d")) ∧
    items ⟨text "%%d\x7b% \x7d"⟩ = [.string (text "%"), .item .dateTime (text "% ")] ∧
      ¬ Parses (text "%%d\x7b% \x7d") := by
  refine ⟨⟨rfl, fun h => ?_⟩, ⟨rfl, fun h => ?_⟩, rfl, fun h => ?_⟩
  · have hitems := (h.wellFormed [.percent] trivial rfl).1
    exact absurd (congrArg List.length hitems) (by decide)
  · have hes : WellFormed [.directive (text "m") none, .literal 125] := by
      refine ⟨isAlpha_of_find rfl, fun c hc => ?_, by decide, trivial⟩
      cases hc
      decide
    exact absurd (congrArg List.length (h.wellFormed _ hes rfl).1) (by decide)
  · have herror : isError ⟨text "%%d\x7b% \x7d"⟩ = false := rfl
    have htext : text "%%d\x7b% \x7d" = [37, 37, 100, 123, 37, 32, 125] := rfl
    refine Bool.false_ne_true (herror.symm.trans (h.malformed fun es hes hspell => ?_))
    rw [htext] at hspell
    obtain ⟨-, es, hes, hspell⟩ := exists_of_spell_percent hes hspell (by decide)
    obtain ⟨es, hes, hspell⟩ := exists_of_spell_literal hes hspell (by decide)
    obtain ⟨es, hes, hspell⟩ := exists_of_spell_literal hes hspell (by decide)
    exact absurd (exists_of_spell_percent hes hspell (by decide)).1 (by decide)

end Sylar.Log.LogFormatter
