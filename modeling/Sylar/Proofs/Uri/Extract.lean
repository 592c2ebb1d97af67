import Sylar.Proofs.Uri.Create

/-!
# `Sylar.Proofs.Uri.Extract`: which URIs `Uri::Create` takes apart

`exists_parts` is the converse of `create_text`: every string with a scheme and an authority that is
accepted is made of parts of the grammar. With both, what `Uri::Create` returns is known for all such
strings. `extracted_iff` compares it with the parts of a URI of RFC 3986.
-/

set_option autoImplicit false

namespace Sylar

open Lib Lib.Rx UriParser

/-! ### The strings that are accepted -/

section
variable {s w v : List UInt8} {u : Uri}

/-- The machine accepts the string. -/
theorem live_of_create (h : Uri.create s = .ok (some u)) :
    live s.isEmpty main (after true main .none s) = true := by
  rw [Uri.create, Parts.scan_eq] at h
  cases hexec : exec main (Uri.runAct s) (fun _ => false) 0 true .none s (.ok ⟨none, Uri.new⟩) with
  | mk q res =>
      obtain ⟨cs, st⟩ := res
      rw [hexec] at h
      cases cs with
      | error =>
          change st.map (fun _ => none) = _ at h
          cases st <;> cases h
      | «at» m t =>
          obtain ⟨rfl, rfl⟩ := exec_at_end (fun _ => rfl) hexec
          rw [Bool.true_and] at h
          change Except.map (fun y : UriScan => bif live s.isEmpty main (after true main .none s) then
            some y.uri else none) (List.foldl _ st _) = _ at h
          generalize List.foldl _ st _ = st' at h
          cases st' with
          | error e => cases h
          | ok y =>
              cases hlive : live s.isEmpty main (after true main .none s) with
              | true => rfl
              | false =>
                  rw [hlive] at h
                  cases h

/-- A scheme and a colon leave the relative references behind. -/
theorem mem_lang_uri (h : live s.isEmpty main (after true main .none s) = true)
    (hs : HasAuthority s) : s ∈ lang uri := by
  obtain ⟨scheme, hscheme, rest, rfl⟩ := hs
  obtain ⟨-, hquestion, hhash⟩ := Parts.notMem_scheme hscheme
  have hcolon : after true relativeRef .none (scheme ++ [58]) = .none := by
    have hpart : after true relativeRef (.join .none .none) (scheme ++ [58]) =
        .join (after true relativePart .none (scheme ++ [58])) .none := by
      refine after_seq_of_first fun c hc => ?_
      rw [Parts.first_queryFragment, Bool.or_eq_false_iff, beq_eq_false_iff_ne, beq_eq_false_iff_ne]
      exact ⟨fun hne => hquestion (hne ▸ hc), fun hne => hhash (hne ▸ hc)⟩
    rw [Parts.after_relativePart hscheme] at hpart
    exact hpart
  have hsplit : scheme ++ 58 :: 47 :: 47 :: rest = (scheme ++ [58]) ++ 47 :: 47 :: rest := by
    rw [List.append_assoc]
    rfl
  have hempty : (scheme ++ [58]).isEmpty = false := by cases scheme <;> rfl
  have hafter : after true main .none (scheme ++ 58 :: 47 :: 47 :: rest) =
      .join (after true uri .none (scheme ++ 58 :: 47 :: 47 :: rest))
        (after true relativeRef .none (scheme ++ 58 :: 47 :: 47 :: rest)) :=
    after_alt (t := .none) (x := .none)
  have hdead : after true relativeRef .none (scheme ++ 58 :: 47 :: 47 :: rest) = .none := by
    rw [hsplit, after_append, hcolon, hempty]
    exact after_idle
  refine mem_lang_of_live ?_
  rw [hafter, hdead] at h
  have hnil : (scheme ++ 58 :: 47 :: 47 :: rest).isEmpty = false := by cases scheme <;> rfl
  rw [hnil] at h ⊢
  change live false (alt uri relativeRef) _ = true at h
  rw [live_alt, Marks.left_join, Marks.right_join, live_none, Bool.false_and, Bool.or_false] at h
  exact h

theorem exists_behind {sep : UInt8} {r : Machine} (h : w ∈ lang (opt (seq (word [sep]) r))) :
    ∃ o, w = behind sep o ∧ ∀ v ∈ o, v ∈ lang r := by
  rcases mem_lang_opt.mp h with h | h
  · obtain ⟨l, hl, v, hv, rfl⟩ := mem_lang_seq.mp h
    rw [show l = [sep] from mem_lang_word.mp hl]
    exact ⟨some v, rfl, fun _ hw => Option.some.inj hw ▸ hv⟩
  · exact ⟨none, h, fun _ hw => nomatch hw⟩

theorem exists_userinfo (h : w ∈ lang (opt userinfoAt)) :
    ∃ o, w = userinfoText o ∧ ∀ v ∈ o, v ∈ lang UriParser.userinfo := by
  rcases mem_lang_opt.mp h with h | h
  · obtain ⟨v, hv, l, hl, rfl⟩ := mem_lang_seq.mp h
    rw [show l = [64] from mem_lang_word.mp hl]
    exact ⟨some v, rfl, fun _ hw => Option.some.inj hw ▸ hv⟩
  · exact ⟨none, h, fun _ hw => nomatch hw⟩

/-- Two slashes begin the form with an authority. -/
theorem mem_netPath (h : w ∈ lang hierPart) (hv : v ∈ lang queryFragment) {rest : List UInt8}
    (hw : w ++ v = 47 :: 47 :: rest) : w ∈ lang netPath := by
  -- a slash neither begins a query or a fragment nor a segment
  have hslash : ∀ r : Machine, first r 47 = false → ∀ y, 47 :: y ∉ lang r := by
    intro r hr y hy
    rw [first_of_mem_lang hy] at hr
    cases hr
  have htail := hslash queryFragment Parts.first_queryFragment
  have hempty : w ≠ [] := by
    rintro rfl
    rw [List.nil_append] at hw
    exact htail _ (hw ▸ hv)
  obtain ⟨c, y, rfl⟩ := List.exists_cons_of_ne_nil hempty
  obtain ⟨rfl, hy⟩ := List.cons.inj hw
  have hy : y ++ v = 47 :: rest := hy
  rcases h with h | h | h | h
  · exact h
  · obtain ⟨l, hl, z, hz, hlz⟩ := mem_lang_seq.mp h
    rw [show l = [47] from mem_lang_word.mp hl] at hlz
    obtain rfl : z = y := (List.cons.inj hlz).2
    cases z with
    | nil =>
        rw [List.nil_append] at hy
        exact absurd (hy ▸ hv) (htail _)
    | cons d z =>
        obtain ⟨rfl, -⟩ := List.cons.inj hy
        exact absurd hz (hslash _ (by decide) _)
  · exact absurd h (hslash _ (by decide) _)
  · exact absurd h (hslash _ rfl _)

/-- An accepted string with a scheme and an authority is made of parts of the grammar. -/
theorem exists_parts (h : Uri.create s = .ok (some u)) (hs : HasAuthority s) :
    ∃ x : Parts, x.Grammatical ∧ x.text = s := by
  have huri := mem_lang_uri (live_of_create h) hs
  obtain ⟨scheme, hscheme, rest, hrest⟩ := hs
  obtain ⟨sc, hsc, y, hy, hsy⟩ := mem_lang_seq.mp huri
  obtain ⟨l, hl, z, hz, rfl⟩ := mem_lang_seq.mp hy
  rw [show l = [58] from mem_lang_word.mp hl] at hsy
  obtain ⟨hier, hhier, tail, htail, rfl⟩ := mem_lang_seq.mp hz
  have hcolon : avoids 58 schemeText = true := by decide
  rw [← hsy] at hrest
  obtain ⟨rfl, hslashes⟩ := append_cons_inj_left (notMem_of_avoids hcolon hsc)
    (notMem_of_avoids hcolon hscheme) hrest
  obtain ⟨l, hl, net, hnet, rfl⟩ := mem_lang_seq.mp (mem_netPath hhier htail hslashes)
  obtain ⟨auth, hauth, path, hpath, rfl⟩ := mem_lang_seq.mp hnet
  obtain ⟨ui, hui, hostPort, hhostPort, rfl⟩ := mem_lang_seq.mp hauth
  obtain ⟨host, hhost, pt, hpt, rfl⟩ := mem_lang_seq.mp hhostPort
  obtain ⟨q, hq, f, hf, rfl⟩ := mem_lang_seq.mp htail
  obtain ⟨userinfo, rfl, huserinfo⟩ := exists_userinfo hui
  obtain ⟨port, rfl, hport⟩ := exists_behind hpt
  obtain ⟨query, rfl, hquery⟩ := exists_behind hq
  obtain ⟨fragment, rfl, hfragment⟩ := exists_behind hf
  refine ⟨⟨sc, userinfo, host, port, path, query, fragment⟩,
    ⟨hsc, huserinfo, hhost, hport, hpath, hquery, hfragment⟩, ?_⟩
  rw [← hsy, show l = [47, 47] from mem_lang_word.mp hl]
  rfl

/-! ### The parts that are returned -/

/-- What follows a colon is shorter than the whole. -/
theorem behindColon_ne (h : digitBehindColon w = true) : behindColon w ≠ w := by
  intro heq
  have hlen : (behindColon w).length < w.length := by
    have hle := (List.dropWhile_suffix (· != 58) (l := w)).length_le
    rw [behindColon, List.length_tail]
    cases hd : w.dropWhile (· != 58) with
    | nil =>
        rw [digitBehindColon, behindColon, hd] at h
        cases h
    | cons c v =>
        rw [hd, List.length_cons] at hle
        rw [List.length_cons]
        omega
  rw [heq] at hlen
  exact Nat.lt_irrefl _ hlen

theorem savedUserinfo_eq_iff : savedUserinfo w = w ↔ digitBehindColon w = false := by
  rw [savedUserinfo]
  cases hd : digitBehindColon w with
  | false => exact iff_of_true rfl rfl
  | true => exact iff_of_false (behindColon_ne hd) Bool.noConfusion

/-- `atoi` of a port in the range of ports. -/
theorem atoi_of_digits (hne : w ≠ []) (hdigits : ∀ c ∈ w, isDigit c = true)
    (hlt : ofNumeral 10 w < 2 ^ 31) : atoi w = ofNumeral 10 w := by
  have hstrtol := strtol_digits (b := 10) (x := []) hne hdigits fun c hc => nomatch hc
  rw [List.append_nil] at hstrtol
  rw [atoi, hstrtol, saturate_of_lt (by omega) (by omega), toInt32_of_lt (by omega) (by omega)]

theorem getPort_of_zero (h : u.port = 0) : u.getPort = defaultPort u.scheme := by
  rw [Uri.getPort, h, if_neg (not_not_intro rfl), defaultPort]

end

namespace Parts

variable {x : Parts}

theorem Rfc.grammatical (h : x.Rfc) (hhost : x.host ∈ lang UriParser.host) : x.Grammatical :=
  ⟨h.scheme, h.userinfo, hhost, fun w hw => mem_lang_star_sym.mpr (h.port w hw).1, h.path, h.query,
    h.fragment⟩

theorem getPort_uri (h : x.Rfc) : x.uri.getPort = x.portNumber := by
  rw [portNumber]
  cases hport : x.port with
  | none => exact getPort_of_zero (by rw [uri, hport]; rfl)
  | some ds =>
      obtain ⟨hdigits, hrange⟩ := h.port ds hport
      cases ds with
      | nil =>
          have hzero : x.uri.port = 0 := by
            rw [uri, hport]
            exact (by decide : atoi [] = 0)
          exact getPort_of_zero hzero
      | cons d ds =>
          obtain ⟨hlow, hhigh⟩ := hrange.resolve_left (List.cons_ne_nil d ds)
          have hvalue : x.uri.port = ofNumeral 10 (d :: ds) := by
            rw [uri, hport]
            exact atoi_of_digits (List.cons_ne_nil d ds) hdigits (by omega)
          rw [Uri.getPort, hvalue, if_pos (by omega)]

/-- `Uri::Create` takes a URI of the RFC apart exactly when the parts leave the shared mark alone and
the host is one of `uri.rl`. -/
theorem extracted_iff (x : Parts) (hx : x.Rfc) : x.Extracted ↔ x.Extractable := by
  constructor
  · rintro ⟨u, hcreate, -, huserinfo, hhost, -, hpath, -, -⟩
    have hmem : x.host ∈ lang UriParser.host := by
      obtain ⟨y, hy, htext⟩ := exists_parts hcreate ⟨x.scheme, hx.scheme, _, rfl⟩
      rw [← htext, create_text hy] at hcreate
      obtain rfl : y.uri = u := Option.some.inj (Except.ok.inj hcreate)
      exact hhost ▸ hy.host
    rw [create_text (hx.grammatical hmem)] at hcreate
    obtain rfl : x.uri = u := Option.some.inj (Except.ok.inj hcreate)
    refine ⟨hmem, fun w hw => ?_, fun hport => ?_⟩
    · refine savedUserinfo_eq_iff.mp ?_
      have huserinfo : (x.userinfo.map savedUserinfo).getD [] = x.userinfo.getD [] := huserinfo
      rw [hw] at huserinfo
      exact huserinfo
    · have hslash : x.uri.getPath = [47] := by
        rw [Uri.getPath, uri, hport]
        exact (by decide : Lib.text "/" = [47])
      rw [hslash] at hpath
      cases hempty : x.path.isEmpty with
      | true => exact .inl (List.isEmpty_iff.mp hempty)
      | false =>
          rw [hempty] at hpath
          exact .inr hpath.symm
  · intro h
    refine ⟨x.uri, create_text (hx.grammatical h.host), rfl, ?_, rfl, getPort_uri hx, ?_, rfl, rfl⟩
    · show (x.userinfo.map savedUserinfo).getD [] = _
      cases hw : x.userinfo with
      | none => rfl
      | some w => exact savedUserinfo_eq_iff.mpr (h.userinfo w hw)
    · rw [Uri.getPath, uri]
      cases hport : x.port == some [] with
      | false => rfl
      | true =>
          rcases h.path (beq_iff_eq.mp hport) with hpath | hpath
          · rw [hpath]
            rfl
          · rw [hpath]
            exact (by decide : Lib.text "/" = [47])

/-- `http://user@www.sylar.top:8080/test/uri?id=100#frg`. -/
def sample : Parts where
  scheme := Lib.text "http"
  userinfo := some (Lib.text "user")
  host := Lib.text "www.sylar.top"
  port := some (Lib.text "8080")
  path := Lib.text "/test/uri"
  query := some (Lib.text "id=100")
  fragment := some (Lib.text "frg")

theorem rfc_sample : sample.Rfc where
  scheme := mem_lang_of_live (by decide)
  userinfo := by
    rintro w ⟨⟩
    exact mem_lang_of_live (by decide)
  host := mem_lang_of_live (by decide)
  port := by
    rintro w ⟨⟩
    exact ⟨by decide +kernel, .inr (by decide +kernel)⟩
  path := mem_lang_of_live (by decide)
  query := by
    rintro w ⟨⟩
    exact mem_lang_of_live (by decide)
  fragment := by
    rintro w ⟨⟩
    exact mem_lang_of_live (by decide)

theorem extracted_sample : sample.Extracted := by
  refine (extracted_iff sample rfc_sample).mpr ⟨mem_lang_of_live (by decide), ?_, nofun⟩
  rintro w ⟨⟩
  decide

/-- `http://user:1@www.sylar.top:8080/test/uri?id=100#frg`: the user information that is returned is
`1`. -/
theorem userinfo_cut :
    { sample with userinfo := some (Lib.text "user:1") }.Rfc ∧
      ¬ { sample with userinfo := some (Lib.text "user:1") }.Extracted := by
  refine ⟨{ rfc_sample with userinfo := ?_ }, ?_⟩
  · rintro w ⟨⟩
    exact mem_lang_of_live (by decide)
  · rintro ⟨u, hcreate, -, huserinfo, -⟩
    have hcut : (Uri.create { sample with userinfo := some (Lib.text "user:1") }.text).map
        (Option.map Uri.userinfo) = .ok (some (Lib.text "1")) := by
      decide
    rw [hcreate] at hcut
    have hcut : u.userinfo = Lib.text "1" := Option.some.inj (Except.ok.inj hcut)
    rw [hcut] at huserinfo
    exact absurd huserinfo (by decide)

end Parts

end Sylar
