import Sylar.Proofs.Uri.Extract

/-!
# `Sylar.Proofs.Uri.RoundTrip`: which URIs are read back from what is printed

`toString` prints the text of `Uri.parts`. When the port is not negative these parts are of the
grammar, so that `create_text` gives the `Uri` that is read back. A negative port has a sign in
front, and no port of the grammar has.
-/

set_option autoImplicit false

namespace Sylar

open Lib Lib.Rx UriParser

namespace Uri

/-- A part that is printed with its separator when it is not empty. -/
def nonempty (w : List UInt8) : Option (List UInt8) := bif w.isEmpty then none else some w

/-- The parts that `toString` prints. -/
def parts (u : Uri) : Parts where
  scheme := u.scheme
  userinfo := nonempty u.userinfo
  host := u.host
  port := bif u.isDefaultPort then none else some (toText u.port)
  path := u.getPath
  query := nonempty u.query
  fragment := nonempty u.fragment

section
variable {u : Uri} {w : List UInt8}

theorem toString_eq : u.toString = u.parts.text := by
  have hui : userinfoText (nonempty u.userinfo) =
      u.userinfo ++ (bif u.userinfo.isEmpty then [] else text "@") := by
    rw [nonempty]
    cases h : u.userinfo.isEmpty with
    | true => rw [List.isEmpty_iff.mp h]; rfl
    | false => rfl
  have hbehind : ∀ (w : List UInt8) (sep : UInt8), behind sep (nonempty w) =
      (bif w.isEmpty then [] else [sep]) ++ w := by
    intro w sep
    cases w <;> rfl
  have hport : behind 58 (bif u.isDefaultPort then none else some (toText u.port)) =
      bif u.isDefaultPort then [] else text ":" ++ toText u.port := by
    cases u.isDefaultPort <;> rfl
  rw [toString, Parts.text, Parts.authority]
  simp only [parts, hui, hbehind, hport, List.append_assoc, List.cons_append]
  rfl

theorem getD_nonempty : (nonempty w).getD [] = w := by
  cases w <;> rfl

theorem of_mem_nonempty {v : List UInt8} (h : v ∈ nonempty w) : v = w := by
  cases w with
  | nil => cases h
  | cons c w => exact (Option.some.inj h).symm

theorem toText_ne_nil (n : Int) : toText n ≠ [] := by
  rw [toText]
  cases decide (n < 0) with
  | true => exact List.cons_ne_nil _ _
  | false => exact numeral_ne_nil 10 _

/-! ### Ports -/

theorem getPort_of_isDefaultPort (h : u.isDefaultPort = true) : u.getPort = defaultPort u.scheme := by
  by_cases hzero : u.port = 0
  · exact getPort_of_zero hzero
  · rw [isDefaultPort, if_neg hzero] at h
    rw [getPort, if_pos hzero, defaultPort]
    split at h
    · next hhttp =>
      rw [if_pos hhttp]
      exact beq_iff_eq.mp h
    · next hhttp =>
      rw [if_neg hhttp]
      split at h
      · next hhttps =>
        rw [if_pos hhttps]
        exact beq_iff_eq.mp h
      · cases h

theorem ne_zero_of_isDefaultPort (h : u.isDefaultPort = false) : u.port ≠ 0 := by
  intro hzero
  rw [isDefaultPort, if_pos hzero] at h
  cases h

theorem toText_of_nonneg {n : Int} (h : 0 ≤ n) : toText n = numeral 10 n.toNat := by
  have hneg : decide (n < 0) = false := decide_eq_false (not_lt.mpr h)
  rw [toText, hneg, cond_false, ← Int.toNat_of_nonneg h]
  rfl

theorem isDigit_of_mem_numeral {n : Nat} : ∀ c ∈ numeral 10 n, isDigit c = true :=
  fun _ hc => isDigitOf_of_mem_numeral (b := 10) (.inl rfl) hc

theorem atoi_toText {n : Int} (h : 0 ≤ n) (hn : IsInt n) : atoi (toText n) = n := by
  have hvalue : ofNumeral 10 (numeral 10 n.toNat) = n.toNat := ofNumeral_numeral (by omega) (by omega)
  have hhigh := hn.high
  rw [toText_of_nonneg h, atoi_of_digits (numeral_ne_nil 10 _) isDigit_of_mem_numeral, hvalue]
  · exact Int.toNat_of_nonneg h
  · rw [hvalue]
    omega

end

end Uri

namespace Parts

open Uri

section
variable {x : Parts}

theorem isInt_port : IsInt x.uri.port := by
  show IsInt ((x.port.map atoi).getD 0)
  cases x.port with
  | none => exact ⟨by decide, by decide⟩
  | some w => exact isInt_toInt32 _

theorem savedUserinfo_mem {w : List UInt8} (h : w ∈ lang UriParser.userinfo) :
    savedUserinfo w ∈ lang UriParser.userinfo := by
  rw [savedUserinfo]
  cases digitBehindColon w with
  | true => exact (split_escaped (c := 58) h (by decide) (by decide)).2
  | false => exact h

theorem nonempty_getD_mem {r : Machine} {o : Option (List UInt8)} (h : ∀ w ∈ o, w ∈ lang r) :
    ∀ w ∈ nonempty (o.getD []), w ∈ lang r := by
  intro w hw
  cases o with
  | none => cases hw
  | some v => exact of_mem_nonempty hw ▸ h v rfl

theorem getPath_mem (h : x.Grammatical) : x.uri.getPath ∈ lang pathAbempty := by
  have hslash : [47] ∈ lang pathAbempty := mem_lang_of_live (by decide +kernel)
  rw [getPath]
  cases hempty : x.uri.path.isEmpty with
  | true => exact hslash
  | false =>
      rw [uri] at hempty ⊢
      cases hport : x.port == some [] with
      | true =>
          rw [hport] at hempty
          cases hempty
      | false => exact h.path

/-- What is printed of an accepted URI is of the grammar, but for the port. -/
theorem grammatical_portless (h : x.Grammatical) :
    { x.uri.parts with port := none }.Grammatical where
  scheme := h.scheme
  userinfo := by
    refine nonempty_getD_mem fun w hw => ?_
    obtain ⟨v, hv, rfl⟩ := Option.map_eq_some_iff.mp hw
    exact savedUserinfo_mem (h.userinfo v hv)
  host := h.host
  port := fun _ hw => nomatch hw
  path := getPath_mem h
  query := nonempty_getD_mem h.query
  fragment := nonempty_getD_mem h.fragment

theorem grammatical_parts (h : x.Grammatical) (hport : 0 ≤ x.uri.port) :
    x.uri.parts.Grammatical := by
  have hrest := grammatical_portless h
  refine ⟨hrest.scheme, hrest.userinfo, hrest.host, fun w hw => ?_, hrest.path, hrest.query,
    hrest.fragment⟩
  change w ∈ bif x.uri.isDefaultPort then none else some (toText x.uri.port) at hw
  cases hdefault : x.uri.isDefaultPort with
  | true =>
      rw [hdefault] at hw
      cases hw
  | false =>
      rw [hdefault] at hw
      rw [← Option.some.inj hw, toText_of_nonneg hport]
      exact mem_lang_star_sym.mpr isDigit_of_mem_numeral

/-- The port that is read back. -/
theorem getPort_parts (hport : 0 ≤ x.uri.port) : x.uri.parts.uri.getPort = x.uri.getPort := by
  cases hdefault : x.uri.isDefaultPort with
  | true =>
      have hzero : x.uri.parts.uri.port = 0 := by
        show ((bif x.uri.isDefaultPort then none else some (toText x.uri.port)).map atoi).getD 0 = 0
        rw [hdefault]
        rfl
      rw [getPort_of_zero hzero, getPort_of_isDefaultPort hdefault]
      rfl
  | false =>
      have hne := ne_zero_of_isDefaultPort hdefault
      have hsame : x.uri.parts.uri.port = x.uri.port := by
        show ((bif x.uri.isDefaultPort then none else some (toText x.uri.port)).map atoi).getD 0 = _
        rw [hdefault]
        exact atoi_toText hport isInt_port
      rw [getPort, getPort, hsame, if_pos hne, if_pos hne]

theorem getPath_parts : x.uri.parts.uri.getPath = x.uri.getPath := by
  have hport : (x.uri.parts.port == some []) = false := by
    show ((bif x.uri.isDefaultPort then none else some (toText x.uri.port)) == some []) = false
    cases x.uri.isDefaultPort with
    | true => rfl
    | false => exact beq_eq_false_iff_ne.mpr fun h => toText_ne_nil _ (Option.some.inj h)
  have hne : x.uri.getPath.isEmpty = false := by
    rw [getPath]
    cases hempty : x.uri.path.isEmpty with
    | true => rfl
    | false => exact hempty
  have hpath : x.uri.parts.uri.path = x.uri.getPath := by
    rw [uri, hport]
    rfl
  rw [getPath, hpath, hne]
  rfl

/-- What is read back when the port is not negative. -/
theorem readBack_iff_userinfo (h : x.Grammatical) (hport : 0 ≤ x.uri.port) :
    x.uri.ReadBack ↔ digitBehindColon x.uri.userinfo = false := by
  have hcreate : create x.uri.toString = .ok (some x.uri.parts.uri) := by
    rw [toString_eq]
    exact create_text (grammatical_parts h hport)
  have huserinfo : x.uri.parts.uri.userinfo = savedUserinfo x.uri.userinfo := by
    show ((nonempty x.uri.userinfo).map savedUserinfo).getD [] = _
    cases x.uri.userinfo <;> rfl
  constructor
  · rintro ⟨u, hu, -, hsame, -⟩
    rw [hcreate] at hu
    rw [← Option.some.inj (Except.ok.inj hu), huserinfo] at hsame
    exact savedUserinfo_eq_iff.mp hsame
  · intro hdigit
    refine ⟨_, hcreate, rfl, ?_, rfl, getPort_parts hport, getPath_parts, getD_nonempty,
      getD_nonempty⟩
    rw [huserinfo]
    exact savedUserinfo_eq_iff.mpr hdigit

/-! ### A negative port -/

/-- The bytes that end an authority. -/
def endsAuthority (c : UInt8) : Bool := c == 47 || c == 63 || c == 35

theorem takeWhile_authority {a b : List UInt8} (ha : ∀ c ∈ a, endsAuthority c = false)
    (hb : ∀ c ∈ b.head?, endsAuthority c = true) :
    (a ++ b).takeWhile (fun c => !endsAuthority c) = a := by
  rw [List.takeWhile_append_of_pos fun c hc => by rw [ha c hc]; rfl]
  cases b with
  | nil => exact List.append_nil a
  | cons c b => rw [List.takeWhile_cons_of_neg (by rw [hb c rfl]; decide), List.append_nil]

/-- The scheme and the authority can be told from what follows them. -/
structure Delimited (x : Parts) : Prop where
  scheme : (58 : UInt8) ∉ x.scheme
  authority : ∀ c ∈ x.authority, endsAuthority c = false
  behind : ∀ c ∈ (x.path ++ (behind 63 x.query ++ behind 35 x.fragment)).head?, endsAuthority c = true

theorem authority_eq {y : Parts} (hx : x.Delimited) (hy : y.Delimited) (h : x.text = y.text) :
    x.authority = y.authority := by
  obtain ⟨-, hrest⟩ := append_cons_inj_left hx.scheme hy.scheme h
  have hrest := (List.cons.inj (List.cons.inj hrest).2).2
  simp only [List.append_eq, List.append_assoc] at hrest
  rw [← takeWhile_authority hx.authority hx.behind, hrest, takeWhile_authority hy.authority hy.behind]

theorem Grammatical.delimited (h : x.Grammatical) : x.Delimited := by
  have havoids : (avoids 47 UriParser.authority && avoids 63 UriParser.authority &&
      avoids 35 UriParser.authority && avoids 58 schemeText) = true := by decide +kernel
  simp only [Bool.and_eq_true] at havoids
  obtain ⟨⟨⟨hslash, hquestion⟩, hhash⟩, hcolon⟩ := havoids
  have hmem := (enacts_authority h).mem_lang
  refine ⟨notMem_of_avoids hcolon h.scheme, fun c hc => ?_, fun c hc => ?_⟩
  · rw [endsAuthority, Bool.or_eq_false_iff, Bool.or_eq_false_iff, beq_eq_false_iff_ne,
      beq_eq_false_iff_ne, beq_eq_false_iff_ne]
    refine ⟨⟨?_, ?_⟩, ?_⟩
    · rintro rfl
      exact notMem_of_avoids hslash hmem hc
    · rintro rfl
      exact notMem_of_avoids hquestion hmem hc
    · rintro rfl
      exact notMem_of_avoids hhash hmem hc
  · rcases head_path h head_tail c hc with rfl | rfl | rfl <;> rfl

/-- A sign in front of a port is in no authority. -/
theorem host_sign_ne {host host' ds : List UInt8} {port : Option (List UInt8)}
    (hhost : host' ∈ lang UriParser.host) (hport : ∀ w ∈ port, ∀ c ∈ w, isDigit c = true)
    (hne : ds ≠ []) (hds : ∀ c ∈ ds, isDigit c = true) :
    host' ++ behind 58 port ≠ host ++ 58 :: 45 :: ds := by
  intro heq
  cases port with
  | none =>
      rw [behind, List.append_nil] at heq
      rcases host_cases hhost with hliteral | ⟨hcolon, -⟩
      · -- the last byte would be a bracket
        obtain ⟨y, -, hy, -⟩ := of_mem_ipLiteral hliteral
        obtain ⟨ds, d, rfl⟩ := (List.eq_nil_or_concat' ds).resolve_left hne
        have hlast : (91 :: y) ++ [93] = (host ++ 58 :: 45 :: ds) ++ [d] := by
          rw [List.append_assoc]
          exact hy.symm.trans heq
        have hdigit := hds d (List.mem_append_right _ (List.mem_singleton_self d))
        rw [← (List.cons.inj (List.append_inj_right' hlast rfl)).1] at hdigit
        exact absurd hdigit (by decide)
      · exact hcolon (heq ▸ List.mem_append_right _ (List.mem_cons_self ..))
  | some w =>
      have hdigits := hport w rfl
      have hrev : w.reverse ++ 58 :: host'.reverse = (45 :: ds).reverse ++ 58 :: host.reverse := by
        have h := congrArg List.reverse heq
        rw [behind] at h
        simpa using h
      have hcolon : ∀ v : List UInt8, (∀ c ∈ v, isDigit c = true ∨ c = 45) →
          (58 : UInt8) ∉ v.reverse := by
        intro v hv hmem
        rcases hv 58 (List.mem_reverse.mp hmem) with h | h <;> exact absurd h (by decide)
      have hsign : ∀ c ∈ 45 :: ds, isDigit c = true ∨ c = 45 := by
        intro c hc
        rcases List.mem_cons.mp hc with rfl | hc
        · exact .inr rfl
        · exact .inl (hds c hc)
      obtain ⟨hsame, -⟩ := append_cons_inj_left (hcolon w fun c hc => .inl (hdigits c hc))
        (hcolon (45 :: ds) hsign) hrev
      have hfirst := hdigits 45 (List.reverse_injective hsame ▸ List.mem_cons_self ..)
      exact absurd hfirst (by decide)

theorem userinfoText_inj {o o' : Option (List UInt8)} {a b : List UInt8}
    (ho : ∀ w ∈ o, (64 : UInt8) ∉ w) (ho' : ∀ w ∈ o', (64 : UInt8) ∉ w) (ha : (64 : UInt8) ∉ a)
    (hb : (64 : UInt8) ∉ b) (h : userinfoText o ++ a = userinfoText o' ++ b) : a = b := by
  have happend : ∀ w z : List UInt8, userinfoText (some w) ++ z = w ++ 64 :: z := fun w z => by
    rw [userinfoText, List.append_assoc]
    rfl
  have hmem : ∀ w z : List UInt8, (64 : UInt8) ∈ userinfoText (some w) ++ z := fun w z => by
    rw [happend]
    exact List.mem_append_right _ (List.mem_cons_self ..)
  cases o with
  | none =>
      cases o' with
      | none => exact h
      | some w' =>
          have h : a = userinfoText (some w') ++ b := h
          exact absurd (hmem w' b) (h ▸ ha)
  | some w =>
      cases o' with
      | none =>
          have h : userinfoText (some w) ++ a = b := h
          exact absurd (hmem w a) (h ▸ hb)
      | some w' =>
          rw [happend, happend] at h
          exact (append_cons_inj_left (ho w rfl) (ho' w' rfl) h).2

theorem authority_of_neg (hport : x.uri.port < 0) : x.uri.parts.authority =
    userinfoText (nonempty x.uri.userinfo) ++
      (x.host ++ 58 :: 45 :: numeral 10 x.uri.port.natAbs) := by
  have hdefault : x.uri.isDefaultPort = false := by
    rw [isDefaultPort, if_neg (by omega)]
    split
    · exact beq_eq_false_iff_ne.mpr (by omega)
    · split
      · exact beq_eq_false_iff_ne.mpr (by omega)
      · rfl
  have hneg : decide (x.uri.port < 0) = true := decide_eq_true hport
  show userinfoText (nonempty x.uri.userinfo) ++ (x.host ++
    behind 58 (bif x.uri.isDefaultPort then none else some (toText x.uri.port))) = _
  rw [hdefault, cond_false, toText, hneg]
  rfl

/-- A port with a sign in front ends neither the authority nor the user information. -/
theorem of_mem_signed {c : UInt8} {ds : List UInt8} (hds : ∀ c ∈ ds, isDigit c = true)
    (hc : c ∈ 58 :: 45 :: ds) : endsAuthority c = false ∧ c ≠ 64 := by
  rw [List.mem_cons, List.mem_cons] at hc
  rcases hc with rfl | rfl | hc
  · decide
  · decide
  · have hdigit := hds c hc
    refine ⟨?_, ?_⟩
    · rw [endsAuthority, Bool.or_eq_false_iff, Bool.or_eq_false_iff, beq_eq_false_iff_ne,
        beq_eq_false_iff_ne, beq_eq_false_iff_ne]
      refine ⟨⟨?_, ?_⟩, ?_⟩ <;> (rintro rfl; exact absurd hdigit (by decide))
    · rintro rfl
      exact absurd hdigit (by decide)

/-- What is printed for a negative port is not accepted. -/
theorem not_readBack_of_neg (h : x.Grammatical) (hport : x.uri.port < 0) : ¬ x.uri.ReadBack := by
  rintro ⟨u, hcreate, -⟩
  rw [toString_eq] at hcreate
  obtain ⟨y, hy, htext⟩ := exists_parts hcreate ⟨x.scheme, h.scheme, _, rfl⟩
  have hportless := grammatical_portless h
  have hdelimited := hportless.delimited
  have hauthority := authority_of_neg hport
  have hdigits : ∀ c ∈ numeral 10 x.uri.port.natAbs, isDigit c = true := isDigit_of_mem_numeral
  -- the printed text has the sign in its authority
  have hprinted : x.uri.parts.Delimited := by
    refine ⟨hdelimited.scheme, fun c hc => ?_, hdelimited.behind⟩
    rw [hauthority, ← List.append_assoc, List.mem_append] at hc
    rcases hc with hc | hc
    · refine hdelimited.authority c ?_
      rw [authority, behind, List.append_nil]
      exact hc
    · exact (of_mem_signed hdigits hc).1
  have hsame := (authority_eq hy.delimited hprinted htext).trans hauthority
  have havoids := avoids_at
  rw [Bool.and_eq_true] at havoids
  have hsplit := userinfoText_inj (fun w hw => notMem_of_avoids havoids.2 (hy.userinfo w hw))
    (fun w hw => notMem_of_avoids havoids.2 (hportless.userinfo w hw))
    (notMem_of_avoids havoids.1 (enacts_hostPort hy.host hy.port).mem_lang) ?_ hsame
  · exact host_sign_ne hy.host (fun w hw => mem_lang_star_sym.mp (hy.port w hw)) (numeral_ne_nil 10 _)
      hdigits hsplit
  · intro hmem
    rcases List.mem_append.mp hmem with hmem | hmem
    · have hhost := (enacts_hostPort h.host (o := none) fun w hw =>
        absurd hw (Option.not_mem_none w)).mem_lang
      rw [behind, List.append_nil] at hhost
      exact notMem_of_avoids havoids.1 hhost hmem
    · exact (of_mem_signed hdigits hmem).2 rfl

end

end Parts

/-- The condition on the user information, for what is saved of it. -/
theorem digitBehindColon_saved {w : List UInt8} : digitBehindColon (savedUserinfo w) = false ↔
    digitBehindColon w = false ∨ digitBehindColon (behindColon w) = false := by
  rw [savedUserinfo]
  cases h : digitBehindColon w with
  | true => rw [cond_true, or_iff_right Bool.noConfusion]
  | false => exact iff_of_true h (.inl rfl)

/-- An accepted URI with a scheme and an authority is read back from what is printed exactly when its
port is not negative and the user information that is saved has no digit behind its first colon. -/
theorem readBack_iff (s : List UInt8) (u : Uri) (hs : HasAuthority s)
    (h : Uri.create s = .ok (some u)) :
    (∃ x : Parts, x.Grammatical ∧ x.text = s) ∧
      ∀ x : Parts, x.Grammatical → x.text = s → (u.ReadBack ↔ x.Printable) := by
  refine ⟨exists_parts h hs, ?_⟩
  rintro x hx rfl
  rw [Parts.create_text hx] at h
  obtain rfl : x.uri = u := Option.some.inj (Except.ok.inj h)
  have hport : 0 ≤ x.uri.port ↔ ∀ w ∈ x.port, 0 ≤ atoi w := by
    show 0 ≤ (x.port.map atoi).getD 0 ↔ _
    cases x.port <;> simp
  have huserinfo : digitBehindColon x.uri.userinfo = false ↔ ∀ w ∈ x.userinfo,
      digitBehindColon w = false ∨ digitBehindColon (behindColon w) = false := by
    show digitBehindColon ((x.userinfo.map savedUserinfo).getD []) = false ↔ _
    cases x.userinfo with
    | none => exact iff_of_true rfl fun _ hw => nomatch hw
    | some w => simp [digitBehindColon_saved]
  by_cases hneg : x.uri.port < 0
  · exact iff_of_false (Parts.not_readBack_of_neg hx hneg) fun hp =>
      absurd (hport.mpr hp.port) (not_le.mpr hneg)
  · rw [Parts.readBack_iff_userinfo hx (not_lt.mp hneg), huserinfo]
    exact ⟨fun hui => ⟨hui, hport.mp (not_lt.mp hneg)⟩, fun hp => hp.userinfo⟩

theorem readBack_sample : Parts.sample.uri.ReadBack := by
  have hsample : Parts.sample.Grammatical :=
    Parts.rfc_sample.grammatical (mem_lang_of_live (by decide +kernel))
  have hiff := (readBack_iff Parts.sample.text Parts.sample.uri
    ⟨_, Parts.rfc_sample.scheme, _, rfl⟩ (Parts.create_text hsample)).2 Parts.sample hsample rfl
  refine hiff.mpr ⟨?_, ?_⟩
  · rintro w ⟨⟩
    exact .inl (by decide)
  · rintro w ⟨⟩
    decide +kernel

/-- The user information is cut behind a colon a second time, and a port that is too large for an
`int` is printed with a sign. -/
theorem printed_not_read_back :
    (∃ u, Uri.create (text "http://a:1:2@h/") = .ok (some u) ∧ ¬ u.ReadBack) ∧
      ∃ u, Uri.create (text "http://h:4294967295/") = .ok (some u) ∧ ¬ u.ReadBack := by
  refine ⟨⟨⟨text "http", text "1:2", text "h", text "/", [], [], 0⟩, by decide +kernel, ?_⟩,
    ⟨⟨text "http", [], text "h", text "/", [], [], -1⟩, by decide +kernel, ?_⟩⟩
  · rintro ⟨u, hcreate, -, huserinfo, -⟩
    have hcut : (Uri.create (text "http://1:2@h/")).map (Option.map Uri.userinfo) =
        .ok (some (text "2")) := by
      decide +kernel
    have hprinted : Uri.toString ⟨text "http", text "1:2", text "h", text "/", [], [], 0⟩ =
        text "http://1:2@h/" := by
      decide +kernel
    rw [← hprinted, hcreate] at hcut
    have hcut : u.userinfo = text "2" := Option.some.inj (Except.ok.inj hcut)
    rw [hcut] at huserinfo
    exact absurd huserinfo (by decide)
  · rintro ⟨u, hcreate, -⟩
    have hnull : Uri.create (Uri.toString ⟨text "http", [], text "h", text "/", [], [], -1⟩) =
        .ok none := by
      decide +kernel
    rw [hnull] at hcreate
    cases hcreate

end Sylar
