import Sylar.Proofs.Http.Slices

/-!
# `Sylar.Proofs.Http.Methods`: the two lookups of a method

`StringToHttpMethod` compares the whole string with the names of the table. `CharsToHttpMethod`
gets a pointer into the buffer and takes the first name that the bytes there begin with, so that a
token that goes on behind a name is taken for the name. The two agree exactly on the tokens that
no name is a proper beginning of, apart from the one name of the table with blanks in it.
-/

set_option autoImplicit false

namespace Sylar.Http

open Lib

variable {t x : List UInt8}

/-! ### The table -/

/-- No name goes on behind another one. -/
theorem httpMethodMap_prefix_free : ∀ d ∈ httpMethodMap, ∀ e ∈ httpMethodMap,
    d.2 <+: e.2 → d = e := by
  simp only [← List.isPrefixOf_iff_prefix]
  decide

theorem takeWhile_token (ht : IsMethodToken t) : t.takeWhile (· != 0) = t := by
  rw [List.takeWhile_eq_self_iff]
  intro c hc
  have h := ht.chars c hc
  contrapose! h
  simp only [bne_iff_ne, ne_eq, not_not] at h
  rw [h]
  decide

theorem blank_notMem_token (ht : IsMethodToken t) : (32 : UInt8) ∉ t := by
  intro h
  exact absurd (ht.chars 32 h) (by decide)

theorem stringToHttpMethod_token (ht : IsMethodToken t) :
    stringToHttpMethod t = (httpMethodMap.find? fun e => e.2 == t).map Prod.fst := by
  rw [stringToHttpMethod, takeWhile_token ht]

/-! ### When the lookups agree -/

theorem charsToHttpMethod_search (hx : text "- SEARCH" <+: x) :
    charsToHttpMethod (text "M" ++ 32 :: x) = some .msearch := by
  obtain ⟨y, rfl⟩ := hx
  rfl

/-- A token that only a name itself is a beginning of is found by both lookups or by none. -/
theorem charsToHttpMethod_eq (h : ∀ e ∈ httpMethodMap, e.2 <+: t → e.2 = t) :
    charsToHttpMethod t = (httpMethodMap.find? fun e => e.2 == t).map Prod.fst := by
  refine congrArg _ (List.find?_congr fun e he => ?_)
  rw [Bool.eq_iff_iff, List.isPrefixOf_iff_prefix, beq_iff_eq]
  exact ⟨h e he, fun heq => heq ▸ List.prefix_rfl⟩

/-- Where the lookups agree, the name that the bytes begin with is the token. -/
theorem eq_of_charsToHttpMethod_eq
    (h : charsToHttpMethod t = (httpMethodMap.find? fun e => e.2 == t).map Prod.fst)
    {e : HttpMethod × List UInt8} (he : e ∈ httpMethodMap) (hle : e.2 <+: t) : e.2 = t := by
  rw [charsToHttpMethod] at h
  cases hd : httpMethodMap.find? fun e => e.2 == t with
  | none =>
      rw [hd, Option.map_none, Option.map_eq_none_iff, List.find?_eq_none] at h
      exact absurd (List.isPrefixOf_iff_prefix.mpr hle) (h e he)
  | some d =>
      -- the token is a name, and no other name begins it
      have hname := List.find?_some hd
      simp only [beq_iff_eq] at hname
      rw [← hname] at hle
      rw [httpMethodMap_prefix_free e he d (List.mem_of_find?_eq_some hd) hle, hname]

theorem matchesExactly_iff_lookups :
    MatchesExactly t x ↔ charsToHttpMethod (t ++ 32 :: x) = stringToHttpMethod t := by
  refine ⟨fun h => ?_, fun h p => by rw [onRequestMethod, h]⟩
  have hp := h (HttpRequestParser.new ⟨true, 0⟩)
  rw [onRequestMethod] at hp
  -- a new parser has no error, so that the two outcomes cannot be confused
  cases hc : charsToHttpMethod (t ++ 32 :: x) with
  | none =>
      cases hs : stringToHttpMethod t with
      | none => rfl
      | some n =>
          rw [hc, hs] at hp
          cases congrArg HttpRequestParser.error hp
  | some m =>
      rw [hc] at hp
      cases hs : stringToHttpMethod t with
      | none =>
          rw [hs] at hp
          cases congrArg HttpRequestParser.error hp
      | some n =>
          rw [hs] at hp
          exact congrArg (fun p => some p.data.method) hp

/-- A token is matched exactly if and only if no name of the table is a proper beginning of it and
it is not an `M` that the bytes behind it complete to `M - SEARCH`. -/
theorem matchesExactly_iff (ht : IsMethodToken t) :
    MatchesExactly t x ↔
      (∀ e ∈ httpMethodMap, e.2 <+: t → e.2 = t) ∧ ¬ CompletesSearch t x := by
  rw [matchesExactly_iff_lookups, stringToHttpMethod_token ht]
  by_cases hs : CompletesSearch t x
  · obtain ⟨rfl, hx⟩ := hs
    rw [charsToHttpMethod_search hx]
    exact iff_of_false (by decide) fun h => h.2 ⟨rfl, hx⟩
  · rw [charsToHttpMethod_append (blank_notMem_token ht) hs]
    exact ⟨fun h => ⟨fun e he => eq_of_charsToHttpMethod_eq h he, hs⟩,
      fun h => charsToHttpMethod_eq h.1⟩

theorem matchesExactly_put : IsMethodToken (text "PUT") ∧
    MatchesExactly (text "PUT") (text "/ HTTP/1.1") := by
  have ht : IsMethodToken (text "PUT") := ⟨by decide, by decide, by decide +kernel⟩
  refine ⟨ht, (matchesExactly_iff ht).mpr ⟨?_, fun h => absurd h.1 (by decide)⟩⟩
  simp only [← List.isPrefixOf_iff_prefix]
  decide

/-- `GETX` is not a method, and is read as `GET`. -/
theorem getx_read_as_get : IsMethodToken (text "GETX") ∧ stringToHttpMethod (text "GETX") = none ∧
    charsToHttpMethod (text "GETX" ++ 32 :: text "/ HTTP/1.1") = some .get ∧
    ¬ MatchesExactly (text "GETX") (text "/ HTTP/1.1") := by
  refine ⟨⟨by decide, by decide, by decide +kernel⟩, by decide, by decide, fun h => ?_⟩
  exact absurd (matchesExactly_iff_lookups.mp h) (by decide)

end Sylar.Http
