import Sylar.Spec.HttpRequestParser

/-!
# `Sylar.Proofs.Http.Slices`: texts between two positions of a buffer

The callbacks of the parsers get a text as a pointer into the buffer and a length. These are the
texts as lists, and what becomes of them when the buffer is part of a longer one.
-/

set_option autoImplicit false

namespace Sylar.Http

open Lib

variable {pre buf post v : List UInt8} {k n q : Nat}

theorem lenTo_eq (hk : k ≤ q) (hq : q < 2 ^ 64) : lenTo k q = q - k := by
  unfold lenTo
  rw [show q + 2 ^ 64 - k = (q - k) + 2 ^ 64 by omega, Nat.add_mod_right,
    Nat.mod_eq_of_lt (by omega)]

theorem slice_eq (h : k + n ≤ buf.length) : slice buf k n = .ok ((buf.drop k).take n) := if_pos h

/-- The bytes of the piece, seen in the whole. -/
theorem take_drop_whole (h : k + n ≤ buf.length) :
    ((pre ++ (buf ++ post)).drop (pre.length + k)).take n = (buf.drop k).take n := by
  rw [List.drop_length_add_append, List.drop_append_of_le_length (by omega),
    List.take_append_of_le_length (by rw [List.length_drop]; omega)]

theorem slice_whole (h : k + n ≤ buf.length) :
    slice (pre ++ (buf ++ post)) (pre.length + k) n = .ok ((buf.drop k).take n) := by
  rw [slice_eq (by simp only [List.length_append]; omega), take_drop_whole h]

theorem strncmpEq_congr {a a' b : List UInt8} (h : a.take n = a'.take n) :
    strncmpEq a b n = strncmpEq a' b n := by
  rw [strncmpEq, strncmpEq, h]

/-- A text that fits in the buffer is the same when more bytes follow. -/
theorem slice_append (h : slice buf k n = .ok v) : slice (buf ++ post) k n = .ok v := by
  by_cases hle : k + n ≤ buf.length
  · rw [slice_eq hle] at h
    rw [slice_eq (by rw [List.length_append]; omega), List.drop_append_of_le_length (by omega),
      List.take_append_of_le_length (by rw [List.length_drop]; omega), h]
  · rw [slice, if_neg hle] at h
    cases h

/-- The bytes behind the token `M` complete the name `M - SEARCH`, the one with blanks. -/
def CompletesSearch (t x : List UInt8) : Prop := t = text "M" ∧ text "- SEARCH" <+: x

/-- The lookup of a method looks at the text in front of the blank only. -/
theorem charsToHttpMethod_append {v x : List UInt8} (hv : (32 : UInt8) ∉ v)
    (hx : ¬ CompletesSearch v x) : charsToHttpMethod (v ++ 32 :: x) = charsToHttpMethod v := by
  have htable : ∀ e ∈ httpMethodMap,
      (32 : UInt8) ∉ e.2 ∨ e.2 = text "M" ++ 32 :: text "- SEARCH" := by
    decide
  rw [charsToHttpMethod, charsToHttpMethod]
  refine congrArg _ (List.find?_congr fun e he => ?_)
  rw [Bool.eq_iff_iff, List.isPrefixOf_iff_prefix, List.isPrefixOf_iff_prefix]
  rcases htable e he with hblank | hm
  · exact prefix_append_cons_iff hblank
  · rw [hm]
    refine iff_of_false ?_ fun hle => hv (hle.subset (by decide))
    rintro ⟨s, hs⟩
    rw [List.append_assoc, List.cons_append] at hs
    obtain ⟨rfl, rfl⟩ := append_cons_inj_left (u := text "M") (by decide) hv hs
    exact hx ⟨rfl, List.prefix_append ..⟩

end Sylar.Http
