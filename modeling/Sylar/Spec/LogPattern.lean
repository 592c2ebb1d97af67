import Sylar.Spec.Log

/-!
# `Sylar.Spec.LogPattern`: what a log pattern says

A pattern is a list of elements: characters, `%%` for a percent sign, and directives such as `%m`
and `%d{%H:%M}`. `Element.WellFormed` are the lists whose text can be read in one way only.
`Element.parts` is what such a pattern says, and `Parses` compares it with what
`LogFormatter::init` makes of the text.

`init` reads a percent sign in front of another one as itself, and goes on with the second one. So
the patterns it takes without an error are the texts of other lists, `Element.Read`.
-/

set_option autoImplicit false

namespace Sylar.Log

open Lib

/-- An element of a pattern. A directive is its name, and the text between the braces behind it. -/
inductive Element where
  | literal (c : UInt8)
  | percent
  | directive (str : Text) (fmt : Option Text)
  deriving DecidableEq, Repr

namespace Element

/-- The text of a directive behind its percent sign. -/
def body (str : Text) : Option Text → Text
  | none => str
  | some fmt => str ++ 123 :: (fmt ++ [125])

/-- The text of a pattern. -/
def spell : List Element → Text
  | [] => []
  | .literal c :: es => c :: spell es
  | .percent :: es => 37 :: 37 :: spell es
  | .directive str fmt :: es => 37 :: (body str fmt ++ spell es)

/-- The condition on a directive. Its name has all the letters that follow the percent sign, and
with a brace behind them it has a format. -/
def Delimited (behind : Text) : Option Text → Prop
  | none => ∀ c, behind.head? = some c → isAlpha c = false ∧ c ≠ 123
  | some fmt => 125 ∉ fmt

/-- The elements are those that the text is read as. -/
def WellFormed : List Element → Prop
  | [] => True
  | .literal c :: es => c ≠ 37 ∧ WellFormed es
  | .percent :: es => WellFormed es
  | .directive str fmt :: es =>
    (str ≠ [] ∧ ∀ c ∈ str, isAlpha c = true) ∧ Delimited (spell es) fmt ∧ WellFormed es

/-- The entries of a pattern, where `nstr` is the plain text in front of it. Adjacent plain text is
one entry. -/
def parts : (nstr : Text) → List Element → List Part
  | nstr, [] => LogFormatter.flush nstr
  | nstr, .literal c :: es => parts (nstr ++ [c]) es
  | nstr, .percent :: es => parts (nstr ++ [37]) es
  | nstr, .directive str fmt :: es =>
    LogFormatter.flush nstr ++ .directive str (fmt.getD []) :: parts [] es

/-- There is a directive whose name is not known. -/
def Unknown (es : List Element) : Prop :=
  ∃ str fmt, .directive str fmt ∈ es ∧ ItemKind.find str = none

/-- There is no `%%`, and no closing brace directly behind a directive without a format. -/
def Tame : List Element → Prop
  | [] => True
  | .literal _ :: es => Tame es
  | .percent :: _ => False
  | .directive _ none :: es => (spell es).head? ≠ some 125 ∧ Tame es
  | .directive _ (some _) :: es => Tame es

/-! ### As `init` reads it -/

/-- The text of a pattern where a percent sign stands for itself. -/
def spellRead : List Element → Text
  | [] => []
  | .literal c :: es => c :: spellRead es
  | .percent :: es => 37 :: spellRead es
  | .directive str fmt :: es => 37 :: (body str fmt ++ spellRead es)

/-- The condition on a directive, as `init` reads it. -/
def DelimitedRead (behind : Text) : Option Text → Prop
  | none => ∀ c, behind.head? = some c → isAlpha c = false ∧ c ≠ 123 ∧ c ≠ 125
  | some fmt => 125 ∉ fmt

/-- The elements that `init` reads, when it finds no error: a percent sign is in front of another
one, and every directive is known. -/
def Read : List Element → Prop
  | [] => True
  | .literal c :: es => c ≠ 37 ∧ Read es
  | .percent :: es => (spellRead es).head? = some 37 ∧ Read es
  | .directive str fmt :: es =>
    (ItemKind.find str).isSome ∧ DelimitedRead (spellRead es) fmt ∧ Read es

/-- The pattern is the text of elements that `init` reads. -/
def Readable (pattern : Text) : Prop := ∃ es, Read es ∧ spellRead es = pattern

end Element

open Element

/-- The pattern is read as what it says, and it is in error exactly when it says nothing, or names a
directive that is not known. -/
structure Parses (pattern : Text) : Prop where
  wellFormed : ∀ es, WellFormed es → spell es = pattern →
    LogFormatter.items ⟨pattern⟩ = (parts [] es).map (fun p => (LogFormatter.toItem p).1) ∧
      (LogFormatter.isError ⟨pattern⟩ = true ↔ Unknown es)
  malformed : (∀ es, WellFormed es → spell es ≠ pattern) → LogFormatter.isError ⟨pattern⟩ = true

end Sylar.Log
