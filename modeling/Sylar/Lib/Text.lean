import Mathlib

/-!
# `Lib.Text`: byte strings and the numbers written in them

Character classes, decimal and hexadecimal numerals, and the C functions that read them back:
`strtol`, which saturates at the limits of a word of 64 bits, and `atoi`, which is `strtol`
in base 10 cut to 32 bits. `memchr` finds a byte, and a C string ends before its first zero byte.
-/

set_option autoImplicit false

namespace Lib

/-- The bytes of a string of ASCII characters. -/
def text (s : String) : List UInt8 := s.toList.map fun c => c.toNat.toUInt8

/-- The byte is one of those of the string. -/
def oneOf (s : String) (c : UInt8) : Bool := (text s).contains c

/-- The byte lies between two bytes. -/
def between (lo hi : UInt8) (c : UInt8) : Bool := decide (lo ≤ c) && decide (c ≤ hi)

def isDigit : UInt8 → Bool := between 48 57

def isUpper : UInt8 → Bool := between 65 90

def isLower : UInt8 → Bool := between 97 122

def isAlpha (c : UInt8) : Bool := isUpper c || isLower c

def isXdigit (c : UInt8) : Bool := isDigit c || between 65 70 c || between 97 102 c

/-- Blank, tab, line feed, vertical tab, form feed, carriage return. -/
def isSpace (c : UInt8) : Bool := c == 32 || between 9 13 c

def toLower (c : UInt8) : UInt8 := bif isUpper c then c + 32 else c

/-! ### Separators -/

section
variable {α : Type} {z : α} {u v x y : List α}

/-- A word is cut at its first separator in one way only. -/
theorem append_cons_inj_left (hu : z ∉ u) (hv : z ∉ v) (h : u ++ z :: x = v ++ z :: y) :
    u = v ∧ x = y := by
  induction u generalizing v with
  | nil =>
      cases v with
      | nil => exact ⟨rfl, List.tail_eq_of_cons_eq h⟩
      | cons d v =>
          obtain ⟨rfl, -⟩ := List.cons.inj h
          exact absurd (List.mem_cons_self ..) hv
  | cons c u ih =>
      cases v with
      | nil =>
          obtain ⟨rfl, -⟩ := List.cons.inj h
          exact absurd (List.mem_cons_self ..) hu
      | cons d v =>
          obtain ⟨rfl, htail⟩ := List.cons.inj h
          rw [List.mem_cons, not_or] at hu hv
          obtain ⟨rfl, rfl⟩ := ih hu.2 hv.2 htail
          exact ⟨rfl, rfl⟩

/-- A word without separators does not reach beyond the first one. -/
theorem prefix_append_cons_iff (hu : z ∉ u) : u <+: v ++ z :: x ↔ u <+: v := by
  refine ⟨fun h => ?_, fun h => h.trans (List.prefix_append ..)⟩
  have hz : v ++ [z] <+: v ++ z :: x := ⟨x, by rw [List.append_assoc, List.singleton_append]⟩
  rcases List.prefix_or_prefix_of_prefix h hz with hle | hge
  · rcases List.prefix_concat_iff.mp hle with rfl | hle
    · exact absurd (List.mem_append_right _ (List.mem_singleton_self z)) hu
    · exact hle
  · exact absurd (hge.subset (List.mem_append_right _ (List.mem_singleton_self z))) hu

end

/-! ### Searching, and the end of a C string -/

/-- `memchr(s + start, c, len)`, as an index into `s`. -/
def memchr (s : List UInt8) (start : Nat) (c : UInt8) (len : Nat) : Option Nat :=
  (((s.drop start).take len).findIdx? (· == c)).map (start + ·)

/-- The C string at the first byte of `s`. -/
def cString (s : List UInt8) : List UInt8 := s.takeWhile (· != 0)

section
variable {s v w : List UInt8} {c : UInt8}

theorem memchr_of_not_mem {start : Nat} (h : c ∉ s.drop start) (len : Nat) :
    memchr s start c len = none := by
  rw [memchr, Option.map_eq_none_iff, List.findIdx?_eq_none_iff]
  intro d hd
  rw [beq_eq_false_iff_ne]
  rintro rfl
  exact h (List.mem_of_mem_take hd)

/-- The byte is found at its first place. -/
theorem memchr_append (u : List UInt8) (h : c ∉ v) {len : Nat} (hlen : v.length < len) :
    memchr (u ++ (v ++ c :: w)) u.length c len = some (u.length + v.length) := by
  obtain ⟨n, rfl⟩ := Nat.exists_eq_add_of_lt hlen
  have hnone : v.findIdx? (· == c) = none := by
    rw [List.findIdx?_eq_none_iff]
    intro d hd
    rw [beq_eq_false_iff_ne]
    rintro rfl
    exact h hd
  rw [memchr, List.drop_left, Nat.add_assoc, List.take_length_add_append, List.take_succ_cons,
    List.findIdx?_append, hnone, List.findIdx?_cons, beq_self_eq_true, if_pos rfl]
  show some (u.length + (0 + v.length)) = some (u.length + v.length)
  rw [Nat.zero_add]

theorem cString_eq_self_iff : cString s = s ↔ 0 ∉ s := by
  rw [cString, List.takeWhile_eq_self_iff]
  constructor
  · intro h hmem
    exact absurd (h 0 hmem) (by decide)
  · intro h d hd
    rw [bne_iff_ne]
    rintro rfl
    exact h hd

theorem zero_not_mem_cString (s : List UInt8) : 0 ∉ cString s := fun h =>
  absurd (List.mem_takeWhile_imp h) (by decide)

theorem length_cString_le (s : List UInt8) : (cString s).length ≤ s.length :=
  (List.takeWhile_sublist _).length_le

end

/-! ### Numerals -/

/-- The value of a digit in any base up to sixteen. -/
def digitVal (c : UInt8) : Nat :=
  bif isDigit c then c.toNat - 48
  else bif isUpper c then c.toNat - 55
  else c.toNat - 87

/-- The digit of a value below sixteen. -/
def digitChar (d : Nat) : UInt8 := UInt8.ofNat (bif d < 10 then 48 + d else 87 + d)

/-- The numeral of `n` in the base `b`, without leading zeros. -/
def numeral (b n : Nat) : List UInt8 :=
  match Nat.digits b n with
  | [] => [48]
  | ds => ds.reverse.map digitChar

/-- The number that a list of digits is, the most significant digit first. -/
def ofNumeral (b : Nat) (ds : List UInt8) : Nat := ds.foldl (fun n c => b * n + digitVal c) 0

/-- The byte is a digit of base 10, or of base 16. -/
def isDigitOf (b : Nat) (c : UInt8) : Bool := bif b == 16 then isXdigit c else isDigit c

/-- An integer cut to the range of a signed word of 64 bits. -/
def saturate (x : Int) : Int := max (-(2 ^ 63)) (min x (2 ^ 63 - 1))

/-- An integer cut to its low 32 bits, as a signed word. -/
def toInt32 (x : Int) : Int := x.bmod (2 ^ 32)

theorem toInt32_of_lt {x : Int} (h : 0 ≤ x) (h' : x < 2 ^ 31) : toInt32 x = x :=
  Int.bmod_eq_of_le (by omega) (by omega)

/-- A value of a signed word of 32 bits. -/
structure IsInt (n : Int) : Prop where
  low : -2147483648 ≤ n
  high : n < 2147483648

theorem isInt_toInt32 (n : Int) : IsInt (toInt32 n) := by
  have hlow := Int.le_bmod (x := n) (m := 2 ^ 32) (by decide)
  have hhigh := Int.bmod_lt (x := n) (m := 2 ^ 32) (by decide)
  unfold toInt32
  exact ⟨by omega, by omega⟩

theorem toInt32_of_isInt {c : Int} (h : IsInt c) : toInt32 c = c := by
  obtain ⟨hlow, hhigh⟩ := h
  unfold toInt32
  exact Int.bmod_eq_of_le (by omega) (by omega)

/-- An integer cut to its low 64 bits, as a signed word. -/
def toInt64 (x : Int) : Int := x.bmod (2 ^ 64)

theorem toInt64_of_lt {x : Int} (h : -(2 ^ 63) ≤ x) (h' : x < 2 ^ 63) : toInt64 x = x :=
  Int.bmod_eq_of_le (by omega) (by omega)

/-- `strtol` in base 10 or 16: blanks, a sign, in base 16 a `0x`, and the digits that follow. -/
def strtol (b : Nat) (s : List UInt8) : Int :=
  let s := s.dropWhile isSpace
  let neg := s.head? == some 45
  let s := bif neg || s.head? == some 43 then s.tail else s
  let s := bif b == 16 && (s.take 2 == text "0x" || s.take 2 == text "0X") &&
      ((s.drop 2).head?.map isXdigit).getD false then s.drop 2 else s
  let n : Int := ofNumeral b (s.takeWhile (isDigitOf b))
  saturate (bif neg then -n else n)

def atoi (s : List UInt8) : Int := toInt32 (strtol 10 s)

example : strtol 16 (text "1aF;x") = 431 := by decide

example : atoi (text " 4294967295/") = -1 := by decide

/-! ### Reading a numeral back -/

section
variable {b n d : Nat} {c : UInt8} {ds x : List UInt8}

theorem digitVal_digitChar (hd : d < 16) : digitVal (digitChar d) = d := by
  revert d
  decide

theorem isDigitOf_digitChar (hb : b = 10 ∨ b = 16) (hd : d < b) :
    isDigitOf b (digitChar d) = true := by
  rcases hb with rfl | rfl
  · revert d
    decide
  · revert d
    decide

theorem numeral_ne_nil (b n : Nat) : numeral b n ≠ [] := by
  rw [numeral]
  split
  · exact List.cons_ne_nil _ _
  · next h => simpa using h

theorem ofNumeral_append : ofNumeral b (ds ++ [c]) = b * ofNumeral b ds + digitVal c := by
  rw [ofNumeral, List.foldl_append]
  rfl

theorem ofNumeral_reverse {l : List Nat} (hl : ∀ d ∈ l, d < 16) :
    ofNumeral b (l.reverse.map digitChar) = Nat.ofDigits b l := by
  induction l with
  | nil => rfl
  | cons d l ih =>
      rw [List.forall_mem_cons] at hl
      rw [List.reverse_cons, List.map_append, List.map_singleton, ofNumeral_append, ih hl.2,
        digitVal_digitChar hl.1, Nat.ofDigits_cons, Nat.add_comm]

theorem ofNumeral_numeral (hb : 1 < b) (hb' : b ≤ 16) : ofNumeral b (numeral b n) = n := by
  have hdigits : ∀ d ∈ Nat.digits b n, d < 16 :=
    fun d hd => (Nat.digits_lt_base hb hd).trans_le hb'
  rw [numeral]
  split
  · next h =>
      rw [Nat.digits_eq_nil_iff_eq_zero.mp h]
      rfl
  · rw [ofNumeral_reverse hdigits, Nat.ofDigits_digits]

theorem length_numeral_le {k : Nat} (hb : 1 < b) (hk : 0 < k) (hn : n < b ^ k) :
    (numeral b n).length ≤ k := by
  rw [numeral]
  split
  · exact hk
  · rw [List.length_map, List.length_reverse]
    exact (Nat.digits_length_le_iff hb n).mpr hn

/-- A numeral with a leading zero is that of 0. -/
theorem length_numeral_of_head? (hb : 1 < b) (hb' : b ≤ 16) (h : (numeral b n).head? = some 48) :
    (numeral b n).length = 1 := by
  revert h
  rw [numeral]
  split
  · exact fun _ => rfl
  · next hne =>
    intro h
    -- the last of the digits is not 0, and 48 is the character of 0 only
    have hn : n ≠ 0 := fun hzero => hne (Nat.digits_eq_nil_iff_eq_zero.mpr hzero)
    have hlast := List.getLast?_eq_getLast_of_ne_nil hne
    rw [List.head?_map, List.head?_reverse, hlast] at h
    have hdigit := (Nat.digits_lt_base hb (List.getLast_mem hne)).trans_le hb'
    have hzero : (Nat.digits b n).getLast hne = 0 := by
      have hval := congrArg digitVal (Option.some.inj h)
      rwa [digitVal_digitChar hdigit] at hval
    exact absurd hzero (Nat.getLast_digit_ne_zero b hn)

theorem isDigitOf_of_mem_numeral (hb : b = 10 ∨ b = 16) (hc : c ∈ numeral b n) :
    isDigitOf b c = true := by
  have hb' : 1 < b := by omega
  rw [numeral] at hc
  split at hc
  · rw [List.mem_singleton.mp hc]
    exact isDigitOf_digitChar hb (d := 0) (by omega)
  · obtain ⟨d, hd, rfl⟩ := List.mem_map.mp hc
    exact isDigitOf_digitChar hb (Nat.digits_lt_base hb' (List.mem_reverse.mp hd))

/-- No digit is a blank, a sign or an `x`. -/
theorem isXdigit_of_isDigitOf (h : isDigitOf b c = true) : isXdigit c = true := by
  rw [isDigitOf] at h
  cases hb : b == 16 with
  | true => rwa [hb] at h
  | false =>
      rw [hb, cond_false] at h
      rw [isXdigit, h]
      rfl

theorem of_isXdigit (h : isXdigit c = true) :
    isSpace c = false ∧ c ≠ 45 ∧ c ≠ 43 ∧ c ≠ 120 ∧ c ≠ 88 := by
  revert c
  decide +kernel

/-- `strtol` stops behind the digits. -/
theorem strtol_digits (hds : ds ≠ []) (hdigits : ∀ c ∈ ds, isDigitOf b c = true)
    (hx : ∀ c ∈ x.head?, isDigitOf b c = false ∧ c ≠ 120 ∧ c ≠ 88) :
    strtol b (ds ++ x) = saturate (ofNumeral b ds) := by
  obtain ⟨c, ds, rfl⟩ := List.exists_cons_of_ne_nil hds
  obtain ⟨hspace, hminus, hplus, -⟩ :=
    of_isXdigit (isXdigit_of_isDigitOf (hdigits c (List.mem_cons_self ..)))
  have hsecond : ∀ d ∈ (ds ++ x).head?, d ≠ 120 ∧ d ≠ 88 := by
    intro d hd
    cases ds with
    | nil => exact (hx d hd).2
    | cons e ds =>
        obtain rfl := Option.some.inj hd
        exact (of_isXdigit (isXdigit_of_isDigitOf
          (hdigits e (List.mem_cons_of_mem _ (List.mem_cons_self ..))))).2.2.2
  have hzero :
      ((c :: (ds ++ x)).take 2 == text "0x" || (c :: (ds ++ x)).take 2 == text "0X") = false := by
    cases hy : ds ++ x with
    | nil => 
        show ([c] == [48, 120] || [c] == [48, 88]) = false
        simp
    | cons d y =>
        rw [hy] at hsecond
        have := hsecond d rfl
        show ([c, d] == [48, 120] || [c, d] == [48, 88]) = false
        simp [this]
  have htake : (c :: (ds ++ x)).takeWhile (isDigitOf b) = c :: ds := by
    rw [← List.cons_append, List.takeWhile_append_of_pos hdigits]
    cases x with
    | nil => simp
    | cons d x => 
      rw [List.takeWhile_cons_of_neg, List.append_nil]
      rw [(hx d rfl).1]
      exact Bool.false_ne_true
  have hneg : (some c == some 45) = false := beq_false_of_ne (mt Option.some.inj hminus)
  have hpos : (some c == some 43) = false := beq_false_of_ne (mt Option.some.inj hplus)
  rw [List.cons_append, strtol,
    List.dropWhile_cons_of_neg (by rw [hspace]; exact Bool.false_ne_true)]
  simp only [List.head?_cons, hneg, hpos, hzero, htake, Bool.or_self, Bool.and_false,
    Bool.false_and, cond_false]

theorem saturate_of_lt {n : Int} (h : 0 ≤ n) (h' : n < 2 ^ 63) : saturate n = n := by
  rw [saturate, min_eq_left (by omega), max_eq_right (by omega)]

end

end Lib
