import Mathlib

/-!
# `Lib.Bytes`: numbers as bytes

`leBytes n v` is the number `v` in `n` bytes, least significant byte first. `ofLE` reads such a
list back. The most significant byte first is the reverse of the same list, so a byte swap is a
list reversal between the two conversions.

The second part is the zigzag code on words of any width: a signed word of small magnitude
becomes an unsigned word of small value.
-/

set_option autoImplicit false

namespace Lib

/-! ### Little-endian bytes -/

/-- The number `v` in `n` bytes, least significant byte first. -/
def leBytes : Nat → Nat → List UInt8
  | 0, _ => []
  | n + 1, v => UInt8.ofNat v :: leBytes n (v / 256)

/-- The number that a list of bytes is, least significant byte first. -/
def ofLE : List UInt8 → Nat
  | [] => 0
  | b :: bs => b.toNat + 256 * ofLE bs

@[simp] theorem length_leBytes (n v : Nat) : (leBytes n v).length = n := by
  induction n generalizing v with
  | zero => rfl
  | succ n ih => rw [leBytes, List.length_cons, ih]

/-- The bytes hold the number up to its width. -/
theorem ofLE_leBytes (n v : Nat) : ofLE (leBytes n v) = v % 256 ^ n := by
  induction n generalizing v with
  | zero => rw [Nat.pow_zero, Nat.mod_one]; rfl
  | succ n ih =>
      rw [leBytes, ofLE, ih, Nat.pow_succ', Nat.mod_mul, UInt8.toNat_ofNat']

/-- A list of bytes is the bytes of its number. -/
theorem leBytes_ofLE (bs : List UInt8) : leBytes bs.length (ofLE bs) = bs := by
  induction bs with
  | nil => rfl
  | cons b bs ih =>
      have hb := b.toNat_lt
      have hdiv : (b.toNat + 256 * ofLE bs) / 256 = ofLE bs := by omega
      have hhead : UInt8.ofNat (b.toNat + 256 * ofLE bs) = b := by
        apply UInt8.toNat_inj.mp
        rw [UInt8.toNat_ofNat']
        omega
      rw [List.length_cons, ofLE, leBytes, hdiv, ih, hhead]

theorem ofLE_lt (bs : List UInt8) : ofLE bs < 256 ^ bs.length := by
  rw [← leBytes_ofLE bs, ofLE_leBytes, leBytes_ofLE]
  exact Nat.mod_lt _ (Nat.pow_pos (by decide))

/-- The bits of a number are those of its bytes. -/
theorem testBit_ofLE (bs : List UInt8) (i : Nat) :
    (ofLE bs).testBit i = (bs.getD (i / 8) 0).toNat.testBit (i % 8) := by
  induction bs generalizing i with
  | nil =>
      rw [ofLE, Nat.zero_testBit, List.getD_nil]
      exact (Nat.zero_testBit _).symm
  | cons b bs ih =>
      have hsplit : ofLE (b :: bs) = 2 ^ 8 * ofLE bs + b.toNat := by
        rw [ofLE]
        omega
      rw [hsplit, Nat.testBit_two_pow_mul_add (ofLE bs) b.toNat_lt i]
      by_cases hi : i < 8
      · rw [if_pos hi, Nat.div_eq_of_lt hi, Nat.mod_eq_of_lt hi]
        rfl
      · have hdiv : i / 8 = (i - 8) / 8 + 1 := by omega
        have hmod : i % 8 = (i - 8) % 8 := by omega
        rw [if_neg hi, ih, hdiv, hmod, List.getD_cons_succ]

theorem getD_leBytes (n v k : Nat) (hk : k < n) :
    (leBytes n v).getD k 0 = UInt8.ofNat (v / 256 ^ k) := by
  induction n generalizing v k with
  | zero => exact absurd hk (Nat.not_lt_zero k)
  | succ n ih =>
      cases k with
      | zero => rw [leBytes, List.getD_cons_zero, Nat.pow_zero, Nat.div_one]
      | succ k =>
          rw [leBytes, List.getD_cons_succ, ih _ k (Nat.lt_of_succ_lt_succ hk), Nat.div_div_eq_div_mul,
            Nat.pow_succ']

/-! ### The zigzag code -/

section
variable {w : Nat}

/-- The zigzag code of a two's-complement word. -/
def zigzag (x : BitVec w) : BitVec w := if x.msb then -x * 2#w - 1#w else x * 2#w

/-- The word of a zigzag code. -/
def unzigzag (y : BitVec w) : BitVec w := (y >>> (1 : Nat)) ^^^ (-(y &&& 1#w))

/-- The low bit of a word, as a word. -/
theorem and_one_eq (y : BitVec w) : y &&& 1#w = BitVec.ofNat w (y.toNat % 2) := by
  apply BitVec.eq_of_toNat_eq
  rcases Nat.eq_zero_or_pos w with rfl | hw
  · exact congrArg BitVec.toNat (Subsingleton.elim _ _)
  · have hpow : 2 ≤ 2 ^ w := Nat.pow_le_pow_right (by decide : 0 < 2) hw
    have hone : (1#w).toNat = 1 := Nat.mod_eq_of_lt (by omega)
    have hlow : y.toNat % 2 < 2 := Nat.mod_lt _ (by decide)
    rw [BitVec.toNat_and, hone, Nat.and_one_is_mod, BitVec.toNat_ofNat,
      Nat.mod_eq_of_lt (show y.toNat % 2 < 2 ^ w by omega)]

/-- The decoder on an even code halves it. -/
theorem unzigzag_even {y : BitVec w} (h : y.toNat % 2 = 0) : unzigzag y = y >>> (1 : Nat) := by
  rw [unzigzag, and_one_eq, h]
  simp

/-- The decoder on an odd code complements the half. -/
theorem unzigzag_odd {y : BitVec w} (h : y.toNat % 2 = 1) :
    unzigzag y = ~~~(y >>> (1 : Nat)) := by
  have hones : -(1#w) = BitVec.allOnes w := BitVec.neg_one_eq_allOnes
  rw [unzigzag, and_one_eq, h, hones, BitVec.xor_allOnes]

/-- The code of a nonnegative word is its double. -/
theorem toNat_double {x : BitVec w} (h : 2 * x.toNat < 2 ^ w) :
    (x * 2#w).toNat = 2 * x.toNat := by
  rw [BitVec.toNat_mul, BitVec.toNat_ofNat, Nat.mul_mod_mod, Nat.mul_comm, Nat.mod_eq_of_lt h]

/-- The code of a negative word is `2 |x| - 1`. At the least word `2 |x|` wraps to zero, and
the subtraction wraps back. -/
theorem toNat_zigzag_neg {x : BitVec w} (h : 2 ^ w ≤ 2 * x.toNat) :
    (-x * 2#w - 1#w).toNat = 2 * (2 ^ w - x.toNat) - 1 := by
  have hlt := x.isLt
  have hw : 0 < w := by
    rcases Nat.eq_zero_or_pos w with rfl | hw
    · rw [Nat.pow_zero] at h hlt
      omega
    · exact hw
  have hpow : 2 ≤ 2 ^ w := Nat.pow_le_pow_right (by decide : 0 < 2) hw
  have hneg : (-x).toNat = 2 ^ w - x.toNat := by
    rw [BitVec.toNat_neg, Nat.mod_eq_of_lt (by omega)]
  have hone : (1#w).toNat = 1 := Nat.mod_eq_of_lt (by omega)
  have htwo : (-x * 2#w).toNat = 2 * (2 ^ w - x.toNat) % 2 ^ w := by
    rw [BitVec.toNat_mul, BitVec.toNat_ofNat, Nat.mul_mod_mod, hneg, Nat.mul_comm]
  rw [BitVec.toNat_sub, hone, htwo]
  rcases Nat.eq_or_lt_of_le h with heq | hgt
  · have hwrap : 2 * (2 ^ w - x.toNat) = 2 ^ w := by omega
    rw [hwrap, Nat.mod_self, Nat.add_zero, Nat.mod_eq_of_lt (by omega)]
  · have hsum : 2 ^ w - 1 + 2 * (2 ^ w - x.toNat)
        = 2 * (2 ^ w - x.toNat) - 1 + 2 ^ w := by omega
    rw [Nat.mod_eq_of_lt (show 2 * (2 ^ w - x.toNat) < 2 ^ w by omega), hsum,
      Nat.add_mod_right, Nat.mod_eq_of_lt (by omega)]

/-- The code of `n` is `2 n`, and that of `-n` is `2 n - 1`. -/
theorem toNat_zigzag (x : BitVec w) :
    ((zigzag x).toNat : Int) = if x.toInt < 0 then -(2 * x.toInt) - 1 else 2 * x.toInt := by
  have hlt := x.isLt
  have hint := BitVec.toInt_eq_msb_cond x
  unfold zigzag
  by_cases hmsb : x.msb = true
  · have hge := BitVec.msb_eq_true_iff_two_mul_ge.mp hmsb
    rw [if_pos hmsb] at hint ⊢
    rw [toNat_zigzag_neg hge, hint, if_pos (by omega)]
    omega
  · have hsmall : 2 * x.toNat < 2 ^ w := by
      rw [BitVec.msb_eq_true_iff_two_mul_ge] at hmsb
      omega
    rw [if_neg hmsb] at hint ⊢
    rw [toNat_double hsmall, hint, if_neg (by omega)]
    omega

/-- Decoding a code gives the word back. -/
theorem unzigzag_zigzag (x : BitVec w) : unzigzag (zigzag x) = x := by
  have hlt := x.isLt
  apply BitVec.eq_of_toNat_eq
  unfold zigzag
  split
  · next hmsb =>
    -- The code is odd, and its half is the complement of `x`.
    have hge := BitVec.msb_eq_true_iff_two_mul_ge.mp hmsb
    have hcode := toNat_zigzag_neg hge
    rw [unzigzag_odd (by omega), BitVec.toNat_not, BitVec.toNat_ushiftRight, hcode,
      Nat.shiftRight_eq_div_pow]
    omega
  · next hmsb =>
    have hsmall : 2 * x.toNat < 2 ^ w := by
      rw [BitVec.msb_eq_true_iff_two_mul_ge] at hmsb
      omega
    have hcode := toNat_double hsmall
    rw [unzigzag_even (by omega), BitVec.toNat_ushiftRight, hcode, Nat.shiftRight_eq_div_pow]
    omega

/-- Every word is a code. -/
theorem zigzag_unzigzag (y : BitVec w) : zigzag (unzigzag y) = y := by
  have hlt := y.isLt
  apply BitVec.eq_of_toNat_eq
  -- an even code is the double of its half, and an odd one belongs to a negative word
  rcases Nat.mod_two_eq_zero_or_one y.toNat with heven | hodd
  · have hhalf : (y >>> (1 : Nat)).toNat = y.toNat / 2 := by
      rw [BitVec.toNat_ushiftRight, Nat.shiftRight_eq_div_pow, Nat.pow_one]
    have hmsb : ¬ (y >>> (1 : Nat)).msb = true := by
      rw [BitVec.msb_eq_true_iff_two_mul_ge]
      omega
    rw [unzigzag_even heven, zigzag, if_neg hmsb, toNat_double (by omega), hhalf]
    omega
  · have hhalf : (~~~(y >>> (1 : Nat))).toNat = 2 ^ w - 1 - y.toNat / 2 := by
      rw [BitVec.toNat_not, BitVec.toNat_ushiftRight, Nat.shiftRight_eq_div_pow, Nat.pow_one]
    have hge : 2 ^ w ≤ 2 * (~~~(y >>> (1 : Nat))).toNat := by omega
    have hmsb := BitVec.msb_eq_true_iff_two_mul_ge.mpr hge
    rw [unzigzag_odd hodd, zigzag, if_pos hmsb, toNat_zigzag_neg hge, hhalf]
    omega
end

end Lib
