import Mathlib.Algebra.Group.Nat.Defs
import Mathlib.Data.Nat.Log
import StateHistory.Number.Binary64

/-! # Numbers that are at least one

The double-precision numbers from one to the infinity are those whose bits, read as a word, lie between the word of
one and the word of the infinity (`Binary64.AtLeastOne`). Rounding a quotient that is at least one comes to such a
number, and so does the product of two of them. The integer part of such a number is positive. -/

namespace StateHistory.Binary64

variable {x y : Binary64}

/-- A number that is at least one, or the positive infinity. -/
structure AtLeastOne (x : Binary64) : Prop where
  ge : 0x3ff0000000000000 ≤ x.bits.toNat
  le : x.bits.toNat ≤ 0x7ff0000000000000

theorem toNat_bits_ofWord {word : Nat} (h : word < 0x10000000000000000) :
    (ofWord false word).bits.toNat = word := by
  simp [ofWord]
  omega

theorem atLeastOne_infinity : (infinity false).AtLeastOne := by
  constructor <;> decide

/-! ### Rounding -/

theorem div_le_roundHalfEven (num den : Nat) : num / den ≤ roundHalfEven num den := by
  unfold roundHalfEven
  dsimp only
  split
  · exact Nat.le_refl _
  · split <;> omega

theorem binaryExponent_nonneg {num den : Nat} (h : den ≤ num) : 0 ≤ binaryExponent num den := by
  have hlog : den.log2 ≤ num.log2 := by
    rw [Nat.log2_eq_log_two, Nat.log2_eq_log_two]
    exact Nat.log_mono_right h
  unfold binaryExponent
  dsimp only
  split
  · omega
  · rename_i hlt
    by_cases heq : num.log2 = den.log2
    · simp [scale, heq] at hlt
      omega
    · omega

theorem atLeastOne_ofRatio {num den : Nat} (hden : 0 < den) (h : den ≤ num) : (ofRatio false num den).AtLeastOne := by
  have hexponent := binaryExponent_nonneg h
  unfold ofRatio
  rw [if_neg (by omega)]
  dsimp only
  split
  · rename_i hlt
    have hword : 0x3ff0000000000000 ≤ (max (binaryExponent num den - 52) (-1074) + 1074).toNat * 0x10000000000000 +
        roundHalfEven (scale num den (-max (binaryExponent num den - 52) (-1074))).1
          (scale num den (-max (binaryExponent num den - 52) (-1074))).2 := by
      by_cases hzero : binaryExponent num den = 0
      · have hshift : scale num den 52 = (num * 2 ^ 52, den) := rfl
        have hmantissa : 2 ^ 52 ≤ num * 2 ^ 52 / den := by
          rw [Nat.le_div_iff_mul_le hden, Nat.mul_comm]
          exact Nat.mul_le_mul_right _ h
        have hround := Nat.le_trans hmantissa (div_le_roundHalfEven (num * 2 ^ 52) den)
        rw [hzero, show -max ((0 : Int) - 52) (-1074) = 52 from rfl, hshift]
        change _ ≤ 1022 * 0x10000000000000 + roundHalfEven (num * 2 ^ 52) den
        omega
      · omega
    constructor
    case ge =>
      rw [toNat_bits_ofWord (by omega)]
      exact hword
    case le =>
      rw [toNat_bits_ofWord (by omega)]
      omega
  · exact atLeastOne_infinity

theorem atLeastOne_ofNat {n : Nat} (h : 0 < n) : (ofNat n).AtLeastOne := atLeastOne_ofRatio Nat.one_pos h

/-- The quotient that `m · 2 ^ e` is taken as is at least one if `m` makes up for the exponent. -/
theorem le_scale {m : Nat} {e : Int} (h : 2 ^ (-e).toNat ≤ m) :
    0 < (scale m 1 e).2 ∧ (scale m 1 e).2 ≤ (scale m 1 e).1 := by
  unfold scale
  split
  · rename_i he
    rw [Int.toNat_of_nonpos (by omega)] at h
    exact ⟨Nat.one_pos, Nat.mul_pos (by omega) (Nat.pow_pos (by decide))⟩
  · exact ⟨Nat.mul_pos Nat.one_pos (Nat.pow_pos (by decide)), by rw [Nat.one_mul]; exact h⟩

theorem atLeastOne_ofScaled {m : Nat} {e : Int} (h : 2 ^ (-e).toNat ≤ m) : (ofScaled false m e).AtLeastOne :=
  atLeastOne_ofRatio (le_scale h).1 (le_scale h).2

/-! ### Arithmetic -/

/-- A number that is at least one is the positive infinity, or has a mantissa and an exponent to match. -/
theorem AtLeastOne.view_cases (h : x.AtLeastOne) : x.view = .infinite false ∨
    ∃ m e, x.view = .finite false m e ∧ 2 ^ 52 ≤ m ∧ -52 ≤ e := by
  obtain ⟨hge, hle⟩ := h
  have hpositive : decide (0x8000000000000000 ≤ x.bits.toNat) = false := by simp; omega
  have hbiased : 1023 ≤ x.bits.toNat / 0x10000000000000 % 2048 := by omega
  unfold view
  dsimp only
  rw [hpositive]
  split
  · rename_i hspecial
    have hfraction : x.bits.toNat % 0x10000000000000 = 0 := by omega
    rw [if_pos hfraction]
    exact .inl rfl
  · rw [if_neg (by omega)]
    exact .inr ⟨_, _, rfl, by omega, by omega⟩

theorem AtLeastOne.mul (hx : x.AtLeastOne) (hy : y.AtLeastOne) : (x.mul y).AtLeastOne := by
  rw [Binary64.mul]
  rcases hx.view_cases with hx | ⟨m, e, hx, hm, he⟩ <;> rcases hy.view_cases with hy | ⟨n, e', hy, hn, he'⟩ <;>
    rw [hx, hy]
  · exact atLeastOne_infinity
  · dsimp only
    rw [if_neg (by omega)]
    exact atLeastOne_infinity
  · dsimp only
    rw [if_neg (by omega)]
    exact atLeastOne_infinity
  · refine atLeastOne_ofScaled ?_
    calc 2 ^ (-(e + e')).toNat ≤ 2 ^ (52 + 52) := Nat.pow_le_pow_right (by decide) (by omega)
      _ = 2 ^ 52 * 2 ^ 52 := Nat.pow_add 2 52 52
      _ ≤ m * n := Nat.mul_le_mul hm hn

theorem AtLeastOne.truncate_pos (h : x.AtLeastOne) : 0 < x.truncate := by
  rw [truncate]
  rcases h.view_cases with hview | ⟨m, e, hview, hm, he⟩ <;> rw [hview]
  · decide
  · have hpow : 2 ^ (-e).toNat ≤ m := Nat.le_trans (Nat.pow_le_pow_right (by decide) (by omega)) hm
    have hquotient := Nat.div_pos (le_scale hpow).2 (le_scale hpow).1
    exact Nat.lt_min.mpr ⟨hquotient, by decide⟩

theorem atLeastOne_of_not_lt (hnumber : x.isNaN = false) (h : x.lt (ofNat 1) = false) : x.AtLeastOne := by
  have hrank : (0x3ff0000000000000 : Int) ≤ x.rank := by
    have hone : (ofNat 1).isNaN = false ∧ (ofNat 1).rank = 0x3ff0000000000000 := by decide
    rw [lt, hnumber, hone.1, hone.2] at h
    simpa using h
  have hword : 0x3ff0000000000000 ≤ x.bits.toNat ∧ x.bits.toNat < 0x8000000000000000 := by
    unfold rank at hrank
    dsimp only at hrank
    split at hrank <;> omega
  refine ⟨hword.1, ?_⟩
  by_contra habove
  have hnan : x.view = .nan := by
    unfold view
    dsimp only
    rw [if_pos (by omega), if_neg (by omega)]
  rw [isNaN, hnan] at hnumber
  cases hnumber

end StateHistory.Binary64
