import DeclSchema.Number.Binary64
import Mathlib.Data.Int.Log
import Mathlib.Algebra.Order.Field.Power
import Mathlib.Data.Rat.Floor
import Mathlib.Tactic.FieldSimp
import Mathlib.Tactic.Linarith
import Mathlib.Tactic.Positivity
import Mathlib.Tactic.Ring

/-!
# Rounding

Rounding works on fractions of whole numbers. What it gives depends on the rational number
that a fraction stands for and not on the fraction (`ofQuotient?_congr`), since the power of
two below a fraction is the logarithm of the rational number. A fraction that is a value
is rounded to this value (`ofQuotient?_of_magnitude`).
-/

namespace DeclSchema.Binary64

theorem scaleByTwo_pos {den : Nat} (h : 0 < den) (num : Nat) (power : Int) :
    0 < (scaleByTwo num den power).2 := by
  unfold scaleByTwo
  split
  · exact h
  · exact Nat.mul_pos h (Nat.two_pow_pos _)

/-- Scaling a fraction multiplies it by the power of two. -/
theorem ratio_scaleByTwo (num den : Nat) (power : Int) :
    ((scaleByTwo num den power).1 : ℚ) / (scaleByTwo num den power).2 =
      (num : ℚ) / den * 2 ^ power := by
  unfold scaleByTwo
  split
  · next hpower =>
    obtain ⟨k, rfl⟩ := Int.eq_ofNat_of_zero_le hpower
    push_cast
    rw [Int.toNat_natCast, zpow_natCast]
    ring
  · next hpower =>
    obtain ⟨k, hk⟩ := Int.eq_ofNat_of_zero_le (a := -power) (by omega)
    have hpower : power = -(k : Int) := by omega
    subst hpower
    rw [Int.neg_neg, Int.toNat_natCast, zpow_neg, zpow_natCast]
    push_cast
    rw [div_mul_eq_div_div, div_eq_mul_inv]

/-- The greatest power of two that does not exceed a fraction is its logarithm. -/
theorem log2Quotient_eq {num den : Nat} (hnum : 0 < num) (hden : 0 < den) :
    log2Quotient num den = Int.log 2 ((num : ℚ) / den) := by
  have hr : (0 : ℚ) < (num : ℚ) / den := by positivity
  have hbounds : ∀ {n : Nat}, 0 < n →
      (2 : ℚ) ^ (n.log2 : Int) ≤ n ∧ (n : ℚ) < 2 ^ ((n.log2 : Int) + 1) := by
    intro n hn
    constructor
    · exact_mod_cast Nat.log2_self_le (Nat.pos_iff_ne_zero.mp hn)
    · exact_mod_cast Nat.lt_log2_self
  obtain ⟨hnumLow, hnumHigh⟩ := hbounds hnum
  obtain ⟨hdenLow, hdenHigh⟩ := hbounds hden
  set guess : Int := num.log2 - den.log2 with hguess
  have hd : (0 : ℚ) < den := by exact_mod_cast hden
  -- The logarithms of the parts miss the logarithm of the fraction by less than one.
  have hlow : (2 : ℚ) ^ (guess - 1) ≤ (num : ℚ) / den := by
    rw [le_div_iff₀ hd]
    calc (2 : ℚ) ^ (guess - 1) * den ≤ 2 ^ (guess - 1) * 2 ^ ((den.log2 : Int) + 1) :=
          mul_le_mul_of_nonneg_left hdenHigh.le (by positivity)
      _ = 2 ^ (num.log2 : Int) := by
          rw [← zpow_add₀ (by norm_num), hguess]
          congr 1
          ring
      _ ≤ num := hnumLow
  have hhigh : (num : ℚ) / den < 2 ^ (guess + 1) := by
    rw [div_lt_iff₀ hd]
    calc (num : ℚ) < 2 ^ ((num.log2 : Int) + 1) := hnumHigh
      _ = 2 ^ (guess + 1) * 2 ^ (den.log2 : Int) := by
          rw [← zpow_add₀ (by norm_num), hguess]
          congr 1
          ring
      _ ≤ 2 ^ (guess + 1) * den := mul_le_mul_of_nonneg_left hdenLow (by positivity)
  have hscaled := ratio_scaleByTwo num den (-guess)
  have hpos := scaleByTwo_pos hden num (-guess)
  have htest : (scaleByTwo num den (-guess)).2 ≤ (scaleByTwo num den (-guess)).1 ↔
      (2 : ℚ) ^ guess ≤ (num : ℚ) / den := by
    have hcast : (0 : ℚ) < ((scaleByTwo num den (-guess)).2 : ℚ) := by exact_mod_cast hpos
    have hpower : (0 : ℚ) < 2 ^ guess := by positivity
    rw [← Nat.cast_le (α := ℚ), ← one_le_div hcast, hscaled, zpow_neg, ← div_eq_mul_inv,
      one_le_div hpower]
  have hlogLow := (Int.zpow_le_iff_le_log (by norm_num : 1 < 2) hr).mp (by exact_mod_cast hlow)
  have hlogHigh := (Int.lt_zpow_iff_log_lt (by norm_num : 1 < 2) hr).mp (by exact_mod_cast hhigh)
  have hlog := Int.zpow_le_iff_le_log (x := guess) (by norm_num : 1 < 2) hr
  rw [log2Quotient]
  dsimp only
  rw [← hguess]
  split
  · next htrue =>
    have := hlog.mp (by exact_mod_cast htest.mp htrue)
    omega
  · next hfalse =>
    have : ¬ guess ≤ Int.log 2 ((num : ℚ) / den) := fun h =>
      hfalse (htest.mpr (by exact_mod_cast hlog.mpr h))
    omega

theorem roundHalfEven_mul_right {num den k : Nat} (hk : 0 < k) :
    roundHalfEven (num * k) (den * k) = roundHalfEven num den := by
  have htwice : 2 * (num % den * k) = 2 * (num % den) * k := (Nat.mul_assoc ..).symm
  have hlt : den * k < 2 * (num % den) * k ↔ den < 2 * (num % den) :=
    Nat.mul_lt_mul_right hk
  have heq : (2 * (num % den) * k == den * k) = (2 * (num % den) == den) := by
    rw [Bool.eq_iff_iff, beq_iff_eq, beq_iff_eq, Nat.mul_left_inj (Nat.pos_iff_ne_zero.mp hk)]
  simp only [roundHalfEven, Nat.mul_div_mul_right _ _ hk, Nat.mul_mod_mul_right, htwice, hlt, heq]

/-- Fractions of one number are rounded to one whole number. -/
theorem roundHalfEven_congr {num den num' den' : Nat} (hden : 0 < den) (hden' : 0 < den')
    (h : (num : ℚ) / den = num' / den') : roundHalfEven num den = roundHalfEven num' den' := by
  have hcross : num * den' = num' * den := by
    rw [div_eq_div_iff (by exact_mod_cast hden.ne') (by exact_mod_cast hden'.ne')] at h
    exact_mod_cast h
  calc roundHalfEven num den
    _ = roundHalfEven (num * den') (den * den') := (roundHalfEven_mul_right hden').symm
    _ = roundHalfEven (num' * den) (den' * den) := by rw [hcross, Nat.mul_comm den]
    _ = roundHalfEven num' den' := roundHalfEven_mul_right hden

theorem unitExponent_eq {num den : Nat} (hnum : 0 < num) (hden : 0 < den) :
    unitExponent num den = max (Int.log 2 ((num : ℚ) / den) - 52) (-1074) := by
  rw [unitExponent, log2Quotient_eq hnum hden]

/-- Fractions of one number are rounded to one value. -/
theorem ofQuotient?_congr {negative : Bool} {num den num' den' : Nat} (hden : 0 < den)
    (hden' : 0 < den') (h : (num : ℚ) / den = num' / den') :
    ofQuotient? negative num den = ofQuotient? negative num' den' := by
  have hd : (den : ℚ) ≠ 0 := by exact_mod_cast hden.ne'
  have hd' : (den' : ℚ) ≠ 0 := by exact_mod_cast hden'.ne'
  have hzero : num = 0 ↔ num' = 0 := by
    rw [div_eq_div_iff hd hd'] at h
    constructor
    · rintro rfl
      have hprod : (num' : ℚ) * den = 0 := by simpa using h.symm
      exact_mod_cast (mul_eq_zero.mp hprod).resolve_right hd
    · rintro rfl
      have hprod : (num : ℚ) * den' = 0 := by simpa using h
      exact_mod_cast (mul_eq_zero.mp hprod).resolve_right hd'
  by_cases hnum : num = 0
  · rw [ofQuotient?, ofQuotient?, if_pos hnum, if_pos (hzero.mp hnum)]
  have hnum' : num' ≠ 0 := fun h' => hnum (hzero.mpr h')
  have hunit : unitExponent num den = unitExponent num' den' := by
    rw [unitExponent_eq (Nat.pos_of_ne_zero hnum) hden,
      unitExponent_eq (Nat.pos_of_ne_zero hnum') hden', h]
  have hround : ∀ power, roundHalfEven (scaleByTwo num den power).1 (scaleByTwo num den power).2 =
      roundHalfEven (scaleByTwo num' den' power).1 (scaleByTwo num' den' power).2 := by
    intro power
    refine roundHalfEven_congr (scaleByTwo_pos hden num power)
      (scaleByTwo_pos hden' num' power) ?_
    rw [ratio_scaleByTwo, ratio_scaleByTwo, h]
  simp only [ofQuotient?, if_neg hnum, if_neg hnum', hunit, hround]

/-- The magnitude of a value. -/
def magnitude (x : Binary64) : ℚ :=
  x.significand * 2 ^ x.exponent

theorem ratio_quotient (x : Binary64) : (x.quotient.1 : ℚ) / x.quotient.2 = x.magnitude := by
  rw [quotient, ratio_scaleByTwo, Nat.cast_one, div_one, magnitude]

theorem eq_zero_of_significand {x : Binary64} (h : x.significand = 0) : x = zero x.negative := by
  have hexponent : x.exponent = -1074 := x.full_or_least.resolve_left (by rw [h]; decide)
  cases x
  simp_all [zero]

theorem magnitude_pos {x : Binary64} (h : x.significand ≠ 0) : 0 < x.magnitude := by
  have : (0 : ℚ) < x.significand := by exact_mod_cast Nat.pos_of_ne_zero h
  rw [magnitude]
  positivity

/-- The power of two of the last bit of a value is read off its magnitude. -/
theorem exponent_eq {x : Binary64} (h : x.significand ≠ 0) :
    max (Int.log 2 x.magnitude - 52) (-1074) = x.exponent := by
  have hpos : (0 : ℚ) < x.significand := by exact_mod_cast Nat.pos_of_ne_zero h
  have hmagnitude := magnitude_pos h
  have hpower : (0 : ℚ) < 2 ^ x.exponent := by positivity
  have hhigh : Int.log 2 x.magnitude < 53 + x.exponent := by
    refine (Int.lt_zpow_iff_log_lt (by norm_num) hmagnitude).mp ?_
    rw [magnitude, Nat.cast_ofNat, zpow_add₀ (by norm_num)]
    refine mul_lt_mul_of_pos_right ?_ hpower
    exact_mod_cast x.significand_lt
  have hleast := x.least_le
  rcases x.full_or_least with hfull | hexponent
  · have hlow : 52 + x.exponent ≤ Int.log 2 x.magnitude := by
      refine (Int.zpow_le_iff_le_log (by norm_num) hmagnitude).mp ?_
      rw [magnitude, Nat.cast_ofNat, zpow_add₀ (by norm_num)]
      refine mul_le_mul_of_nonneg_right ?_ hpower.le
      exact_mod_cast hfull
    omega
  · omega

/-- A fraction that is the magnitude of a value is rounded to this value. -/
theorem ofQuotient?_of_magnitude {x : Binary64} {num den : Nat} (hden : 0 < den)
    (h : (num : ℚ) / den = x.magnitude) : ofQuotient? x.negative num den = some x := by
  have hd : (den : ℚ) ≠ 0 := by exact_mod_cast hden.ne'
  by_cases hzero : x.significand = 0
  · have hnum : num = 0 := by
      rw [magnitude, hzero, Nat.cast_zero, zero_mul, div_eq_zero_iff] at h
      exact_mod_cast h.resolve_right hd
    rw [ofQuotient?, if_pos hnum, ← eq_zero_of_significand hzero]
  have hnum : 0 < num := by
    refine Nat.pos_of_ne_zero fun hnum => ?_
    have := magnitude_pos hzero
    rw [← h, hnum, Nat.cast_zero, zero_div] at this
    exact lt_irrefl _ this
  have hunit : unitExponent num den = x.exponent := by
    rw [unitExponent_eq hnum hden, h, exponent_eq hzero]
  have hround : roundHalfEven (scaleByTwo num den (-x.exponent)).1
      (scaleByTwo num den (-x.exponent)).2 = x.significand := by
    have hwhole : roundHalfEven x.significand 1 = x.significand := by
      simp [roundHalfEven, Nat.mod_one]
    refine (roundHalfEven_congr (scaleByTwo_pos hden _ _) Nat.one_pos ?_).trans hwhole
    rw [ratio_scaleByTwo, h, magnitude, mul_assoc, ← zpow_add₀ (by norm_num), add_neg_cancel,
      zpow_zero, mul_one, Nat.cast_one, div_one]
  rw [ofQuotient?, if_neg hnum.ne']
  dsimp only
  rw [hunit, hround, if_neg x.significand_lt.ne, ofParts?,
    dif_pos ⟨x.significand_lt, x.least_le, x.le_greatest, x.full_or_least⟩]

end DeclSchema.Binary64
