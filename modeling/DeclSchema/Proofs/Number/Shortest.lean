import DeclSchema.Number.Shortest
import DeclSchema.Proofs.Number.Rounding
import Mathlib.Algebra.Order.Floor.Semifield

/-!
# The fewest digits read back

A numeral is read as the value that its rational number rounds to, however the number is
split into digits and an exponent (`ofNumeral?_congr`). The search for the fewest digits
ends at the latest with all digits of the binary fraction, of which there are less than
`maxDigits`, so that what is written is always read back (`ofNumeral?_shortest`).
-/

namespace DeclSchema

namespace Digits

theorem count_eq (n : Nat) : count n = Nat.log 10 n + 1 := by
  have hiff : ∀ {k : Nat}, 0 < k → (count n ≤ k ↔ n < 10 ^ k) := fun hk =>
    Nat.length_toDigits_le_iff (by decide) hk
  apply Nat.le_antisymm
  · exact (hiff (Nat.succ_pos _)).mpr (Nat.lt_pow_succ_log_self (by decide) n)
  · have hpos : 0 < count n := Nat.length_toDigits_pos
    exact Nat.succ_le_of_lt (Nat.log_lt_of_lt_pow' hpos.ne' ((hiff hpos).mp (Nat.le_refl _)))

end Digits

namespace Numeral

/-- The magnitude of a numeral. -/
def magnitude (n : Numeral) : ℚ :=
  n.digits * 10 ^ n.exponent

theorem magnitude_eq_zero_iff {n : Numeral} : n.magnitude = 0 ↔ n.digits = 0 := by
  rw [magnitude, mul_eq_zero, Nat.cast_eq_zero]
  exact or_iff_left (zpow_ne_zero _ (by norm_num))

theorem magnitude_pos {n : Numeral} (h : n.digits ≠ 0) : 0 < n.magnitude := by
  have : (0 : ℚ) < n.digits := by exact_mod_cast Nat.pos_of_ne_zero h
  rw [magnitude]
  positivity

/-- The place of the first digit is read off the magnitude. -/
theorem leading_eq {n : Numeral} (h : n.digits ≠ 0) : n.leading = Int.log 10 n.magnitude := by
  have hpos := magnitude_pos h
  have hpower : (0 : ℚ) < 10 ^ n.exponent := by positivity
  have hlow : n.exponent + Nat.log 10 n.digits ≤ Int.log 10 n.magnitude := by
    refine (Int.zpow_le_iff_le_log (by norm_num) hpos).mp ?_
    rw [magnitude, Nat.cast_ofNat, add_comm, zpow_add₀ (by norm_num), zpow_natCast]
    refine mul_le_mul_of_nonneg_right ?_ hpower.le
    exact_mod_cast Nat.pow_log_le_self 10 h
  have hhigh : Int.log 10 n.magnitude < n.exponent + (Nat.log 10 n.digits + 1) := by
    refine (Int.lt_zpow_iff_log_lt (by norm_num) hpos).mp ?_
    rw [magnitude, Nat.cast_ofNat, add_comm, zpow_add₀ (by norm_num)]
    refine mul_lt_mul_of_pos_right ?_ hpower
    exact_mod_cast Nat.lt_pow_succ_log_self (by norm_num) n.digits
  have hcount := Digits.count_eq n.digits
  rw [leading]
  omega

end Numeral

namespace Binary64

open Numeral

theorem ratio_quotientOfNumeral (n : Numeral) :
    ((quotientOfNumeral n).1 : ℚ) / (quotientOfNumeral n).2 = n.magnitude := by
  unfold quotientOfNumeral
  split
  · next h =>
    obtain ⟨k, hk⟩ := Int.eq_ofNat_of_zero_le h
    rw [Numeral.magnitude, hk, Int.toNat_natCast, zpow_natCast]
    push_cast
    rw [div_one]
  · next h =>
    obtain ⟨k, hk⟩ := Int.eq_ofNat_of_zero_le (a := -n.exponent) (by omega)
    have hexponent : n.exponent = -(k : Int) := by omega
    rw [Numeral.magnitude, hexponent, Int.neg_neg, Int.toNat_natCast, zpow_neg, zpow_natCast]
    push_cast
    rw [div_eq_mul_inv]

theorem quotientOfNumeral_pos (n : Numeral) : 0 < (quotientOfNumeral n).2 := by
  unfold quotientOfNumeral
  split
  · exact Nat.one_pos
  · exact Nat.pow_pos (by norm_num)

/-- Numerals of one number are read as one value. -/
theorem ofNumeral?_congr {m n : Numeral} (hsign : m.negative = n.negative)
    (h : m.magnitude = n.magnitude) : ofNumeral? m = ofNumeral? n := by
  have hzero : m.digits = 0 ↔ n.digits = 0 := by
    rw [← magnitude_eq_zero_iff, h, magnitude_eq_zero_iff]
  have hquotient : ofQuotient? n.negative (quotientOfNumeral m).1 (quotientOfNumeral m).2 =
      ofQuotient? n.negative (quotientOfNumeral n).1 (quotientOfNumeral n).2 := by
    refine ofQuotient?_congr (quotientOfNumeral_pos m) (quotientOfNumeral_pos n) ?_
    rw [ratio_quotientOfNumeral, ratio_quotientOfNumeral, h]
  by_cases hdigits : n.digits = 0
  · simp [ofNumeral?, hdigits, hzero.mpr hdigits, hsign]
  · have hleading : m.leading = n.leading := by
      rw [leading_eq (mt hzero.mp hdigits), leading_eq hdigits, h]
    have hm : m.digits ≠ 0 := mt hzero.mp hdigits
    simp only [ofNumeral?, hdigits, hm, hleading, hsign, hquotient]

theorem magnitude_lt (x : Binary64) : x.magnitude < 2 ^ (1024 : Int) := by
  have hexponent := x.le_greatest
  calc x.magnitude < 2 ^ (53 : Int) * 2 ^ x.exponent := by
        refine mul_lt_mul_of_pos_right ?_ (by positivity)
        exact_mod_cast x.significand_lt
    _ = 2 ^ (53 + x.exponent) := (zpow_add₀ (by norm_num) _ _).symm
    _ ≤ 2 ^ (1024 : Int) := zpow_le_zpow_right₀ (by norm_num) (by omega)

theorem le_magnitude {x : Binary64} (h : x.significand ≠ 0) : 2 ^ (-1074 : Int) ≤ x.magnitude := by
  have hexponent := x.least_le
  calc (2 : ℚ) ^ (-1074 : Int) ≤ 2 ^ x.exponent := zpow_le_zpow_right₀ (by norm_num) hexponent
    _ = 1 * 2 ^ x.exponent := (one_mul _).symm
    _ ≤ x.magnitude := by
        refine mul_le_mul_of_nonneg_right ?_ (by positivity)
        exact_mod_cast Nat.pos_of_ne_zero h

/-- The first decimal digit of a value has a place in the range of numerals that are
read. -/
theorem log_magnitude {x : Binary64} (h : x.significand ≠ 0) :
    -330 ≤ Int.log 10 x.magnitude ∧ Int.log 10 x.magnitude ≤ 310 := by
  have hpos := magnitude_pos h
  have hleast : (2 : ℚ) ^ 1074 ≤ 10 ^ 330 := by
    exact_mod_cast (by decide +kernel : 2 ^ 1074 ≤ 10 ^ 330)
  have hgreatest : (2 : ℚ) ^ 1024 < 10 ^ 311 := by
    exact_mod_cast (by decide +kernel : 2 ^ 1024 < 10 ^ 311)
  constructor
  · refine (Int.zpow_le_iff_le_log (by norm_num) hpos).mp (le_trans ?_ (le_magnitude h))
    rw [Nat.cast_ofNat, zpow_neg, zpow_neg]
    exact inv_anti₀ (by positivity) hleast
  · refine Int.lt_add_one_iff.mp ((Int.lt_zpow_iff_log_lt (by norm_num) hpos).mp ?_)
    exact (magnitude_lt x).trans hgreatest

/-- A numeral of the number that a value is is read as this value. -/
theorem ofNumeral?_of_magnitude {x : Binary64} {n : Numeral} (hsign : n.negative = x.negative)
    (h : n.magnitude = x.magnitude) : ofNumeral? n = some x := by
  have hratio := (ratio_quotientOfNumeral n).trans h
  have hquotient := ofQuotient?_of_magnitude (quotientOfNumeral_pos n) hratio
  by_cases hdigits : n.digits = 0
  · have hzero : x.significand = 0 := by
      by_contra hne
      have := magnitude_pos hne
      rw [← h, magnitude_eq_zero_iff.mpr hdigits] at this
      exact lt_irrefl _ this
    rw [ofNumeral?, if_pos (by simp [hdigits]), hsign, ← eq_zero_of_significand hzero]
  · have hne : x.significand ≠ 0 := by
      intro hzero
      have := Numeral.magnitude_pos hdigits
      rw [h, magnitude, hzero, Nat.cast_zero, zero_mul] at this
      exact lt_irrefl _ this
    obtain ⟨hlow, hhigh⟩ := log_magnitude hne
    rw [← h, ← leading_eq hdigits] at hlow hhigh
    rw [ofNumeral?, if_neg, if_neg (by omega), hsign]
    · exact hquotient
    · simp [hdigits]
      omega

theorem log_mul_zpow {r : ℚ} (h : 0 < r) (k : Int) :
    Int.log 10 (r * 10 ^ k) = Int.log 10 r + k := by
  have hpower : (0 : ℚ) < 10 ^ k := by positivity
  have hscaled : 0 < r * 10 ^ k := mul_pos h hpower
  apply le_antisymm
  · rw [← sub_le_iff_le_add, ← Int.zpow_le_iff_le_log (by norm_num) h, Nat.cast_ofNat,
      zpow_sub₀ (by norm_num), div_le_iff₀ hpower]
    exact_mod_cast Int.zpow_log_le_self (b := 10) (by norm_num) hscaled
  · rw [← Int.zpow_le_iff_le_log (by norm_num) hscaled, Nat.cast_ofNat, zpow_add₀ (by norm_num)]
    exact mul_le_mul_of_nonneg_right
      (by exact_mod_cast Int.zpow_log_le_self (b := 10) (by norm_num) h) hpower.le

/-- With enough places behind the point, the number of digits of a fraction's whole part
tells the place of its first digit. -/
theorem count_scaled {num den k : Nat} (hnum : 0 < num) (hden : 0 < den)
    (hk : -(k : Int) ≤ Int.log 10 ((num : ℚ) / den)) :
    (Digits.count (num * 10 ^ k / den) : Int) = Int.log 10 ((num : ℚ) / den) + k + 1 := by
  have hpos : (0 : ℚ) < num / den := by positivity
  have hlog := log_mul_zpow hpos k
  have hone : 1 ≤ (num : ℚ) / den * 10 ^ (k : Int) := by
    have hscaled : (0 : ℚ) < num / den * 10 ^ (k : Int) := by positivity
    have := (Int.zpow_le_iff_le_log (b := 10) (x := 0) (by norm_num) hscaled).mpr (by omega)
    simpa using this
  have hfloor : num * 10 ^ k / den = ⌊(num : ℚ) / den * 10 ^ (k : Int)⌋₊ := by
    rw [← Nat.floor_div_eq_div (K := ℚ), zpow_natCast, div_mul_eq_mul_div]
    push_cast
    rfl
  rw [Int.log_of_one_le_right _ hone, ← hfloor] at hlog
  rw [Digits.count_eq]
  omega

theorem quotient_pos (x : Binary64) : 0 < x.quotient.2 :=
  scaleByTwo_pos Nat.one_pos _ _

/-- The place of the first digit is the logarithm of the magnitude. -/
theorem leadingDigit_eq {x : Binary64} (h : x.significand ≠ 0) :
    x.leadingDigit = Int.log 10 x.magnitude := by
  have hlow : -330 ≤ Int.log 10 x.magnitude := (log_magnitude h).1
  have hnum : 0 < x.quotient.1 := by
    refine Nat.pos_of_ne_zero fun hzero => ?_
    have := magnitude_pos h
    rw [← ratio_quotient, hzero, Nat.cast_zero, zero_div] at this
    exact lt_irrefl _ this
  have hcount := count_scaled (k := 340) hnum x.quotient_pos (by
    rw [ratio_quotient]
    omega)
  rw [ratio_quotient] at hcount
  calc x.leadingDigit
    _ = (Digits.count (x.quotient.1 * 10 ^ 340 / x.quotient.2) : Int) - 341 := by
      simp only [leadingDigit]
    _ = Int.log 10 x.magnitude := by
      rw [hcount]
      push_cast
      ring

/-- The numeral that is taken of two neighbours is one of them. -/
theorem nearer_eq (tie : Tie) (x : Binary64) (unit : Int) :
    x.nearer tie unit = x.below unit ∨ x.nearer tie unit = x.above unit := by
  unfold nearer
  grind

/-- What is found is read back. -/
theorem readsBack_of_nearest? {tie : Tie} {x : Binary64} {unit : Int} {n : Numeral}
    (h : x.nearest? tie unit = some n) : readsBack x n := by
  unfold nearest? at h
  split at h
  · next hbelow habove =>
    cases h
    rcases nearer_eq tie x unit with heq | heq <;> rw [heq] <;> assumption
  · cases h
    assumption
  · cases h
    assumption
  · cases h

theorem isSome_nearest? {tie : Tie} {x : Binary64} {unit : Int} (h : readsBack x (x.below unit)) :
    (x.nearest? tie unit).isSome := by
  unfold nearest?
  rw [h]
  split
  · rfl
  · rfl
  · contradiction
  · contradiction

/-- The place behind which the decimal expansion of a value has no digits. -/
def lastPlace (x : Binary64) : Int :=
  min x.exponent 0

/-- At the last place nothing is cut off: behind the point a value has as many decimal
places as binary ones. -/
theorem readsBack_below_lastPlace (x : Binary64) : readsBack x (x.below x.lastPlace) := by
  have hexact : (x.below x.lastPlace).magnitude = x.magnitude := by
    rcases Int.lt_or_le x.exponent 0 with hexponent | hexponent
    · obtain ⟨k, hk⟩ := Int.eq_ofNat_of_zero_le (a := -x.exponent) (by omega)
      have hk : x.exponent = -(k : Int) := by omega
      have hplace : x.lastPlace = -(k : Int) := by
        rw [lastPlace, hk]
        omega
      have hquotient : x.quotient = (x.significand, 2 ^ k) := by
        rw [quotient, scaleByTwo, if_neg (by omega), hk, Int.neg_neg, Int.toNat_natCast, Nat.one_mul]
      have hten : 10 ^ k = 5 ^ k * 2 ^ k := by rw [← Nat.mul_pow]
      have hdigits : (x.below (-(k : Int))).digits = x.significand * 5 ^ k := by
        rw [below, inUnits, if_neg (by omega), hquotient, Int.neg_neg, Int.toNat_natCast]
        dsimp only
        rw [hten, ← Nat.mul_assoc, Nat.mul_div_cancel _ (Nat.two_pow_pos k)]
      rw [hplace, Numeral.magnitude, hdigits, magnitude, hk, below, zpow_neg, zpow_neg,
        zpow_natCast, zpow_natCast]
      have hten : (10 : ℚ) ^ k = 5 ^ k * 2 ^ k := by exact_mod_cast hten
      push_cast
      rw [hten]
      field_simp
    · obtain ⟨k, hk⟩ := Int.eq_ofNat_of_zero_le hexponent
      have hplace : x.lastPlace = 0 := Int.min_eq_right hexponent
      have hquotient : x.quotient = (x.significand * 2 ^ k, 1) := by
        rw [quotient, scaleByTwo, if_pos hexponent, hk, Int.toNat_natCast]
      rw [Numeral.magnitude, below, inUnits, hplace, if_pos (Int.le_refl 0), hquotient, magnitude, hk]
      simp
  rw [readsBack, beq_iff_eq]
  exact ofNumeral?_of_magnitude rfl hexact

/-- All digits of a value are less than `maxDigits`. -/
theorem lastPlace_bounds {x : Binary64} (h : x.significand ≠ 0) :
    x.lastPlace ≤ x.leadingDigit ∧ x.leadingDigit - x.lastPlace + 1 ≤ maxDigits := by
  have hpos := magnitude_pos h
  have hone : (1 : ℚ) ≤ x.significand := by exact_mod_cast Nat.pos_of_ne_zero h
  have hhigh := (log_magnitude h).2
  rw [leadingDigit_eq h, lastPlace, maxDigits]
  rcases Int.le_total 0 x.exponent with hexponent | hexponent
  · have hlow : 0 ≤ Int.log 10 x.magnitude := by
      refine (Int.zpow_le_iff_le_log (by norm_num) hpos).mp ?_
      rw [zpow_zero, magnitude]
      exact one_le_mul_of_one_le_of_one_le hone (one_le_zpow₀ (by norm_num) hexponent)
    omega
  · obtain ⟨k, hk⟩ := Int.eq_ofNat_of_zero_le (a := -x.exponent) (by omega)
    have hk : x.exponent = -(k : Int) := by omega
    have hleast := x.least_le
    have hlow : -(k : Int) ≤ Int.log 10 x.magnitude := by
      refine (Int.zpow_le_iff_le_log (by norm_num) hpos).mp ?_
      rw [magnitude, hk, Nat.cast_ofNat, zpow_neg, zpow_neg, zpow_natCast, zpow_natCast]
      calc ((10 : ℚ) ^ k)⁻¹ ≤ (2 ^ k)⁻¹ :=
            inv_anti₀ (by positivity) (pow_le_pow_left₀ (by norm_num) (by norm_num) k)
        _ ≤ x.significand * (2 ^ k)⁻¹ := le_mul_of_one_le_left (by positivity) hone
    have hhigh : Int.log 10 x.magnitude < 799 - k := by
      refine (Int.lt_zpow_iff_log_lt (by norm_num) hpos).mp ?_
      have hdigits : (2 : ℚ) ^ 53 * 5 ^ k ≤ 10 ^ 799 := by
        have hle : k ≤ 1074 := by omega
        have hmost : 2 ^ 53 * 5 ^ 1074 ≤ 10 ^ 799 := by decide +kernel
        have hk : 5 ^ k ≤ 5 ^ 1074 := pow_le_pow_right₀ (by decide) hle
        exact_mod_cast (Nat.mul_le_mul_left (2 ^ 53) hk).trans hmost
      have hten : (10 : ℚ) ^ k = 5 ^ k * 2 ^ k := by
        rw [← mul_pow]
        norm_num
      calc x.magnitude < 2 ^ 53 * (2 ^ k)⁻¹ := by
            rw [magnitude, hk, zpow_neg, zpow_natCast]
            refine mul_lt_mul_of_pos_right ?_ (by positivity)
            exact_mod_cast x.significand_lt
        _ = 2 ^ 53 * 5 ^ k / 10 ^ k := by
            rw [hten]
            field_simp
        _ ≤ 10 ^ 799 / 10 ^ k := div_le_div_of_nonneg_right hdigits (by positivity)
        _ = (10 : Nat) ^ (799 - k : Int) := by
            rw [Nat.cast_ofNat, zpow_sub₀ (by norm_num), zpow_natCast]
            rfl
    omega

/-- The search finds a numeral. -/
theorem exists_withDigits? (tie : Tie) {x : Binary64} (h : x.significand ≠ 0) :
    ∃ n, ((List.range maxDigits).findSome? fun i => withDigits? tie x (i + 1)) = some n ∧
      readsBack x n := by
  obtain ⟨hplace, hcount⟩ := lastPlace_bounds h
  obtain ⟨i, hi⟩ := Int.eq_ofNat_of_zero_le (a := x.leadingDigit - x.lastPlace) (by omega)
  have hunit : x.leadingDigit - (i + 1 : Nat) + 1 = x.lastPlace := by
    push_cast
    omega
  have hfound : ((List.range maxDigits).findSome? fun i => withDigits? tie x (i + 1)).isSome := by
    rw [List.isSome_findSome?, List.any_eq_true]
    refine ⟨i, List.mem_range.mpr (by omega), ?_⟩
    rw [withDigits?, hunit]
    exact isSome_nearest? (readsBack_below_lastPlace x)
  obtain ⟨n, hn⟩ := Option.isSome_iff_exists.mp hfound
  obtain ⟨count, -, hcount⟩ := List.exists_of_findSome?_eq_some hn
  exact ⟨n, hn, readsBack_of_nearest? hcount⟩

theorem magnitude_trimUpTo (count : Nat) (n : Numeral) :
    (trimUpTo count n).magnitude = n.magnitude := by
  induction count generalizing n with
  | zero => rfl
  | succ count ih =>
    rw [trimUpTo]
    split
    · next hzero =>
      rw [Bool.and_eq_true, decide_eq_true_eq, decide_eq_true_eq] at hzero
      have hdigits : n.digits = 10 * (n.digits / 10) := by omega
      rw [ih, Numeral.magnitude, Numeral.magnitude, zpow_add_one₀ (by norm_num), hdigits]
      push_cast
      rw [Nat.mul_div_cancel_left _ (by decide)]
      ring
    · rfl

theorem negative_trimUpTo (count : Nat) (n : Numeral) :
    (trimUpTo count n).negative = n.negative := by
  induction count generalizing n with
  | zero => rfl
  | succ count ih =>
    rw [trimUpTo]
    split
    · exact ih _
    · rfl

/-- A value is read back from the fewest digits that it is written with. -/
theorem ofNumeral?_shortest (tie : Tie) (x : Binary64) : ofNumeral? (x.shortest tie) = some x := by
  rw [shortest]
  split
  · next hzero =>
    have hdigits : ofNumeral? ⟨x.negative, 0, 0⟩ = some (zero x.negative) := rfl
    rw [hdigits, ← eq_zero_of_significand hzero]
  · next hne =>
    obtain ⟨n, hn, hreads⟩ := exists_withDigits? tie hne
    rw [hn, Option.getD_some]
    refine (ofNumeral?_congr (negative_trimUpTo _ _) (magnitude_trimUpTo _ _)).trans ?_
    exact beq_iff_eq.mp hreads

/-- A zero is written as one digit in front of the point. -/
theorem exponent_shortest_of_zero {tie : Tie} {x : Binary64} (h : (x.shortest tie).digits = 0) :
    (x.shortest tie).exponent = 0 := by
  have hzero : x = zero (x.shortest tie).negative := by
    have hread := ofNumeral?_shortest tie x
    rw [ofNumeral?, if_pos (by simp [h])] at hread
    exact (Option.some.inj hread).symm
  have hsignificand : x.significand = 0 := by
    rw [hzero]
    rfl
  rw [shortest, if_pos hsignificand]

end Binary64

end DeclSchema
