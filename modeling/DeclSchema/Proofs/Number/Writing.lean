import DeclSchema.Model.Basic
import DeclSchema.Proofs.Number.Shortest
import DeclSchema.Proofs.Number.Whole

/-!
# How whole numbers are written

A whole number of at most 64 bits has a nearest value (`exists_ofNat?`). One of at most 53 bits is
a value itself, and the search for the fewest digits that read back ends with its own digits, but
perhaps with zeros left out at the end, which are written again (`toText_of_ofNat?`).

This rests on two facts. The search stops at the latest at the unit one, where nothing is cut
off, so that its numerals are whole (`exponent_shortest`); and no other whole number is read as
the value (`eq_of_ofNat?`).
-/

namespace DeclSchema

namespace Binary64

variable {n : Nat} {x : Binary64}

theorem parts_of_ofParts? {negative : Bool} {significand : Nat} {exponent : Int}
    (h : ofParts? negative significand exponent = some x) :
    x.negative = negative ∧ x.exponent = exponent := by
  unfold ofParts? at h
  split at h
  · cases h
    exact ⟨rfl, rfl⟩
  · cases h

/-- The exponent of a value is that of its last bit, or one more when rounding carries. -/
theorem parts_of_ofQuotient? {negative : Bool} {num den : Nat} (hnum : num ≠ 0)
    (h : ofQuotient? negative num den = some x) :
    x.negative = negative ∧ unitExponent num den ≤ x.exponent := by
  rw [ofQuotient?, if_neg hnum] at h
  dsimp only at h
  split at h
  · obtain ⟨hnegative, hexponent⟩ := parts_of_ofParts? h
    exact ⟨hnegative, by omega⟩
  · obtain ⟨hnegative, hexponent⟩ := parts_of_ofParts? h
    exact ⟨hnegative, by omega⟩

theorem roundHalfEven_bounds (num den : Nat) :
    num / den ≤ roundHalfEven num den ∧ roundHalfEven num den ≤ num / den + 1 := by
  unfold roundHalfEven
  dsimp only
  split <;> omega

/-- A whole number of at most 64 bits is not beyond the greatest value. -/
theorem exists_ofNat? (h : n < 2 ^ 64) : ∃ x, ofNat? n = some x ∧ x.negative = false := by
  by_cases hsmall : n < 2 ^ 53
  · obtain ⟨x, hx, hnegative, -⟩ := ofNat?_of_lt hsmall
    exact ⟨x, hx, hnegative⟩
  have hpos : n ≠ 0 := by
    omega
  have hlow : 53 ≤ n.log2 := (Nat.le_log2 hpos).mpr (Nat.le_of_not_lt hsmall)
  have hhigh : n.log2 < 64 := (Nat.log2_lt hpos).mpr h
  obtain ⟨k, hk⟩ := Nat.exists_eq_add_of_le (Nat.le_of_succ_le hlow)
  have hunit : unitExponent n 1 = k := by
    rw [unitExponent, log2Quotient_one hpos]
    omega
  have hscale : scaleByTwo n 1 (-(k : Int)) = (n, 2 ^ k) := by
    rw [scaleByTwo, if_neg (by omega), Int.neg_neg, Int.toNat_natCast, Nat.one_mul]
  have hquotient : 2 ^ 52 ≤ n / 2 ^ k ∧ n / 2 ^ k < 2 ^ 53 := by
    constructor
    · rw [Nat.le_div_iff_mul_le (Nat.two_pow_pos k), ← Nat.pow_add, ← hk]
      exact Nat.log2_self_le hpos
    · rw [Nat.div_lt_iff_lt_mul (Nat.two_pow_pos k), ← Nat.pow_add]
      have hlt := Nat.lt_log2_self (n := n)
      rwa [hk, Nat.add_right_comm] at hlt
  obtain ⟨hround, hround'⟩ := roundHalfEven_bounds n (2 ^ k)
  have hsome : ∃ x, ofNat? n = some x := by
    rw [ofNat?, ofQuotient?, if_neg hpos]
    dsimp only
    rw [hunit, hscale]
    dsimp only
    split
    · rw [ofParts?, dif_pos ⟨by decide, by omega, by omega, .inl (Nat.le_refl _)⟩]
      exact ⟨_, rfl⟩
    · rw [ofParts?, dif_pos ⟨by omega, by omega, by omega, .inl (by omega)⟩]
      exact ⟨_, rfl⟩
  obtain ⟨x, hx⟩ := hsome
  exact ⟨x, hx, (parts_of_ofQuotient? hpos hx).1⟩

/-- The last bit of a number of at most 53 bits has the value one or less, and that of
a greater number has the value two at least. -/
theorem eq_of_ofNat? {m : Nat} (h : n < 2 ^ 53) (hn : ofNat? n = some x)
    (hm : ofNat? m = some x) : m = n := by
  by_cases hsmall : m < 2 ^ 53
  · rw [← whole_of_ofNat? h hn, ← whole_of_ofNat? hsmall hm]
  have hmpos : m ≠ 0 := by
    omega
  have hlow : 53 ≤ m.log2 := (Nat.le_log2 hmpos).mpr (Nat.le_of_not_lt hsmall)
  have hexponent : 1 ≤ x.exponent := by
    have hunit := (parts_of_ofQuotient? hmpos hm).2
    rw [unitExponent, log2Quotient_one hmpos] at hunit
    omega
  have hleast : x.exponent ≤ 0 := by
    by_cases hpos : n = 0
    · subst hpos
      cases hn
      decide
    · rw [ofNat?_eq_ofParts? hpos h] at hn
      have hle := log2_le hpos h
      have := (parts_of_ofParts? hn).2
      omega
  omega

/-- Of a numeral with the unit one, what is read is the value of its digits. -/
theorem ofNat?_of_ofNumeral? {m : Nat} (h : ofNumeral? ⟨false, m, 0⟩ = some x) :
    ofNat? m = some x := by
  have hquotient : quotientOfNumeral ⟨false, m, 0⟩ = (m, 1) := by
    simp [quotientOfNumeral]
  have hleading : ¬ (Numeral.leading ⟨false, m, 0⟩ < -330) := by
    simp only [Numeral.leading]
    omega
  by_cases hzero : m = 0
  · subst hzero
    exact h
  rw [ofNumeral?, if_neg (by simp [hzero, hleading]), hquotient] at h
  split at h
  · cases h
  · exact h

/-- The first of the numbers for which something is found is not beyond any other one. -/
theorem exists_le_of_findSome?_range {α : Type} {f : Nat → Option α} {count i : Nat} {a : α}
    (hi : i < count) (hsome : (f i).isSome) (h : (List.range count).findSome? f = some a) :
    ∃ j ≤ i, f j = some a := by
  obtain ⟨before, j, behind, hsplit, hj, hnone⟩ := List.findSome?_eq_some_iff.mp h
  refine ⟨j, Nat.le_of_not_lt fun hlt => ?_, hj⟩
  have hmem : i ∈ before ++ j :: behind := hsplit ▸ List.mem_range.mpr hi
  have hsorted : (before ++ j :: behind).Pairwise (· < ·) := hsplit ▸ List.pairwise_lt_range
  rcases List.mem_append.mp hmem with hbefore | hbehind
  · rw [hnone i hbefore] at hsome
    cases hsome
  · rcases List.mem_cons.mp hbehind with rfl | hbehind
    · exact absurd hlt (Nat.lt_irrefl _)
    · have := (List.pairwise_cons.mp (List.pairwise_append.mp hsorted).2.1).1 i hbehind
      omega

theorem exponent_of_nearest? {tie : Tie} {unit : Int} {m : Numeral}
    (h : x.nearest? tie unit = some m) : m.exponent = unit := by
  unfold nearest? at h
  split at h
  · cases h
    rcases nearer_eq tie x unit with heq | heq <;> rw [heq] <;> rfl
  · cases h
    rfl
  · cases h
    rfl
  · cases h

theorem exponent_le_trimUpTo (count : Nat) (m : Numeral) :
    m.exponent ≤ (Numeral.trimUpTo count m).exponent := by
  induction count generalizing m with
  | zero => exact Int.le_refl _
  | succ count ih =>
    rw [Numeral.trimUpTo]
    split
    · exact (Int.le_add_one (Int.le_refl _)).trans (ih _)
    · exact Int.le_refl _

/-- At the unit one nothing is cut off. -/
theorem readsBack_below_one (h : n < 2 ^ 53) (hn : ofNat? n = some x)
    (hsign : x.negative = false) : readsBack x (x.below 0) := by
  have hwhole := whole_of_ofNat? h hn
  have hbelow : x.below 0 = ⟨false, n, 0⟩ := by
    rw [below, inUnits, if_pos (Int.le_refl 0), hsign, ← hwhole, whole]
    simp
  rw [hbelow, readsBack, ofNumeral?_whole (Nat.lt_trans h (by decide)), hn, beq_self_eq_true]

section

variable (hpos : n ≠ 0) (h : n < 2 ^ 53) (hn : ofNat? n = some x)

include hpos h hn

theorem significand_ne_zero : x.significand ≠ 0 := by
  intro hzero
  have hwhole := whole_of_ofNat? h hn
  rw [whole, quotient, scaleByTwo, hzero] at hwhole
  split at hwhole <;> simp at hwhole <;> omega

/-- A number of at most 53 bits begins in front of the point. -/
theorem leadingDigit_nonneg : 0 ≤ x.leadingDigit := by
  have hne := significand_ne_zero hpos h hn
  have hwhole := whole_of_ofNat? h hn
  have hden : (0 : ℚ) < x.quotient.2 := by
    exact_mod_cast x.quotient_pos
  rw [leadingDigit_eq hne]
  refine (Int.zpow_le_iff_le_log (by norm_num) (magnitude_pos hne)).mp ?_
  rw [zpow_zero, ← ratio_quotient, one_le_div hden]
  have hle : x.quotient.2 ≤ x.quotient.1 := by
    rw [whole] at hwhole
    by_contra hlt
    rw [Nat.div_eq_of_lt (Nat.lt_of_not_le hlt)] at hwhole
    exact hpos hwhole.symm
  exact_mod_cast hle

/-- No numeral with places behind the point is taken. -/
theorem exponent_shortest (tie : Tie) (hsign : x.negative = false) :
    0 ≤ (x.shortest tie).exponent := by
  have hne := significand_ne_zero hpos h hn
  have hleading := leadingDigit_nonneg hpos h hn
  have hmost : x.leadingDigit ≤ 310 := by
    rw [leadingDigit_eq hne]
    exact (log_magnitude hne).2
  obtain ⟨i, hi⟩ := Int.eq_ofNat_of_zero_le hleading
  have hlast : (withDigits? tie x (i + 1)).isSome := by
    have hunit : x.leadingDigit - (i + 1 : Nat) + 1 = 0 := by
      omega
    rw [withDigits?, hunit]
    exact isSome_nearest? (readsBack_below_one h hn hsign)
  obtain ⟨m, hm, -⟩ := exists_withDigits? tie hne
  have hmany : i < maxDigits := by
    rw [maxDigits]
    omega
  obtain ⟨j, hj, hfound⟩ := exists_le_of_findSome?_range hmany hlast hm
  have hexponent := exponent_of_nearest? hfound
  rw [shortest, if_neg hne, hm, Option.getD_some]
  refine le_trans ?_ (exponent_le_trimUpTo _ m)
  omega

end

theorem toDigits_mul_pow {m : Nat} (h : m ≠ 0) (count : Nat) :
    Nat.toDigits 10 (m * 10 ^ count) = Nat.toDigits 10 m ++ List.replicate count '0' := by
  induction count with
  | zero => simp
  | succ count ih =>
    have hpos : 0 < m * 10 ^ count := Nat.mul_pos (Nat.pos_of_ne_zero h) (Nat.pow_pos (by decide))
    have happend := Nat.toDigits_append_toDigits (b := 10) (n := m * 10 ^ count) (d := 0)
      (by decide) hpos (by decide)
    have hten : 10 * (m * 10 ^ count) + 0 = m * 10 ^ (count + 1) := by
      rw [Nat.pow_succ]
      ring
    rw [← hten, ← happend, ih, List.replicate_succ', List.append_assoc]
    rfl

theorem negative_of_ofNumeral? {m : Numeral} (h : ofNumeral? m = some x) :
    x.negative = m.negative := by
  unfold ofNumeral? at h
  split at h
  · cases h
    rfl
  · split at h
    · cases h
    · dsimp only at h
      by_cases hnum : (quotientOfNumeral m).1 = 0
      · rw [ofQuotient?, if_pos hnum] at h
        cases h
        rfl
      · exact (parts_of_ofQuotient? hnum h).1

theorem toText_of_ofNat?_of_lt (h : n < 2 ^ 53) (hn : ofNat? n = some x) :
    (Literal.number x).toText = n.repr := by
  by_cases hpos : n = 0
  · subst hpos
    cases hn
    decide +kernel
  obtain ⟨y, hy, hsign, -⟩ := ofNat?_of_lt h
  obtain rfl : x = y := Option.some.inj (hn.symm.trans hy)
  have hread := ofNumeral?_shortest .up x
  have hnegative := negative_of_ofNumeral? hread
  have hexponent := exponent_shortest hpos h hn .up hsign
  generalize hm : x.shortest .up = m at hread hnegative hexponent
  obtain ⟨negative, digits, exponent⟩ := m
  obtain ⟨k, rfl⟩ := Int.eq_ofNat_of_zero_le hexponent
  obtain rfl : negative = false := hnegative.symm.trans hsign
  have hmagnitude : Numeral.magnitude ⟨false, digits * 10 ^ k, 0⟩ =
      Numeral.magnitude ⟨false, digits, k⟩ := by
    simp [Numeral.magnitude]
  have hvalue : digits * 10 ^ k = n := by
    have hwhole : ofNumeral? ⟨false, digits * 10 ^ k, 0⟩ = some x := by
      rw [ofNumeral?_congr _ hmagnitude, hread]
      rfl
    exact eq_of_ofNat? h hn (ofNat?_of_ofNumeral? hwhole)
  have hdigits : digits ≠ 0 := by
    rintro rfl
    exact hpos (by rw [← hvalue, Nat.zero_mul])
  have htext : Numeral.positionalText "" ⟨false, digits, k⟩ = Nat.toDigits 10 n := by
    rw [Numeral.positionalText, if_pos hexponent, ← hvalue, toDigits_mul_pow hdigits]
    simp [Numeral.zeros]
  apply String.toList_injective
  rw [Nat.toList_repr, ← htext, Literal.toText, toText, Literal.layout, hm, Numeral.toText]
  simp

/-- The value of a whole number of at most 53 bits, and that of the next one, is written with
the digits of the number. -/
theorem toText_of_ofNat? (h : n ≤ 2 ^ 53) (hn : ofNat? n = some x) :
    (Literal.number x).toText = n.repr := by
  rcases Nat.lt_or_eq_of_le h with hlt | rfl
  · exact toText_of_ofNat?_of_lt hlt hn
  · have htext : (ofNat? (2 ^ 53)).map (Literal.number · |>.toText) = some (2 ^ 53).repr := by
      decide +kernel
    rw [hn] at htext
    exact Option.some.inj htext

end Binary64

end DeclSchema
