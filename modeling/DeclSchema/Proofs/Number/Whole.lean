import DeclSchema.Number.Literal
import Mathlib.Algebra.Group.Nat.Defs

/-!
# Whole numbers

A whole number of at most 53 bits is a value itself, so that nothing is rounded. Its
decimal notation is read as this value.
-/

namespace DeclSchema

theorem isDigit_of_mem_toDigits {n : Nat} {c : Char} (h : c ∈ Nat.toDigits 10 n) : c.isDigit :=
  Nat.isDigit_of_mem_toDigits (by decide) (by decide) h

namespace Digits

/-- Decimal digits have the value that their notation has. -/
theorem read?_of_isDigit {cs : List Char} (h : ∀ c ∈ cs, c.isDigit) (value : Nat) :
    read? 10 value cs = some (Nat.ofDigitChars 10 cs value) := by
  induction cs generalizing value with
  | nil => rfl
  | cons c cs ih =>
    have hdigit : c.isDigit := h c List.mem_cons_self
    have hlt : c.toNat - '0'.toNat < 10 := by
      have hbounds := Char.isDigit_iff_toNat.mp hdigit
      have hnine : '9'.toNat = 57 := rfl
      have hzero : '0'.toNat = 48 := rfl
      omega
    rw [read?, hexValue?, if_pos hdigit]
    dsimp only
    rw [if_pos hlt, ih fun d hd => h d (List.mem_cons_of_mem c hd), Nat.ofDigitChars_cons]

theorem ofText?_toDigits (n : Nat) : ofText? 10 (Nat.toDigits 10 n) = some n := by
  rw [ofText?, if_neg (by simp), read?_of_isDigit fun _ hc => isDigit_of_mem_toDigits hc,
    Nat.ofDigitChars_ten_toDigits]

theorem count_le {n : Nat} (h : n < 2 ^ 64) : count n ≤ 20 :=
  (Nat.length_toDigits_le_iff (by decide) (by decide)).mpr (Nat.lt_trans h (by decide))

end Digits

namespace Numeral

/-- Digits alone are a whole number. -/
theorem ofText?_of_isDigit {cs : List Char} {n : Nat} (h : ∀ c ∈ cs, c.isDigit)
    (hn : Digits.ofText? 10 cs = some n) : ofText? cs = some ⟨false, n, 0⟩ := by
  have hwhole : (cs ++ []).takeWhile Char.isDigit = cs ++ [] := List.takeWhile_append_of_pos h
  have hbehind : (cs ++ []).dropWhile Char.isDigit = [] := List.dropWhile_append_of_pos h
  rw [List.append_nil] at hwhole hbehind
  unfold ofText?
  rw [hwhole, hbehind]
  dsimp only
  rw [List.append_nil, hn]
  rfl

theorem ofText?_toDigits (n : Nat) : ofText? (Nat.toDigits 10 n) = some ⟨false, n, 0⟩ :=
  ofText?_of_isDigit (fun _ hc => isDigit_of_mem_toDigits hc) (Digits.ofText?_toDigits n)

end Numeral

namespace Binary64

/-- The whole part of a value's magnitude. -/
def whole (x : Binary64) : Nat :=
  x.quotient.1 / x.quotient.2

theorem log2Quotient_one {n : Nat} (h : n ≠ 0) : log2Quotient n 1 = n.log2 := by
  have hone : ((n.log2 : Int) - (1 : Nat).log2) = n.log2 := by
    have hlog : (1 : Nat).log2 = 0 := by decide
    omega
  have hle : (scaleByTwo n 1 (-n.log2)).2 ≤ (scaleByTwo n 1 (-n.log2)).1 := by
    rw [scaleByTwo]
    split
    · have := Nat.le_mul_of_pos_right n (Nat.two_pow_pos (-(n.log2 : Int)).toNat)
      dsimp only
      omega
    · rw [Int.neg_neg, Int.toNat_natCast, Nat.one_mul]
      exact Nat.log2_self_le h
  rw [log2Quotient, hone]
  exact if_pos hle

section

variable {n : Nat} (hpos : n ≠ 0) (h : n < 2 ^ 53)

include hpos h

theorem log2_le : n.log2 ≤ 52 :=
  Nat.le_of_lt_succ ((Nat.log2_lt hpos).mpr h)

/-- A number of at most 53 bits is a significand when its first bit is moved to the
front. -/
theorem significand_bounds :
    2 ^ 52 ≤ n * 2 ^ (52 - n.log2) ∧ n * 2 ^ (52 - n.log2) < 2 ^ 53 := by
  have hle := log2_le hpos h
  constructor
  · calc 2 ^ 52 = 2 ^ n.log2 * 2 ^ (52 - n.log2) := by rw [← Nat.pow_add, Nat.add_sub_cancel' hle]
      _ ≤ n * 2 ^ (52 - n.log2) := Nat.mul_le_mul_right _ (Nat.log2_self_le hpos)
  · calc n * 2 ^ (52 - n.log2) < 2 ^ (n.log2 + 1) * 2 ^ (52 - n.log2) :=
        Nat.mul_lt_mul_of_pos_right Nat.lt_log2_self (Nat.two_pow_pos _)
      _ = 2 ^ 53 := by
        rw [← Nat.pow_add]
        congr 1
        omega

/-- No bit of the number is rounded away. -/
theorem ofNat?_eq_ofParts? :
    ofNat? n = ofParts? false (n * 2 ^ (52 - n.log2)) ((n.log2 : Int) - 52) := by
  have hle := log2_le hpos h
  have hlt := (significand_bounds hpos h).2
  have hunit : unitExponent n 1 = (n.log2 : Int) - 52 := by
    rw [unitExponent, log2Quotient_one hpos]
    omega
  have hscale : scaleByTwo n 1 (-((n.log2 : Int) - 52)) = (n * 2 ^ (52 - n.log2), 1) := by
    rw [scaleByTwo, if_pos (by omega)]
    congr 3
    omega
  have hround : ∀ m, roundHalfEven m 1 = m := by
    intro m
    simp [roundHalfEven, Nat.mod_one]
  rw [ofNat?, ofQuotient?, if_neg hpos]
  dsimp only
  rw [hunit, hscale]
  dsimp only
  rw [hround, if_neg (Nat.ne_of_lt hlt)]

end

/-- A number of at most 53 bits has a value, and is its whole part. -/
theorem ofNat?_of_lt {n : Nat} (h : n < 2 ^ 53) :
    ∃ x, ofNat? n = some x ∧ x.negative = false ∧ x.whole = n := by
  by_cases hpos : n = 0
  · subst hpos
    exact ⟨zero false, rfl, rfl, by decide +kernel⟩
  have hle := log2_le hpos h
  obtain ⟨hlow, hlt⟩ := significand_bounds hpos h
  rw [ofNat?_eq_ofParts? hpos h, ofParts?, dif_pos ⟨hlt, by omega, by omega, .inl hlow⟩]
  refine ⟨_, rfl, rfl, ?_⟩
  rw [whole, quotient, scaleByTwo]
  dsimp only
  split
  · next hexponent =>
    have hlog : n.log2 = 52 := by omega
    simp [hlog]
  · have hshift : (-((n.log2 : Int) - 52)).toNat = 52 - n.log2 := by omega
    rw [hshift, Nat.one_mul, Nat.mul_div_cancel _ (Nat.two_pow_pos _)]

theorem whole_of_ofNat? {n : Nat} {x : Binary64} (h : n < 2 ^ 53) (hx : ofNat? n = some x) :
    x.whole = n := by
  obtain ⟨y, hy, -, hwhole⟩ := ofNat?_of_lt h
  rwa [Option.some.inj (hx.symm.trans hy)]

theorem ofNumeral?_whole {n : Nat} (h : n < 2 ^ 64) : ofNumeral? ⟨false, n, 0⟩ = ofNat? n := by
  by_cases hpos : n = 0
  · subst hpos
    rfl
  have hcount := Digits.count_le h
  have hquotient : quotientOfNumeral ⟨false, n, 0⟩ = (n, 1) := by
    simp [quotientOfNumeral]
  have hleading : (Numeral.leading ⟨false, n, 0⟩) = (Digits.count n : Int) - 1 :=
    congrArg (· - 1) (Int.zero_add _)
  rw [ofNumeral?, hquotient, hleading, if_neg, if_neg (by omega)]
  · rfl
  · simp [hpos]
    omega

/-- Values of one sign are the same number only if they are equal. -/
theorem same_iff_eq {x y : Binary64} (h : x.negative = y.negative) : x.same y ↔ x = y := by
  constructor
  · intro hsame
    rw [same, Bool.or_eq_true, Bool.and_eq_true, beq_iff_eq, beq_iff_eq, beq_iff_eq] at hsame
    rcases hsame with ⟨hx, hy⟩ | heq
    · -- The significand of a zero is not full, so that its exponent is the least one.
      have hxe := x.full_or_least
      have hye := y.full_or_least
      rw [hx] at hxe
      rw [hy] at hye
      cases x
      cases y
      simp_all
    · exact heq
  · intro heq
    rw [heq, same, beq_self_eq_true, Bool.or_true]

end Binary64

namespace NumericLiteral

theorem radix?_of_isDigit {cs : List Char} (h : ∀ c ∈ cs, c.isDigit) : radix? cs = none := by
  unfold radix?
  split
  · next letter digits =>
    have hletter : letter.isDigit := h letter (by simp)
    split <;> first | rfl | exact absurd hletter (by decide)
  · rfl

/-- The decimal notation of a whole number of at most 53 bits is read as its value. -/
theorem value?_repr {n : Nat} (h : n < 2 ^ 53) : value? n.repr = Binary64.ofNat? n := by
  have hdigits : ∀ c ∈ Nat.toDigits 10 n, c.isDigit := fun _ hc => isDigit_of_mem_toDigits hc
  have hgaps : (Nat.toDigits 10 n).filter (· != '_') = Nat.toDigits 10 n := by
    refine List.filter_eq_self.mpr fun c hc => ?_
    have hne : c ≠ '_' := fun heq => absurd (hdigits c hc) (by rw [heq]; decide)
    exact bne_iff_ne.mpr hne
  have hmagnitude : magnitude? (Nat.toDigits 10 n) = Binary64.ofNat? n := by
    rw [magnitude?, radix?_of_isDigit hdigits, Numeral.ofText?_toDigits]
    exact Binary64.ofNumeral?_whole (Nat.lt_trans h (by decide))
  rw [value?, Nat.toList_repr, hgaps]
  split
  · next cs hminus => exact absurd (hdigits '-' (hminus ▸ List.mem_cons_self)) (by decide)
  · exact hmagnitude

end NumericLiteral

end DeclSchema
