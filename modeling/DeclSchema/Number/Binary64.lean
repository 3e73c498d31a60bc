import DeclSchema.Number.Numeral

/-!
# Finite numbers of 64 bits

The finite values of the 64-bit binary format: a sign, a significand of at most 53
bits and a power of two. Numerals and fractions are rounded to the nearest value; of
two nearest ones, to the one with the even significand.
-/

namespace DeclSchema

-- Powers of natural numbers are those of the core library here, whatever is imported. The
-- type of an exponent is written out for this.
attribute [local instance (1100)] instPowNat

/-- A finite value `±significand · 2 ^ exponent` of the 64-bit binary format. Every
value has one form: the significand has all its 53 bits unless the exponent is the
least one. -/
structure Binary64 where
  negative : Bool
  significand : Nat
  exponent : Int
  significand_lt : significand < 2 ^ (53 : Nat)
  least_le : -1074 ≤ exponent
  le_greatest : exponent ≤ 971
  full_or_least : 2 ^ (52 : Nat) ≤ significand ∨ exponent = -1074
deriving DecidableEq, Repr

namespace Binary64

/-- The zero with a given sign. -/
def zero (negative : Bool) : Binary64 where
  negative := negative
  significand := 0
  exponent := -1074
  significand_lt := by decide
  least_le := by decide
  le_greatest := by decide
  full_or_least := Or.inr rfl

instance : Inhabited Binary64 := ⟨zero false⟩

/-- The value with the other sign. -/
def negate (x : Binary64) : Binary64 :=
  { x with negative := !x.negative }

/-- Whether two values are the same number. The two zeros are. -/
def same (x y : Binary64) : Bool :=
  (x.significand == 0 && y.significand == 0) || x == y

/-- The value of given parts, if they are in range. -/
def ofParts? (negative : Bool) (significand : Nat) (exponent : Int) : Option Binary64 :=
  if h : significand < 2 ^ (53 : Nat) ∧ -1074 ≤ exponent ∧ exponent ≤ 971 ∧
      (2 ^ (52 : Nat) ≤ significand ∨ exponent = -1074) then
    some ⟨negative, significand, exponent, h.1, h.2.1, h.2.2.1, h.2.2.2⟩
  else
    none

/-- A quotient rounded to the nearest whole number; a half goes to the even one. -/
def roundHalfEven (num den : Nat) : Nat :=
  let quotient := num / den
  let twice := 2 * (num % den)
  if den < twice || (twice == den && quotient % 2 == 1) then quotient + 1 else quotient

/-- A fraction scaled by a power of two, as a fraction again. -/
def scaleByTwo (num den : Nat) (power : Int) : Nat × Nat :=
  if 0 ≤ power then (num * 2 ^ power.toNat, den) else (num, den * 2 ^ (-power).toNat)

/-- The greatest power of two that does not exceed a fraction above zero. -/
def log2Quotient (num den : Nat) : Int :=
  let guess : Int := num.log2 - den.log2
  let (n, d) := scaleByTwo num den (-guess)
  if d ≤ n then guess else guess - 1

/-- The power of two of the last bit that a value near a fraction has. -/
def unitExponent (num den : Nat) : Int :=
  max (log2Quotient num den - 52) (-1074)

/-- The value nearest to the fraction `num / den`, unless it lies beyond the greatest
value. -/
def ofQuotient? (negative : Bool) (num den : Nat) : Option Binary64 :=
  if num = 0 then
    some (zero negative)
  else
    let exponent := unitExponent num den
    let (n, d) := scaleByTwo num den (-exponent)
    let significand := roundHalfEven n d
    if significand = 2 ^ (53 : Nat) then
      ofParts? negative (2 ^ (52 : Nat)) (exponent + 1)
    else
      ofParts? negative significand exponent

/-- The value nearest to a whole number. -/
def ofNat? (n : Nat) : Option Binary64 :=
  ofQuotient? false n 1

/-- A numeral's magnitude as a fraction. -/
def quotientOfNumeral (n : Numeral) : Nat × Nat :=
  if 0 ≤ n.exponent then (n.digits * 10 ^ n.exponent.toNat, 1)
  else (n.digits, 10 ^ (-n.exponent).toNat)

/-- The value nearest to a numeral, unless it lies beyond the greatest value. Numerals
of a magnitude far outside the range are told by their first digit's place, without
working out the power of ten. -/
def ofNumeral? (n : Numeral) : Option Binary64 :=
  if n.digits = 0 || n.leading < -330 then
    some (zero n.negative)
  else if 310 < n.leading then
    none
  else
    let (num, den) := quotientOfNumeral n
    ofQuotient? n.negative num den

/-- A value's magnitude as a fraction. -/
def quotient (x : Binary64) : Nat × Nat :=
  scaleByTwo x.significand 1 x.exponent

end Binary64

end DeclSchema
