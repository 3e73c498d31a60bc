import DeclSchema.Number.Binary64
import DeclSchema.Number.Layout

/-!
# The fewest digits that read back

A value is written with the fewest digits that are read back as this value, and of
several such numerals as the one nearest to it. For each number of digits only the
two numerals next to the value can be nearest; the first number of digits with one
that reads back is taken.
-/

namespace DeclSchema.Binary64

-- Powers of natural numbers are those of the core library here, whatever is imported. The
-- type of an exponent is written out for this.
attribute [local instance (1100)] instPowNat

/-- The exponent of the first decimal digit of a value above zero. The value is at
least `10 ^ -324`, so that enough places behind the point show a digit. -/
def leadingDigit (x : Binary64) : Int :=
  let (num, den) := x.quotient
  Digits.count (num * 10 ^ (340 : Nat) / den) - 341

/-- Whether a numeral is read back as a value. -/
def readsBack (x : Binary64) (n : Numeral) : Bool :=
  ofNumeral? n == some x

/-- A value in units of a power of ten, as a fraction. -/
def inUnits (x : Binary64) (unit : Int) : Nat × Nat :=
  if 0 ≤ unit then (x.quotient.1, x.quotient.2 * 10 ^ unit.toNat)
  else (x.quotient.1 * 10 ^ (-unit).toNat, x.quotient.2)

/-- The numeral of a unit next to a value and not beyond it. -/
def below (x : Binary64) (unit : Int) : Numeral :=
  ⟨x.negative, (x.inUnits unit).1 / (x.inUnits unit).2, unit⟩

/-- The numeral of a unit next to a value and beyond it. -/
def above (x : Binary64) (unit : Int) : Numeral :=
  ⟨x.negative, (x.inUnits unit).1 / (x.inUnits unit).2 + 1, unit⟩

/-- The nearer one of the two numerals of a unit next to a value. -/
def nearer (tie : Tie) (x : Binary64) (unit : Int) : Numeral :=
  let (num, den) := x.inUnits unit
  let twice := 2 * (num % den)
  if twice < den then
    x.below unit
  else if den < twice then
    x.above unit
  else
    match tie with
    | .up => x.above unit
    | .even => if num / den % 2 = 0 then x.below unit else x.above unit

/-- The numeral of a unit that is nearest to a value, if one is read back as the value. -/
def nearest? (tie : Tie) (x : Binary64) (unit : Int) : Option Numeral :=
  match readsBack x (x.below unit), readsBack x (x.above unit) with
  | true, true => some (x.nearer tie unit)
  | true, false => some (x.below unit)
  | false, true => some (x.above unit)
  | false, false => none

/-- The numeral of `count` digits that is nearest to a value, if it is read back as
the value. -/
def withDigits? (tie : Tie) (x : Binary64) (count : Nat) : Option Numeral :=
  x.nearest? tie (x.leadingDigit - count + 1)

/-- The number of digits behind which every value's decimal expansion ends. -/
def maxDigits : Nat := 800

/-- The numeral with the fewest digits that is read back as a value. -/
def shortest (tie : Tie) (x : Binary64) : Numeral :=
  if x.significand = 0 then
    ⟨x.negative, 0, 0⟩
  else
    (((List.range maxDigits).findSome? fun i => withDigits? tie x (i + 1)).getD default).trim

/-- A value in a given layout, with the fewest digits that read back. -/
def toText (layout : Layout) (x : Binary64) : String :=
  (x.shortest layout.tie).toText layout

end DeclSchema.Binary64
