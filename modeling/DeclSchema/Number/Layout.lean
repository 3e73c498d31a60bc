import DeclSchema.Number.Numeral

/-!
# Decimal notation

How a numeral is written: with all its places, or as digits with a power of ten
behind them. What differs between the formats that hold numbers is a `Layout`.
-/

namespace DeclSchema

/-- Which of two nearest numerals is written for a value half way between them. -/
inductive Tie where
  /-- The one with an even last digit. -/
  | even
  /-- The greater one. -/
  | up
deriving DecidableEq, Repr

/-- The decisions of a format about its numbers. -/
structure Layout where
  tie : Tie
  /-- Whether a number is written with all its places, by the exponent of its first
  digit. -/
  positional : Int → Bool
  /-- What is written behind a whole number with all its places. -/
  wholeSuffix : String

namespace Numeral

/-- As many zeros as an exponent says; none when it is negative. -/
def zeros (count : Int) : List Char :=
  List.replicate count.toNat '0'

/-- The digits of a number with all their places, without a sign. -/
def positionalText (wholeSuffix : String) (n : Numeral) : List Char :=
  let digits := Nat.toDigits 10 n.digits
  let point := digits.length + n.exponent
  if 0 ≤ n.exponent then
    digits ++ zeros n.exponent ++ wholeSuffix.toList
  else if 0 < point then
    digits.take point.toNat ++ '.' :: digits.drop point.toNat
  else
    '0' :: '.' :: zeros (-point) ++ digits

/-- The digits with a point behind the first one, and the power of ten, without a
sign. The power has a sign of its own. -/
def scientificText (n : Numeral) : List Char :=
  let digits := Nat.toDigits 10 n.digits
  let mantissa :=
    match digits with
    | [] | [_] => digits
    | first :: rest => first :: '.' :: rest
  let exponent := n.leading
  let sign := if exponent < 0 then '-' else '+'
  mantissa ++ 'e' :: sign :: Nat.toDigits 10 exponent.natAbs

/-- A numeral in a given layout. -/
def toText (layout : Layout) (n : Numeral) : String :=
  let magnitude :=
    if layout.positional n.leading then positionalText layout.wholeSuffix n
    else scientificText n
  String.ofList (if n.negative then '-' :: magnitude else magnitude)

end Numeral

end DeclSchema
