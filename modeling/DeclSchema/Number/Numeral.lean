import DeclSchema.Number.Digits

/-!
# Decimal numerals

A numeral is a sign and a whole number of units, the unit being a power of ten. It is
what decimal notation says before anything is rounded, and what is laid out as
decimal notation after digits were chosen.
-/

namespace DeclSchema

/-- The decimal number `±digits · 10 ^ exponent`. A zero has a sign too. -/
structure Numeral where
  negative : Bool
  digits : Nat
  exponent : Int
deriving DecidableEq, Repr, Inhabited

namespace Numeral

/-- The numeral with the other sign. -/
def negate (n : Numeral) : Numeral :=
  { n with negative := !n.negative }

/-- Reads an exponent, which may be left out: a letter `e`, a sign or none, digits. -/
def exponentOfText? : List Char → Option Int
  | [] => some 0
  | c :: cs =>
    if c = 'e' || c = 'E' then
      match cs with
      | '-' :: digits => (Digits.ofText? 10 digits).map fun n => -(n : Int)
      | '+' :: digits => (Digits.ofText? 10 digits).map Int.ofNat
      | digits => (Digits.ofText? 10 digits).map Int.ofNat
    else
      none

/-- Reads a numeral without a sign: digits with a point before, in or behind them,
and an exponent. There is at least one digit. -/
def ofText? (cs : List Char) : Option Numeral :=
  let whole := cs.takeWhile Char.isDigit
  let behind := cs.dropWhile Char.isDigit
  let (fraction, behind) :=
    match behind with
    | '.' :: rest => (rest.takeWhile Char.isDigit, rest.dropWhile Char.isDigit)
    | _ => ([], behind)
  match Digits.ofText? 10 (whole ++ fraction), exponentOfText? behind with
  | some digits, some exponent => some ⟨false, digits, exponent - fraction.length⟩
  | _, _ => none

/-- Takes zeros off the end of the digits, at most `count` of them. -/
def trimUpTo : Nat → Numeral → Numeral
  | 0, n => n
  | count + 1, n =>
    if n.digits ≠ 0 && n.digits % 10 = 0 then
      trimUpTo count ⟨n.negative, n.digits / 10, n.exponent + 1⟩
    else
      n

/-- The same number with as few digits as possible. -/
def trim (n : Numeral) : Numeral :=
  trimUpTo (Digits.count n.digits) n

/-- The exponent of the first digit. -/
def leading (n : Numeral) : Int :=
  n.exponent + Digits.count n.digits - 1

end Numeral

end DeclSchema
