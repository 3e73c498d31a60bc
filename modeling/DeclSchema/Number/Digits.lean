/-!
# Digits

The value of digits in a radix of at most sixteen, and the length of decimal
notation.
-/

namespace DeclSchema.Digits

/-- The value of a hexadecimal digit in either case. -/
def hexValue? (c : Char) : Option Nat :=
  if c.isDigit then
    some (c.toNat - '0'.toNat)
  else if 'a' ≤ c && c ≤ 'f' then
    some (c.toNat - 'a'.toNat + 10)
  else if 'A' ≤ c && c ≤ 'F' then
    some (c.toNat - 'A'.toNat + 10)
  else
    none

/-- The number that digits of a radix write, read on from the value before them. -/
def read? (radix : Nat) (value : Nat) : List Char → Option Nat
  | [] => some value
  | c :: cs =>
    match hexValue? c with
    | none => none
    | some digit => if digit < radix then read? radix (radix * value + digit) cs else none

/-- The number that a text of one digit or more writes. -/
def ofText? (radix : Nat) (cs : List Char) : Option Nat :=
  if cs.isEmpty then none else read? radix 0 cs

/-- The number of decimal digits of a number. Zero has one digit. -/
def count (n : Nat) : Nat :=
  (Nat.toDigits 10 n).length

end DeclSchema.Digits
