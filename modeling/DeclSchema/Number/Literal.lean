import DeclSchema.Number.Binary64

/-!
# Numeric literals

The value of a numeric literal in decimal, hexadecimal, binary or octal notation.
-/

namespace DeclSchema.NumericLiteral

/-- The radix that the first two characters of a literal announce. -/
def radix? : List Char → Option (Nat × List Char)
  | '0' :: letter :: digits =>
    match letter with
    | 'x' | 'X' => some (16, digits)
    | 'b' | 'B' => some (2, digits)
    | 'o' | 'O' => some (8, digits)
    | _ => none
  | _ => none

-- The power is that of the core library, whatever is imported, so its exponent has a type.
attribute [local instance (1100)] instPowNat in
/-- The value of a literal without gaps and sign. In another radix than ten it is a
whole number of at most 64 bits. -/
def magnitude? (cs : List Char) : Option Binary64 :=
  match radix? cs with
  | some (radix, digits) =>
    match Digits.ofText? radix digits with
    | some n => if n < 2 ^ (64 : Nat) then Binary64.ofNat? n else none
    | none => none
  | none => Numeral.ofText? cs >>= Binary64.ofNumeral?

/-- The value of a literal: underscores are gaps between digits, and a minus sign may
stand before it. There is no value when it lies beyond the greatest finite one. -/
def value? (text : String) : Option Binary64 :=
  match text.toList.filter (· != '_') with
  | '-' :: cs => (magnitude? cs).map Binary64.negate
  | cs => magnitude? cs

end DeclSchema.NumericLiteral
