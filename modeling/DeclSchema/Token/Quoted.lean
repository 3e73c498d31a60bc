import DeclSchema.Number.Digits

/-!
# The value of a quoted literal

`unquote` drops the quotes of a string literal and decodes its escapes.
-/

namespace DeclSchema

namespace Quoted

/-- The character with a given code, unless the code is half of a surrogate pair or
lies beyond the last character. -/
def charOfCode? (code : Nat) : Option Char :=
  if h : code.isValidChar then some (Char.ofNatAux code h) else none

/-- The character that the text behind `\u` names: one to four hexadecimal digits,
with a plus sign allowed as the first of the four characters. -/
def unicodeEscape? : List Char → Option Char
  | '+' :: digits => Digits.ofText? 16 digits >>= charOfCode?
  | digits => Digits.ofText? 16 digits >>= charOfCode?

/-- The character that a backslash and one more character stand for. -/
def simpleEscape : Char → Char
  | 'n' => '\n'
  | 'r' => '\r'
  | 't' => '\t'
  | '0' => '\x00'
  | c => c

/-- The text for `\u` and the characters behind it. Where they name no character it is
kept as it is written. -/
def unicodeText (digits : List Char) : List Char :=
  match unicodeEscape? digits with
  | some c => [c]
  | none => '\\' :: 'u' :: digits

/-- Decodes the escapes of a text. Up to four characters behind `\u` belong to it. A
backslash at the end stands for itself. -/
def decode : List Char → List Char
  | [] => []
  | c :: rest =>
    if c = '\\' then
      match rest with
      | [] => ['\\']
      | escaped :: rest =>
        if escaped = 'u' then
          match rest with
          | a :: b :: c :: d :: rest => unicodeText [a, b, c, d] ++ decode rest
          | digits => unicodeText digits
        else
          simpleEscape escaped :: decode rest
    else
      c :: decode rest

/-- A text of at least two bytes without its first and its last character, which
are the quotes of a literal. -/
def stripQuotes (cs : List Char) : List Char :=
  match cs with
  | [] | [_] => cs
  | _ :: rest => rest.dropLast

end Quoted

/-- The value of a quoted literal. -/
def unquote (literal : String) : String :=
  String.ofList (Quoted.decode (Quoted.stripQuotes literal.toList))

end DeclSchema
