import DeclSchema.Json.Basic

/-!
# Reading JSON

`Json.ofText?` reads a text that is one JSON value with white space around it, and
nothing else. Each function here reads one construct from the start of a text and
gives what is left of it.
-/

namespace DeclSchema.Json

/-- The white space of JSON. -/
def isSpace (c : Char) : Bool :=
  c == ' ' || c == '\n' || c == '\t' || c == '\r'

/-- What is left behind leading white space. -/
def skipSpace (cs : List Char) : List Char :=
  cs.dropWhile isSpace

/-- A part of a string: a character, or an escape that names half of a surrogate
pair. -/
inductive StringUnit where
  | char (c : Char)
  | half (code : Nat)

/-- What four hexadecimal digits in an escape name. -/
def unitOfCode (code : Nat) : StringUnit :=
  if h : code.isValidChar then .char (Char.ofNatAux code h) else .half code

/-- The character that a backslash and one more character name. -/
def simpleEscape? : Char → Option Char
  | '"' => some '"'
  | '\\' => some '\\'
  | '/' => some '/'
  | 'b' => some '\x08'
  | 'f' => some '\x0c'
  | 'n' => some '\n'
  | 'r' => some '\r'
  | 't' => some '\t'
  | _ => none

/-- Reads a string from behind its opening quote, up to and with its closing one. -/
def readUnits? : List Char → Option (List StringUnit × List Char)
  | [] => none
  | '"' :: cs => some ([], cs)
  | '\\' :: 'u' :: a :: b :: c :: d :: cs =>
    match Digits.ofText? 16 [a, b, c, d], readUnits? cs with
    | some code, some (units, rest) => some (unitOfCode code :: units, rest)
    | _, _ => none
  | '\\' :: c :: cs =>
    match simpleEscape? c, readUnits? cs with
    | some escaped, some (units, rest) => some (.char escaped :: units, rest)
    | _, _ => none
  | c :: cs =>
    if c = '\\' || c.toNat < 0x20 then
      none
    else
      (readUnits? cs).map fun (units, rest) => (.char c :: units, rest)

/-- The character that two halves of a surrogate pair name. -/
def pair? (high low : Nat) : Option Char :=
  if 0xD800 ≤ high && high ≤ 0xDBFF && 0xDC00 ≤ low && low ≤ 0xDFFF then
    some (Char.ofNat (0x10000 + (high - 0xD800) * 0x400 + (low - 0xDC00)))
  else
    none

/-- The text of the parts of a string, unless half of a pair stands alone. -/
def textOfUnits? : List StringUnit → Option (List Char)
  | [] => some []
  | .char c :: rest => (textOfUnits? rest).map (c :: ·)
  | .half high :: .half low :: rest =>
    match pair? high low, textOfUnits? rest with
    | some c, some cs => some (c :: cs)
    | _, _ => none
  | .half _ :: _ => none

/-- Reads a string from behind its opening quote. -/
def readString? (cs : List Char) : Option (Option String × List Char) :=
  (readUnits? cs).map fun (units, rest) => ((textOfUnits? units).map String.ofList, rest)

/-- The whole part of a number: a zero, or digits that start with another digit. -/
def wholeLength? : List Char → Option Nat
  | [] => none
  | c :: cs =>
    if c = '0' then
      if cs.head?.any Char.isDigit then none else some 1
    else if c.isDigit then
      some (1 + (cs.takeWhile Char.isDigit).length)
    else
      none

/-- A point with the digits behind it, or nothing. -/
def fractionLength? : List Char → Option Nat
  | '.' :: cs =>
    match (cs.takeWhile Char.isDigit).length with
    | 0 => none
    | digits => some (1 + digits)
  | _ => some 0

/-- An exponent, or nothing. -/
def exponentLength? : List Char → Option Nat
  | [] => some 0
  | c :: cs =>
    if c = 'e' || c = 'E' then
      let sign := if cs.head? == some '+' || cs.head? == some '-' then 1 else 0
      match ((cs.drop sign).takeWhile Char.isDigit).length with
      | 0 => none
      | digits => some (1 + sign + digits)
    else
      some 0

/-- Reads a number without its sign. -/
def readMagnitude? (cs : List Char) : Option (Numeral × List Char) := do
  let whole ← wholeLength? cs
  let fraction ← fractionLength? (cs.drop whole)
  let exponent ← exponentLength? (cs.drop (whole + fraction))
  let length := whole + fraction + exponent
  let numeral ← Numeral.ofText? (cs.take length)
  return (numeral, cs.drop length)

/-- Reads a number. -/
def readNumber? (cs : List Char) : Option (Json × List Char) :=
  match cs with
  | '-' :: cs => (readMagnitude? cs).map fun (n, rest) => (.number n.negate, rest)
  | cs => (readMagnitude? cs).map fun (n, rest) => (.number n, rest)

/-- Reads a given word as a value. -/
def readWord? (word : String) (value : Json) (cs : List Char) : Option (Json × List Char) :=
  if word.toList.isPrefixOf cs then some (value, cs.drop word.length) else none

mutual

/-- Reads a value behind white space. `fuel` bounds the calls inside one another. -/
def readValue? (fuel : Nat) (cs : List Char) : Option (Json × List Char) :=
  match fuel with
  | 0 => none
  | fuel + 1 =>
    match skipSpace cs with
    | [] => none
    | c :: rest =>
      match c with
      | 'n' => readWord? "null" .null (c :: rest)
      | 't' => readWord? "true" (.bool true) (c :: rest)
      | 'f' => readWord? "false" (.bool false) (c :: rest)
      | '"' => (readString? rest).map fun (text, rest) => (.string text, rest)
      | '[' =>
        match skipSpace rest with
        | ']' :: rest => some (.array [], rest)
        | rest => (readItems? fuel rest).map fun (items, rest) => (.array items, rest)
      | '{' =>
        match skipSpace rest with
        | '}' :: rest => some (.object [], rest)
        | rest => (readFields? fuel rest).map fun (fields, rest) => (.object fields, rest)
      | _ => readNumber? (c :: rest)

/-- Reads the items of an array, up to and with its closing bracket. -/
def readItems? (fuel : Nat) (cs : List Char) : Option (List Json × List Char) :=
  match fuel with
  | 0 => none
  | fuel + 1 =>
    match readValue? fuel cs with
    | none => none
    | some (item, rest) =>
      match skipSpace rest with
      | ',' :: rest => (readItems? fuel rest).map fun (items, rest) => (item :: items, rest)
      | ']' :: rest => some ([item], rest)
      | _ => none

/-- Reads the fields of an object, up to and with its closing brace. -/
def readFields? (fuel : Nat) (cs : List Char) :
    Option (List (Option String × Json) × List Char) :=
  match fuel with
  | 0 => none
  | fuel + 1 =>
    match skipSpace cs with
    | '"' :: rest =>
      match readString? rest with
      | none => none
      | some (name, rest) =>
        match skipSpace rest with
        | ':' :: rest =>
          match readValue? fuel rest with
          | none => none
          | some (value, rest) =>
            match skipSpace rest with
            | ',' :: rest =>
              (readFields? fuel rest).map fun (fields, rest) => ((name, value) :: fields, rest)
            | '}' :: rest => some ([(name, value)], rest)
            | _ => none
        | _ => none
    | _ => none

end

/-- The value of a JSON text. Every call inside another is behind a character that
the outer one has read, or belongs to an array or object whose bracket it has. -/
def ofText? (text : String) : Option Json :=
  let cs := text.toList
  match readValue? (2 * cs.length + 2) cs with
  | some (value, rest) => if (skipSpace rest).isEmpty then some value else none
  | none => none

end DeclSchema.Json
