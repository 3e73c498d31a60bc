import DeclSchema.Json.Basic

/-!
# Writing JSON

A value as text, on one line or over indented lines.
-/

namespace DeclSchema.Json

/-- JSON texts hold numbers with all their places when the first digit is worth at
least `10 ^ -5` and at most `10 ^ 15`. Whole ones get a zero behind the point. A value
half way between two numerals is written with an even last digit. -/
def layout : Layout :=
  ⟨.even, fun exponent => -5 ≤ exponent && exponent ≤ 15, ".0"⟩

/-- The last two digits of the escape of a control character. -/
def controlDigits (code : Nat) : List Char :=
  [Nat.digitChar (code / 16), Nat.digitChar (code % 16)]

/-- A character as it stands in a string. -/
def escape (c : Char) : List Char :=
  match c with
  | '"' => ['\\', '"']
  | '\\' => ['\\', '\\']
  | '\x08' => ['\\', 'b']
  | '\x0c' => ['\\', 'f']
  | '\n' => ['\\', 'n']
  | '\r' => ['\\', 'r']
  | '\t' => ['\\', 't']
  | c => if c.toNat < 0x20 then '\\' :: 'u' :: '0' :: '0' :: controlDigits c.toNat else [c]

/-- A text in quotes. -/
def quote (text : String) : String :=
  String.ofList ('"' :: text.toList.flatMap escape ++ ['"'])

/-- A string, or the name of a field. What has no text is written as an empty one. -/
def stringText (text : Option String) : String :=
  quote (text.getD "")

/-- A value on one line, without white space. -/
def compact : Json → String
  | .null => "null"
  | .bool value => if value then "true" else "false"
  | .number value => value.toText layout
  | .string text => stringText text
  | .array items => "[" ++ ",".intercalate (compactItems items) ++ "]"
  | .object fields => "\x7b" ++ ",".intercalate (compactFields fields) ++ "\x7d"
where
  /-- The items of an array. -/
  compactItems : List Json → List String
    | [] => []
    | item :: rest => compact item :: compactItems rest
  /-- The fields of an object. -/
  compactFields : List (Option String × Json) → List String
    | [] => []
    | (name, value) :: rest => (stringText name ++ ":" ++ compact value) :: compactFields rest

/-- A new line of a given depth. -/
def newLine (depth : Nat) : String :=
  String.ofList ('\n' :: List.replicate (2 * depth) ' ')

/-- A value over lines of their own for each item and field, indented by two spaces. A
value without content stays on its line. -/
def pretty (depth : Nat) : Json → String
  | .array [] => "[]"
  | .array items =>
    "[" ++ ",".intercalate (prettyItems (depth + 1) items) ++ newLine depth ++ "]"
  | .object [] => "\x7b\x7d"
  | .object fields =>
    "\x7b" ++ ",".intercalate (prettyFields (depth + 1) fields) ++ newLine depth ++ "\x7d"
  | value => compact value
where
  /-- The items of an array, each on its line. -/
  prettyItems (depth : Nat) : List Json → List String
    | [] => []
    | item :: rest => (newLine depth ++ pretty depth item) :: prettyItems depth rest
  /-- The fields of an object, each on its line. -/
  prettyFields (depth : Nat) : List (Option String × Json) → List String
    | [] => []
    | (name, value) :: rest =>
      (newLine depth ++ stringText name ++ ": " ++ pretty depth value) :: prettyFields depth rest

end DeclSchema.Json
