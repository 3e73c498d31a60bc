import DeclSchema.Token.Basic

/-!
# The longest token at the start of a text

Each function here measures, in characters, how far one class of token reaches
from the start of a text; a length of zero means that nothing of the class stands
there. All of them are greedy: no longer start of the text is in the class. `next`
picks the class from the first characters, and so gives the longest token, blank
run or comment that a non-empty text starts with.
-/

namespace DeclSchema.Pattern

/-- The white space that only separates tokens. -/
def isSeparator (c : Char) : Bool :=
  c == ' ' || c == '\t' || c == '\r' || c == '\n' || c == '\x0c'

/-- The letters are those of the Latin alphabet. -/
theorem isAlpha_iff {c : Char} :
    c.isAlpha ↔ ('A' ≤ c ∧ c ≤ 'Z') ∨ ('a' ≤ c ∧ c ≤ 'z') := by
  have hletter : c.isAlpha =
      (decide ('A' ≤ c ∧ c ≤ 'Z') || (decide ('a' ≤ c) && decide (c ≤ 'z'))) := rfl
  simp only [hletter, Bool.or_eq_true, Bool.and_eq_true, decide_eq_true_eq]

/-- The characters a word starts with. -/
def startsWord (c : Char) : Bool :=
  c.isAlpha || c == '_' || c == '$'

/-- The characters a word goes on with. -/
def continuesWord (c : Char) : Bool :=
  startsWord c || c.isDigit

/-- The length of the leading run of characters in a class. -/
def run (inClass : Char → Bool) (cs : List Char) : Nat :=
  (cs.takeWhile inClass).length

/-- A digit of a number, or the underscore that may stand between digits. -/
def isDigitOrGap (c : Char) : Bool :=
  c.isDigit || c == '_'

/-- A hexadecimal digit in either case. -/
def isHexDigit (c : Char) : Bool :=
  c.isDigit || ('a' ≤ c && c ≤ 'f') || ('A' ≤ c && c ≤ 'F')

/-- An exponent: a letter `e`, an optional sign and at least one digit. -/
def exponentLength : List Char → Nat
  | [] => 0
  | c :: cs =>
    if c == 'e' || c == 'E' then
      let sign := if cs.head? == some '+' || cs.head? == some '-' then 1 else 0
      match run Char.isDigit (cs.drop sign) with
      | 0 => 0
      | digits => 1 + sign + digits
    else
      0

/-- A point and the digits behind it, of which there may be none. -/
def fractionLength : List Char → Nat
  | '.' :: cs => 1 + run isDigitOrGap cs
  | _ => 0

/-- A decimal number that starts with a digit. -/
def decimalLength (cs : List Char) : Nat :=
  let whole := run isDigitOrGap cs
  let point := whole + fractionLength (cs.drop whole)
  point + exponentLength (cs.drop point)

/-- A decimal number that starts with its point, read from behind the point. -/
def pointedLength (cs : List Char) : Nat :=
  let digits := run isDigitOrGap cs
  digits + exponentLength (cs.drop digits)

/-- The digits, gaps included, that may follow `0` and a letter naming a radix. -/
def radixDigit? : Char → Option (Char → Bool)
  | 'x' | 'X' => some fun c => isHexDigit c || c == '_'
  | 'b' | 'B' => some fun c => c == '0' || c == '1' || c == '_'
  | 'o' | 'O' => some fun c => ('0' ≤ c && c ≤ '7') || c == '_'
  | _ => none

/-- A hexadecimal, binary or octal number; at least one digit or gap follows the
letter. -/
def radixLength : List Char → Nat
  | '0' :: letter :: cs =>
    match radixDigit? letter with
    | none => 0
    | some inClass =>
      match run inClass cs with
      | 0 => 0
      | digits => 2 + digits
  | _ => 0

/-- A number that starts with a digit, in the notation that reaches further. -/
def numberLength (cs : List Char) : Nat :=
  max (decimalLength cs) (radixLength cs)

/-- How far a quoted text reaches behind its opening quote, and whether it is
closed there. Ordinary characters and escapes (a backslash and any character but a
line feed) continue it; a bare line feed does only where `multiline` holds. -/
def quotedLength (quote : Char) (multiline : Bool) : List Char → Nat × Bool
  | [] => (0, false)
  | c :: cs =>
    if c = quote then
      (1, true)
    else if c = '\\' then
      match cs with
      | [] => (0, false)
      | escaped :: rest =>
        if escaped = '\n' then
          (0, false)
        else
          let (length, closed) := quotedLength quote multiline rest
          (length + 2, closed)
    else if c = '\n' && !multiline then
      (0, false)
    else
      let (length, closed) := quotedLength quote multiline cs
      (length + 1, closed)

/-- How far a block comment reaches behind its opening mark, up to and with the
first closing mark; `none` when it is never closed. -/
def commentLength? : List Char → Option Nat
  | [] => none
  | c :: cs =>
    if c = '*' && cs.head? == some '/' then
      some 2
    else
      (commentLength? cs).map (· + 1)

/-- Whether a closed block comment, given from behind its opening mark, documents
what follows it. The comment without any content does not. -/
def isDocumentation (cs : List Char) : Bool :=
  cs.head? == some '*' && cs.take 2 != ['*', '/']

/-- The quoted text, or the unknown text of an opening quote whose close is
missing. The length counts the opening quote. -/
def quoted (kind : TokenKind) (quote : Char) (multiline : Bool) (cs : List Char) :
    Option TokenKind × Nat :=
  let (length, closed) := quotedLength quote multiline cs
  (some (if closed then kind else .unknown), length + 1)

/-- What stands behind a slash: a line comment, a block comment, or nothing that
belongs to it. -/
def slashed : List Char → Option TokenKind × Nat
  | '/' :: cs => (none, 2 + run (· != '\n') cs)
  | '*' :: cs =>
    match commentLength? cs with
    | none => (some .unknown, 2)
    | some length => (if isDocumentation cs then some .docComment else none, 2 + length)
  | _ => (some .slash, 1)

/-- What stands behind a point: two more points, the digits of a number, or nothing
that belongs to it. -/
def pointed (cs : List Char) : Option TokenKind × Nat :=
  match cs with
  | '.' :: '.' :: _ => (some .ellipsis, 3)
  | c :: _ => if c.isDigit then (some .number, 1 + pointedLength cs) else (some .dot, 1)
  | [] => (some .dot, 1)

/-- The longest piece that the text `c :: cs` starts with, as its kind and its
length. No kind means that the piece only separates tokens. -/
def next (c : Char) (cs : List Char) : Option TokenKind × Nat :=
  if isSeparator c then
    (none, 1 + run isSeparator cs)
  else if startsWord c then
    (some .word, 1 + run continuesWord cs)
  else if c.isDigit then
    (some .number, numberLength (c :: cs))
  else
    match c with
    | '"' => quoted .string '"' false cs
    | '\x27' => quoted .string '\x27' false cs
    | '\x60' => quoted .template '\x60' true cs
    | '/' => slashed cs
    | '.' => pointed cs
    | '=' => if cs.head? == some '>' then (some .arrow, 2) else (some .eq, 1)
    | c => (some ((TokenKind.ofMark? c).getD .unknown), 1)

end DeclSchema.Pattern
