import DeclSchema.Span

/-!
# Tokens of declaration source text

A lexeme is a token kind with the text it was read from and the span of that text.
Keywords are not kinds of their own: nearly all of them are words with a meaning
only in some places, so a reader compares the text of a word instead.
-/

namespace DeclSchema

/-- What a lexeme is. `unknown` stands for text that no rule covers. -/
inductive TokenKind where
  | docComment
  | word
  | string
  | template
  | number
  | lBrace
  | rBrace
  | lParen
  | rParen
  | lBracket
  | rBracket
  | lt
  | gt
  | semicolon
  | colon
  | comma
  | dot
  | ellipsis
  | question
  | pipe
  | amp
  | eq
  | arrow
  | minus
  | plus
  | star
  | slash
  | bang
  | atSign
  | hash
  | percent
  | caret
  | tilde
  | unknown
deriving DecidableEq, Repr, Inhabited

namespace TokenKind

/-- The name of a token kind. -/
def name : TokenKind → String
  | .docComment => "DocComment"
  | .word => "Word"
  | .string => "String"
  | .template => "Template"
  | .number => "Number"
  | .lBrace => "LBrace"
  | .rBrace => "RBrace"
  | .lParen => "LParen"
  | .rParen => "RParen"
  | .lBracket => "LBracket"
  | .rBracket => "RBracket"
  | .lt => "Lt"
  | .gt => "Gt"
  | .semicolon => "Semicolon"
  | .colon => "Colon"
  | .comma => "Comma"
  | .dot => "Dot"
  | .ellipsis => "Ellipsis"
  | .question => "Question"
  | .pipe => "Pipe"
  | .amp => "Amp"
  | .eq => "Eq"
  | .arrow => "Arrow"
  | .minus => "Minus"
  | .plus => "Plus"
  | .star => "Star"
  | .slash => "Slash"
  | .bang => "Bang"
  | .atSign => "At"
  | .hash => "Hash"
  | .percent => "Percent"
  | .caret => "Caret"
  | .tilde => "Tilde"
  | .unknown => "Unknown"

/-- The kind of a punctuation mark of one character. -/
def ofMark? : Char → Option TokenKind
  | '{' => some .lBrace
  | '}' => some .rBrace
  | '(' => some .lParen
  | ')' => some .rParen
  | '[' => some .lBracket
  | ']' => some .rBracket
  | '<' => some .lt
  | '>' => some .gt
  | ';' => some .semicolon
  | ':' => some .colon
  | ',' => some .comma
  | '.' => some .dot
  | '?' => some .question
  | '|' => some .pipe
  | '&' => some .amp
  | '=' => some .eq
  | '-' => some .minus
  | '+' => some .plus
  | '*' => some .star
  | '/' => some .slash
  | '!' => some .bang
  | '@' => some .atSign
  | '#' => some .hash
  | '%' => some .percent
  | '^' => some .caret
  | '~' => some .tilde
  | _ => none

/-- Whether a token opens a round, square or curly group. -/
def opens : TokenKind → Bool
  | .lBrace | .lParen | .lBracket => true
  | _ => false

/-- Whether a token closes a round, square or curly group. -/
def closes : TokenKind → Bool
  | .rBrace | .rParen | .rBracket => true
  | _ => false

theorem closes_eq_false_of_opens {kind : TokenKind} (h : kind.opens) : kind.closes = false := by
  cases kind <;> simp_all [opens, closes]

theorem not_opens_of_closes {kind : TokenKind} (h : kind.closes) : ¬ kind.opens := by
  intro hopens
  rw [closes_eq_false_of_opens hopens] at h
  cases h

end TokenKind

/-- A token with its text and where the text stands in the source. -/
structure Lexeme where
  kind : TokenKind
  text : String
  span : Span
deriving DecidableEq, Repr, Inhabited

end DeclSchema
