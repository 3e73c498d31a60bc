import DeclSchema.Parser.Basic

/-!
# Text that is passed over

Bodies, initialisers, decorators and everything malformed are not read but measured:
each function here says how many of the tokens ahead belong to such a text. All of
them keep count of the groups that are open, and none looks further than one token
behind what it measures.
-/

namespace DeclSchema.Parser

/-- The words that begin a statement when they start a line. -/
def statementWords : List String :=
  ["abstract", "class", "const", "declare", "enum", "export", "function", "import",
    "interface", "let", "module", "namespace", "type", "var"]

/-- A group in round, square or curly brackets, with `depth` groups open. It ends
where no group is open any more; of what opens none, a single token is measured. -/
def groupLength (depth : Nat) : List Token → Nat
  | [] => 0
  | token :: rest =>
    let depth :=
      if token.kind.opens then depth + 1 else if token.kind.closes then depth - 1 else depth
    if depth = 0 then 1 else 1 + groupLength depth rest

/-- A statement that nothing is made of, with `depth` groups open. It ends behind a
semicolon or a block, before a brace that closes the block around it, and before a
line that starts with a statement word; `first` holds at its first token, where the
last rule does not apply. -/
def statementLength (first : Bool) (depth : Nat) : List Token → Nat
  | [] => 0
  | token :: rest =>
    if depth = 0 && !first && token.newlineBefore && token.word?.any statementWords.contains then
      0
    else if token.kind.opens then
      1 + statementLength false (depth + 1) rest
    else if depth = 0 then
      match token.kind with
      | .rBrace => 0
      | .semicolon => 1
      | _ => 1 + statementLength false 0 rest
    else if token.kind.closes then
      if depth = 1 && token.kind = .rBrace then
        1 + if rest.head?.any (·.kind == .semicolon) then 1 else 0
      else
        1 + statementLength false (depth - 1) rest
    else
      1 + statementLength false depth rest

/-- What is left of a malformed member, with `depth` groups open: up to and with a
semicolon or comma, or up to the brace that closes the list of members. -/
def malformedLength (depth : Nat) : List Token → Nat
  | [] => 0
  | token :: rest =>
    if token.kind.opens then
      1 + malformedLength (depth + 1) rest
    else if depth = 0 then
      match token.kind with
      | .rBrace => 0
      | .semicolon | .comma => 1
      | _ => 1 + malformedLength 0 rest
    else if token.kind.closes then
      1 + malformedLength (depth - 1) rest
    else
      1 + malformedLength depth rest

/-- An initial value, with `depth` groups open: up to a token that ends it, a closing
bracket that it does not open, or a new line. A line that starts with a point goes
on with the value, and at the `first` token the line does not matter. -/
def initializerLength (ends : TokenKind → Bool) (first : Bool) (depth : Nat) :
    List Token → Nat
  | [] => 0
  | token :: rest =>
    if depth = 0 &&
        (ends token.kind || (!first && token.newlineBefore && token.kind != .dot)) then
      0
    else if token.kind.opens then
      1 + initializerLength ends false (depth + 1) rest
    else if token.kind.closes then
      if depth = 0 then 0 else 1 + initializerLength ends false (depth - 1) rest
    else
      1 + initializerLength ends false depth rest

/-- Whether a token ends the type a function returns. Where a body may follow, its
opening brace does too. -/
def endsReturnType (withBody : Bool) (kind : TokenKind) : Bool :=
  match kind with
  | .semicolon | .comma | .rBrace => true
  | .lBrace => withBody
  | _ => false

/-- The type a function returns, passed over, with `depth` groups open; angle brackets
count as groups. It ends before a token that ends it, and before a new line unless
that is its `first` token. -/
def returnTypeLength (withBody : Bool) (first : Bool) (depth : Nat) : List Token → Nat
  | [] => 0
  | token :: rest =>
    if depth = 0 &&
        (endsReturnType withBody token.kind || (!first && token.newlineBefore)) then
      0
    else if token.kind.opens || token.kind = .lt then
      1 + returnTypeLength withBody false (depth + 1) rest
    else if token.kind.closes || token.kind = .gt then
      1 + returnTypeLength withBody false (depth - 1) rest
    else
      1 + returnTypeLength withBody false depth rest

/-- Words with points between them. A point behind the last word belongs to them. -/
def dottedLength : List Token → Nat
  | [] => 0
  | [token] => if token.kind = .word then 1 else 0
  | token :: point :: rest =>
    if token.kind = .word then
      if point.kind = .dot then 2 + dottedLength rest else 1
    else
      0

/-- A decorator: an at sign, a dotted name and a group in round brackets. -/
def decoratorLength : List Token → Nat
  | [] => 0
  | token :: rest =>
    if token.kind = .atSign then
      let name := dottedLength rest
      let behind := rest.drop name
      1 + name + if behind.head?.any (·.kind == .lParen) then groupLength 0 behind else 0
    else
      0

/-- At most `count` decorators. -/
def decoratorsUpTo : Nat → List Token → Nat
  | 0, _ => 0
  | count + 1, tokens =>
    match decoratorLength tokens with
    | 0 => 0
    | length => length + decoratorsUpTo count (tokens.drop length)

/-- The decorators ahead. -/
def decoratorsLength (tokens : List Token) : Nat :=
  decoratorsUpTo tokens.length tokens

/-- The words `readonly` before a type. One that ends its line or the input is a
name and not such a word. -/
def readonlyLength : List Token → Nat
  | token :: following :: rest =>
    if token.word? = some "readonly" && !following.newlineBefore then
      1 + readonlyLength (following :: rest)
    else
      0
  | _ => 0

/-- How many tokens stand before the round bracket that closes the last of
`depth` open ones. Only round brackets count. -/
def closingParen? (depth : Nat) : List Token → Option Nat
  | [] => none
  | token :: rest =>
    match token.kind with
    | .lParen => (closingParen? (depth + 1) rest).map (· + 1)
    | .rParen => if depth ≤ 1 then some 0 else (closingParen? (depth - 1) rest).map (· + 1)
    | _ => (closingParen? depth rest).map (· + 1)

/-- Whether the round group ahead is the parameters of a function type: an arrow
follows it. -/
def startsFunctionType (tokens : List Token) : Bool :=
  match closingParen? 0 tokens with
  | none => false
  | some close => tokens[close + 1]?.any (·.kind == .arrow)

/-- Passes over the group ahead. -/
def skipGroup : Parser Unit := do
  advance (groupLength 0 (← look).rest)

/-- Passes over the decorators ahead. -/
def skipDecorators : Parser Unit := do
  advance (decoratorsLength (← look).rest)

/-- Passes over an initial value. -/
def skipInitializer (ends : TokenKind → Bool) : Parser Unit := do
  advance (initializerLength ends true 0 (← look).rest)

/-- What a reader of modifiers does with a token. -/
inductive ModifierStep where
  | keep (kind : NodeKind)
  | pass
  | stop

/-- The modifiers ahead as nodes, and how many tokens they and the words passed over
are. `step` looks at a token, at the tokens behind it, and at whether a modifier was
kept before. -/
def leadingModifiers (step : Bool → Token → List Token → ModifierStep) :
    Bool → List Token → List Node × Nat
  | _, [] => ([], 0)
  | kept, token :: rest =>
    match step kept token rest with
    | .stop => ([], 0)
    | .pass =>
      let (nodes, count) := leadingModifiers step kept rest
      (nodes, count + 1)
    | .keep kind =>
      let (nodes, count) := leadingModifiers step true rest
      (Node.leaf kind token.text token.span :: nodes, count + 1)

/-- Reads the modifiers ahead. -/
def modifiers (step : Bool → Token → List Token → ModifierStep) : Parser (List Node) := do
  let (nodes, count) := leadingModifiers step false (← look).rest
  advance count
  return nodes

end DeclSchema.Parser
