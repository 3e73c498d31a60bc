import DeclSchema.Parser.Error
import DeclSchema.Token.Stream
import DeclSchema.Tree.Node

/-!
# Reading with recovery

A parser takes a state to a result and a state. A failing parser has a state too: it
keeps what was read, so that its caller can record the error and go on behind it.

The state holds the tokens still to read, the documentation not yet taken, the depth
of nesting, the errors recorded so far, and a journal. The journal has no influence on
what is read; it is there so that statements about a run can name what happened in it.
-/

namespace DeclSchema

namespace Parser

/-- How deep types and namespaces may be nested. -/
def maxDepth : Nat := 64

/-- What happens while reading that neither a result nor an error need tell. -/
inductive Event where
  /-- A level of nesting was refused. -/
  | refused
  /-- A return type was given back and passed over instead; `atEnd` says whether reading
  it as a type had come to the end of the source. -/
  | gaveBack (atEnd : Bool)
  /-- A statement became a node. The errors are those recorded when its reading began
  and when it ended. -/
  | declared (node : Node) (before after : List ParseError)

/-- What a parser reads from, and what it has recorded. -/
structure State where
  /-- The tokens still to read. -/
  rest : List Token
  /-- Where the last token read ends; the start of the source before the first. -/
  prevEnd : Nat
  /-- The length of the source. -/
  length : Nat
  /-- Documentation not yet taken, under the start of the token it precedes. -/
  docs : List (Nat × List DocTag)
  /-- How many nested types and namespaces are being read. -/
  depth : Nat
  /-- The recorded errors, in the order of recording. -/
  errors : List ParseError
  /-- What has happened so far, in order. -/
  journal : List Event

namespace State

/-- The state before anything of a source is read. -/
def ofSource (source : String) : State :=
  let stream := TokenStream.ofSource source
  ⟨stream.tokens, 0, source.utf8ByteSize, stream.docs, 0, [], []⟩

/-- Whether all tokens are read. -/
def atEnd (s : State) : Bool :=
  s.rest.isEmpty

/-- Whether the token `n` places ahead is of a kind. -/
def nthIs (s : State) (n : Nat) (kind : TokenKind) : Bool :=
  s.rest[n]?.any (·.kind == kind)

/-- Whether the next token is of a kind. -/
def isAt (s : State) (kind : TokenKind) : Bool :=
  s.nthIs 0 kind

/-- The word `n` places ahead. -/
def nthWord? (s : State) (n : Nat) : Option String :=
  s.rest[n]?.bind Token.word?

/-- Whether a word stands `n` places ahead. -/
def nthIsWord (s : State) (n : Nat) : Bool :=
  (s.nthWord? n).isSome

/-- Whether the next token is a given word. -/
def atWord (s : State) (word : String) : Bool :=
  s.nthWord? 0 == some word

/-- Whether the next token is the first of its line. -/
def atNewline (s : State) : Bool :=
  s.rest.head?.any (·.newlineBefore)

/-- Where the next token starts; the end of the source when there is none. -/
def start (s : State) : Nat :=
  match s.rest with
  | [] => s.length
  | token :: _ => token.span.start

/-- The state behind the next `count` tokens. -/
def advance (s : State) (count : Nat) : State :=
  { s with
    rest := s.rest.drop count
    prevEnd := ((s.rest.take count).getLast?.map (·.span.stop)).getD s.prevEnd }

/-- The error for a fault at the next token. -/
def errorHere (s : State) (fault : Fault) : ParseError :=
  match s.rest with
  | [] => ⟨fault, none, Span.empty s.length⟩
  | token :: _ => ⟨fault, some token.text, token.span⟩

/-- The state with one more error recorded. -/
def record (s : State) (error : ParseError) : State :=
  { s with errors := s.errors ++ [error] }

/-- The state with one more event in the journal. -/
def note (s : State) (event : Event) : State :=
  { s with journal := s.journal ++ [event] }

@[simp] theorem advance_zero (s : State) : s.advance 0 = s := by
  simp [advance]

@[simp] theorem rest_advance (s : State) (count : Nat) :
    (s.advance count).rest = s.rest.drop count := rfl

@[simp] theorem depth_advance (s : State) (count : Nat) :
    (s.advance count).depth = s.depth := rfl

@[simp] theorem errors_advance (s : State) (count : Nat) :
    (s.advance count).errors = s.errors := rfl

@[simp] theorem docs_advance (s : State) (count : Nat) :
    (s.advance count).docs = s.docs := rfl

@[simp] theorem length_advance (s : State) (count : Nat) :
    (s.advance count).length = s.length := rfl

@[simp] theorem journal_advance (s : State) (count : Nat) :
    (s.advance count).journal = s.journal := rfl

end State

end Parser

/-- A reader of declarations: a result or an error, and the state it is left in. -/
def Parser (α : Type) : Type :=
  Parser.State → Except ParseError α × Parser.State

namespace Parser

/-- Succeeds without reading anything. -/
protected def pure (a : α) : Parser α :=
  fun s => (.ok a, s)

/-- Goes on with the result of a parser that succeeds. -/
protected def bind (p : Parser α) (f : α → Parser β) : Parser β := fun s =>
  match p s with
  | (.ok a, s) => f a s
  | (.error e, s) => (.error e, s)

instance : Monad Parser where
  pure := Parser.pure
  bind := Parser.bind

@[simp] theorem pure_apply (a : α) (s : State) : (pure a : Parser α) s = (.ok a, s) := rfl

theorem bind_apply (p : Parser α) (f : α → Parser β) (s : State) :
    (p >>= f) s = match p s with
      | (.ok a, s) => f a s
      | (.error e, s) => (.error e, s) := rfl

theorem bind_apply_ok {p : Parser α} {f : α → Parser β} {s t : State} {a : α}
    (h : p s = (.ok a, t)) : (p >>= f) s = f a t := by
  rw [bind_apply, h]

theorem bind_apply_error {p : Parser α} {f : α → Parser β} {s t : State} {e : ParseError}
    (h : p s = (.error e, t)) : (p >>= f) s = (.error e, t) := by
  rw [bind_apply, h]

instance : LawfulMonad Parser :=
  LawfulMonad.mk' Parser
    (fun p => by
      funext s
      show Parser.bind p Parser.pure s = p s
      unfold Parser.bind
      rcases h : p s with ⟨_ | _, _⟩ <;> rfl)
    (fun _ _ => rfl)
    (fun p f g => by
      funext s
      show Parser.bind (Parser.bind p f) g s = Parser.bind p (fun a => Parser.bind (f a) g) s
      unfold Parser.bind
      rcases h : p s with ⟨_ | _, _⟩ <;> rfl)

/-- The state itself. -/
def look : Parser State :=
  fun s => (.ok s, s)

theorem look_bind_apply (f : State → Parser β) (s : State) : (look >>= f) s = f s s := rfl

/-- Fails at the next token. -/
def fail (fault : Fault) : Parser α :=
  fun s => (.error (s.errorHere fault), s)

/-- Records an error. -/
def report (error : ParseError) : Parser Unit :=
  fun s => (.ok (), s.record error)

/-- The result of a parser, be it an error. -/
def attempt (p : Parser α) : Parser (Except ParseError α) := fun s =>
  match p s with
  | (result, s) => (.ok result, s)

/-- Takes the documentation in front of the next token. It can be taken once. -/
def takeDocs : Parser (List DocTag) := fun s =>
  match s.docs.lookup s.start with
  | none => (.ok [], s)
  | some tags => (.ok tags, { s with docs := s.docs.filter (·.1 != s.start) })

/-- Writes an event into the journal. -/
def note (event : Event) : Parser Unit :=
  fun s => (.ok (), s.note event)

/-- Fails because a level of nesting is not allowed. -/
def refuse : Parser α := do
  note .refused
  fail .nestingTooDeep

/-- Runs a parser one level deeper. There is a deepest level, where this fails. -/
def nested (p : Parser α) : Parser α := fun s =>
  if maxDepth ≤ s.depth then
    refuse s
  else
    match p { s with depth := s.depth + 1 } with
    | (result, s) => (result, { s with depth := s.depth - 1 })

/-- Reads `count` tokens. -/
def advance (count : Nat) : Parser Unit :=
  fun s => (.ok (), s.advance count)

/-- Reads a token of a kind, or fails for want of something. -/
def token (kind : TokenKind) (what : Wanted) : Parser Token := fun s =>
  match s.rest with
  | [] => fail (.expected what) s
  | token :: _ => if token.kind = kind then (.ok token, s.advance 1) else fail (.expected what) s

/-- Reads a punctuation mark. -/
def expect (kind : TokenKind) : Parser Token :=
  token kind (.mark kind)

/-- Reads a token of a kind if it comes next. -/
def accept (kind : TokenKind) : Parser Bool := fun s =>
  if s.isAt kind then (.ok true, s.advance 1) else (.ok false, s)

/-- Reads a given word if it comes next. -/
def acceptWord (word : String) : Parser Bool := fun s =>
  if s.atWord word then (.ok true, s.advance 1) else (.ok false, s)

/-- What `p` reads when `test` has read its mark, and otherwise nothing. -/
def optional (test : Parser Bool) (p : Parser α) : Parser (List α) := do
  if ← test then
    return [← p]
  else
    return []

/-- Runs `item` at most `count` times, as long as `continues` holds. -/
def upTo (continues : State → Bool) (item : Parser α) : Nat → Parser (List α)
  | 0 => return []
  | count + 1 => do
    if continues (← look) then
      let a ← item
      return a :: (← upTo continues item count)
    else
      return []

/-- Runs `item` as long as `continues` holds. An item reads at least one token. -/
def repeatWhile (continues : State → Bool) (item : Parser α) : Parser (List α) :=
  fun s => upTo continues item s.rest.length s

/-- One item or more, with a separator between them. -/
def separated (separator : TokenKind) (item : Parser α) : Parser (List α) := do
  let first ← item
  let others ← repeatWhile (·.isAt separator) do
    advance 1
    item
  return first :: others

/-- At most `count` items with commas between them, up to a closing mark. -/
def listUpTo (close : TokenKind) (item : Parser α) : Nat → Parser (List α)
  | 0 => return []
  | count + 1 => do
    if ← accept close then
      return []
    else
      let a ← item
      if ← accept .comma then
        return a :: (← listUpTo close item count)
      else
        let _ ← expect close
        return [a]

/-- Items with commas between them, up to and with a closing mark. A comma may stand
behind the last item. -/
def commaList (close : TokenKind) (item : Parser α) : Parser (List α) :=
  fun s => listUpTo close item (s.rest.length + 1) s

/-- At most `count` members, malformed ones and those without a node included. -/
def membersUpTo (separates : TokenKind → Bool) (recovery : List Token → Nat)
    (member : Parser (Option Node)) : Nat → Parser (List Node)
  | 0 => return []
  | count + 1 => do
    advance ((← look).rest.takeWhile (separates ·.kind)).length
    let s ← look
    if s.atEnd || s.isAt .rBrace then
      return []
    else
      match ← attempt member with
      | .ok node? => return node?.toList ++ (← membersUpTo separates recovery member count)
      | .error error =>
        report error
        advance (recovery (← look).rest)
        membersUpTo separates recovery member count

/-- Members up to a closing brace or the end. Separators may stand between them. An
error in a member is recorded, the member dropped, and what `recovery` measures is
skipped from where the error was found. -/
def members (separates : TokenKind → Bool) (recovery : List Token → Nat)
    (member : Parser (Option Node)) : Parser (List Node) :=
  fun s => membersUpTo separates recovery member s.rest.length s

end Parser

end DeclSchema
