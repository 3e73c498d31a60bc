import DeclSchema.Parser.Signature

/-!
# Members of interfaces and classes

As in `DeclSchema.Parser.Signature`, the parser of types is a parameter.
-/

namespace DeclSchema.Parser

variable (type : Parser Node)

/-- Whether a key in square brackets with a type follows, and not a computed name. -/
def State.atIndexSignature (s : State) : Bool :=
  s.isAt .lBracket && s.nthIsWord 1 && s.nthIs 2 .colon

/-- Whether the next word reads or writes a property through a function. -/
def State.atAccessor (s : State) : Bool :=
  (s.atWord "get" || s.atWord "set") && s.nthStartsName 1

/-- Whether parameters, or type parameters before them, come next. -/
def State.atSignature (s : State) : Bool :=
  s.isAt .lParen || s.isAt .lt

/-- Reads an index signature: its key as a parameter, a question mark, its type. -/
def indexSignature : Parser (List Node) := do
  let _ ← expect .lBracket
  let start := (← look).start
  let name ← identifier .indexName
  let _ ← expect .colon
  let keyType ← type
  let key := Node.inner .parameter start (← look).prevEnd [name, keyType]
  let _ ← expect .rBracket
  let question ← questionMark
  let _ ← expect .colon
  let value ← type
  return key :: question ++ [value]

/-- Reads the word that makes a member of an interface constant. -/
def readonlyMark : Parser (List Node) := do
  let s ← look
  match s.rest with
  | [] => return []
  | token :: _ =>
    if s.atWord "readonly" && s.nthStartsName 1 then
      advance 1
      return [tokenLeaf .readonlyKeyword token]
    else
      return []

/-- Reads a member of an interface. Documentation is kept on properties and index
signatures; modifiers are not kept on accessors and call signatures. -/
def typeMember : Parser Node := do
  let start := (← look).start
  let tags ← takeDocs
  let words ← readonlyMark
  let s ← look
  if s.atAccessor then
    advance 1
    let name ← memberName
    let parts ← signature type false
    return Node.inner .methodSignature start (← look).prevEnd (name ++ parts)
  else if s.atIndexSignature then
    let parts ← indexSignature type
    return { Node.inner .indexSignature start (← look).prevEnd (words ++ parts) with tags }
  else if s.atSignature || (s.atWord "new" && (s.nthIs 1 .lParen || s.nthIs 1 .lt)) then
    let _ ← acceptWord "new"
    let parts ← signature type false
    return Node.inner .methodSignature start (← look).prevEnd parts
  else
    let name ← memberName
    let question ← questionMark
    if (← look).atSignature then
      let parts ← signature type false
      return Node.inner .methodSignature start (← look).prevEnd
        (words ++ name ++ question ++ parts)
    else
      let typeNode ← optional (accept .colon) type
      return { Node.inner .propertySignature start (← look).prevEnd
        (words ++ name ++ question ++ typeNode) with tags }

/-- Whether a token stands between the members of an interface. -/
def separatesTypeMembers : TokenKind → Bool
  | .semicolon | .comma => true
  | _ => false

/-- Reads the members of an interface or a type literal. -/
def typeMembers : Parser (List Node) :=
  members separatesTypeMembers (malformedLength 0) (some <$> typeMember type)

/-- What a word before the name of a class member is. It is a modifier only if a name
or a star follows. -/
def classModifier (_kept : Bool) (token : Token) (rest : List Token) : ModifierStep :=
  let namesNext := rest.head?.any fun following =>
    match following.kind with
    | .word | .string | .number | .lBracket | .hash | .star => true
    | _ => false
  match token.word? with
  | none => .stop
  | some word =>
    if namesNext then
      match NodeKind.modifier? word with
      | some kind => .keep kind
      | none =>
        match word with
        | "override" | "accessor" | "async" => .pass
        | _ => .stop
    else
      .stop

/-- Whether a token ends the initial value of a field. -/
def endsField : TokenKind → Bool
  | .semicolon => true
  | _ => false

/-- Reads a member of a class. A block that initialises the class has no node. -/
def classMember : Parser (Option Node) := do
  let before ← takeDocs
  skipDecorators
  let behind ← takeDocs
  let tags := before ++ behind
  let s ← look
  let start := s.start
  if s.atWord "static" && s.nthIs 1 .lBrace then
    advance 1
    skipGroup
    return none
  let words ← modifiers classModifier
  let s ← look
  if s.atWord "constructor" && s.nthIs 1 .lParen then
    advance 1
    let parts ← parameters type
    body
    return some { Node.inner .constructorDeclaration start (← look).prevEnd
      (words ++ parts) with tags }
  if s.atAccessor then
    advance 1
    let name ← memberName
    let parts ← signature type true
    return some { Node.inner .methodDeclaration start (← look).prevEnd
      (words ++ name ++ parts) with tags }
  let _ ← accept .star
  if (← look).atIndexSignature then
    let parts ← indexSignature type
    let _ ← accept .semicolon
    return some { Node.inner .indexSignature start (← look).prevEnd (words ++ parts) with tags }
  let name ← memberName
  let question ← questionMark
  let _ ← accept .bang
  if (← look).atSignature then
    let parts ← signature type true
    return some { Node.inner .methodDeclaration start (← look).prevEnd
      (words ++ name ++ question ++ parts) with tags }
  let typeNode ← optional (accept .colon) type
  if ← accept .eq then
    skipInitializer endsField
  let _ ← accept .semicolon
  return some { Node.inner .propertyDeclaration start (← look).prevEnd
    (words ++ name ++ question ++ typeNode) with tags }

/-- Whether a token stands between the members of a class. -/
def separatesClassMembers : TokenKind → Bool
  | .semicolon => true
  | _ => false

/-- Reads the members of a class. -/
def classMembers : Parser (List Node) :=
  members separatesClassMembers (malformedLength 0) (classMember type)

end DeclSchema.Parser
