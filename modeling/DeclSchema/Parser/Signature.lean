import DeclSchema.Parser.Name

/-!
# Signatures

Type parameters, parameters and return types of functions and methods. The parser of
the types in them is a parameter, `type`: types nest signatures and signatures types,
and the knot is tied where the depth of nesting is bounded.
-/

namespace DeclSchema.Parser

variable (type : Parser Node)

/-- Reads a type parameter with its bound and its default. -/
def typeParameter : Parser Node := do
  let start := (← look).start
  let _ ← acceptWord "const"
  let s ← look
  if (s.atWord "in" || s.atWord "out") && s.nthIsWord 1 then
    advance 1
  let name ← identifier .typeParameter
  let bound ← optional (acceptWord "extends") type
  let preset ← optional (accept .eq) type
  return Node.inner .typeParameter start (← look).prevEnd (name :: bound ++ preset)

/-- Reads type parameters in angle brackets. -/
def typeParameters : Parser (List Node) := do
  let _ ← expect .lt
  commaList .gt (typeParameter type)

/-- Reads type parameters if there are any. -/
def typeParametersIfAny : Parser (List Node) := do
  if (← look).isAt .lt then
    typeParameters type
  else
    return []

/-- What a word before the name of a parameter is. It is a modifier only if something
that can be bound follows. -/
def parameterModifier (_kept : Bool) (token : Token) (rest : List Token) : ModifierStep :=
  let bindsNext := rest.head?.any fun following =>
    match following.kind with
    | .word | .lBrace | .lBracket | .ellipsis => true
    | _ => false
  match token.word? with
  | none => .stop
  | some word =>
    if bindsNext then
      match NodeKind.modifier? word with
      | some kind => .keep kind
      | none => if word = "override" then .pass else .stop
    else
      .stop

/-- Reads what a parameter binds. A pattern in brackets has no node. -/
def binding : Parser (List Node) := do
  match (← look).rest with
  | [] => fail (.expected .parameterName)
  | token :: _ =>
    match token.kind with
    | .word => return [← identifier .parameterName]
    | .lBrace | .lBracket =>
      skipGroup
      return []
    | _ => fail (.expected .parameterName)

/-- Whether a token ends the initial value of a parameter. -/
def endsParameter : TokenKind → Bool
  | .comma | .rParen => true
  | _ => false

/-- Reads a parameter. Its initial value is passed over. -/
def parameter : Parser Node := do
  skipDecorators
  let start := (← look).start
  let words ← modifiers parameterModifier
  let _ ← accept .ellipsis
  let name ← binding
  let question ← questionMark
  let typeNode ← optional (accept .colon) type
  if ← accept .eq then
    skipInitializer endsParameter
  return Node.inner .parameter start (← look).prevEnd (words ++ name ++ question ++ typeNode)

/-- Reads parameters in round brackets. -/
def parameters : Parser (List Node) := do
  let _ ← expect .lParen
  commaList .rParen (parameter type)

/-- Whether a return type ends at the next token. -/
def State.endsReturnType (s : State) (withBody : Bool) : Bool :=
  match s.rest with
  | [] => true
  | token :: _ => token.newlineBefore || Parser.endsReturnType withBody token.kind

/-- Passes over a return type, which no declaration depends on. It is first read as a
type; if that fails, or if the type does not reach the end of the return type, the
tokens read are given back and passed over by themselves. Errors recorded meanwhile
are dropped, and documentation taken meanwhile stays taken. -/
def returnType (withBody : Bool) : Parser Unit := fun s =>
  let (result, after) := type s
  let after := { after with errors := after.errors.take s.errors.length }
  if result.isOk && after.endsReturnType withBody then
    (.ok (), after)
  else
    let back := { after with rest := s.rest, prevEnd := s.prevEnd }.note (.gaveBack after.atEnd)
    (.ok (), back.advance (returnTypeLength withBody true 0 back.rest))

/-- Passes over the body of a function, or the semicolon in its place. -/
def body : Parser Unit := do
  if (← look).isAt .lBrace then
    skipGroup
  else
    let _ ← accept .semicolon

/-- Reads type parameters, parameters, the return type and, where there may be one,
the body of a function. -/
def signature (withBody : Bool) : Parser (List Node) := do
  let generics ← typeParametersIfAny type
  let arguments ← parameters type
  if ← accept .colon then
    returnType type withBody
  if withBody then
    body
  return generics ++ arguments

end DeclSchema.Parser
