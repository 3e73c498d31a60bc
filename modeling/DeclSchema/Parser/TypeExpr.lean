import DeclSchema.Parser.Member

/-!
# Types

The grammar of types, from the loosest binding to the tightest: unions,
intersections, arrays and indexed access, and primary types. `type` ties the knot:
each type inside another is read one level deeper, and there are `maxDepth` levels.
-/

namespace DeclSchema.Parser

section

variable (type : Parser Node)

/-- Operands with an operator between them as one node. A single operand is not
wrapped. -/
def combine (kind : NodeKind) (start stop : Nat) : List Node → Node
  | [operand] => operand
  | operands => Node.inner kind start stop operands

/-- Reads operands with an operator between them; one may stand before the first. -/
def operands (operator : TokenKind) (kind : NodeKind) (operand : Parser Node) : Parser Node := do
  let start := (← look).start
  let _ ← accept operator
  let nodes ← separated operator operand
  return combine kind start (← look).prevEnd nodes

/-- A literal in the place of a type. -/
def literalType (literal : Node) : Node :=
  ⟨.literalType, none, [], literal.span, [literal]⟩

/-- Reads type arguments in angle brackets. -/
def typeArguments : Parser (List Node) := do
  let _ ← expect .lt
  let nodes ← separated .comma type
  let _ ← expect .gt
  return nodes

/-- Reads a function type: type parameters, parameters and the type returned. -/
def functionType : Parser Node := do
  let start := (← look).start
  let generics ← typeParametersIfAny type
  let arguments ← parameters type
  let _ ← expect .arrow
  let returned ← type
  return Node.inner .functionType start (← look).prevEnd (generics ++ arguments ++ [returned])

/-- Whether a name for the element of a tuple comes next, which has no node. -/
def State.labelLength (s : State) : Nat :=
  if s.nthIsWord 0 && s.nthIs 1 .colon then
    2
  else if s.nthIsWord 0 && s.nthIs 1 .question && s.nthIs 2 .colon then
    3
  else
    0

/-- Reads an element of a tuple. -/
def tupleElement : Parser Node := do
  let start := (← look).start
  let spread ← accept .ellipsis
  advance (← look).labelLength
  let element ← type
  let _ ← accept .question
  if spread then
    return Node.inner .spreadElement start (← look).prevEnd [element]
  else
    return element

/-- Reads a tuple type. -/
def tupleType : Parser Node := do
  let start := (← look).start
  let _ ← expect .lBracket
  let elements ← commaList .rBracket (tupleElement type)
  return Node.inner .tupleType start (← look).prevEnd elements

/-- Reads a type in round brackets. -/
def parenthesizedType : Parser Node := do
  let start := (← look).start
  let _ ← expect .lParen
  let inside ← type
  let _ ← expect .rParen
  return Node.inner .parenthesizedType start (← look).prevEnd [inside]

/-- Reads the type of an object given by its members, which are one level deeper. -/
def objectType : Parser Node := do
  let start := (← look).start
  let _ ← expect .lBrace
  let inside ← nested (typeMembers type)
  let _ ← expect .rBrace
  return Node.inner .typeLiteral start (← look).prevEnd inside

/-- Reads the type of a value, given by the value's name. -/
def typeQuery : Parser Node := do
  let start := (← look).start
  advance 1
  if (← look).nthIsWord 0 then
    let name ← entityName
    let arguments ← if (← look).isAt .lt then typeArguments type else pure []
    return Node.inner .typeQuery start (← look).prevEnd (name :: arguments)
  else
    fail .unnamedQuery

/-- Reads a named type with its type arguments. An angle bracket on a new line does
not belong to it. -/
def typeReference : Parser Node := do
  let start := (← look).start
  let name ← entityName
  let s ← look
  let arguments ← if s.isAt .lt && !s.atNewline then typeArguments type else pure []
  return Node.inner .typeReference start (← look).prevEnd (name :: arguments)

/-- Whether a word before another word makes a type from the type behind it. -/
def isTypeOperator : String → Bool
  | "keyof" | "unique" | "infer" | "asserts" => true
  | _ => false

/-- Reads a type that starts with a word. -/
def wordType (token : Token) : Parser Node := do
  let s ← look
  let word := token.text
  if word = "typeof" then
    typeQuery type
  else if word = "true" then
    advance 1
    return literalType (tokenLeaf .trueKeyword token)
  else if word = "false" then
    advance 1
    return literalType (tokenLeaf .falseKeyword token)
  else if word = "new" && (s.nthIs 1 .lParen || s.nthIs 1 .lt) then
    advance 1
    functionType type
  else if isTypeOperator word && s.nthIsWord 1 then
    fail (.typeOperator word)
  else
    match NodeKind.keywordType? word with
    | none => typeReference type
    | some kind =>
      if s.nthIs 1 .dot then
        typeReference type
      else
        advance 1
        return tokenLeaf kind token

/-- Reads a negative number as one literal. -/
def negativeType (sign : Token) : Parser Node := do
  advance 1
  let number ← token .number .type
  return literalType
    (Node.leaf .numericLiteral ("-" ++ number.text) ⟨sign.span.start, number.span.stop⟩)

/-- Reads a primary type. -/
def primaryType : Parser Node := do
  let s ← look
  match s.rest with
  | [] => fail (.expected .type)
  | token :: _ =>
    match token.kind with
    | .lParen =>
      if startsFunctionType s.rest then functionType type else parenthesizedType type
    | .lt => functionType type
    | .lBrace => objectType type
    | .lBracket => tupleType type
    | .string =>
      advance 1
      return literalType (stringLeaf token)
    | .number =>
      advance 1
      return literalType (tokenLeaf .numericLiteral token)
    | .minus => if s.nthIs 1 .number then negativeType token else fail (.expected .type)
    | .template => fail .templateType
    | .word => wordType type token
    | _ => fail (.expected .type)

/-- Whether a square bracket behind a type belongs to it. On a new line it does not. -/
def State.atSuffix (s : State) : Bool :=
  s.isAt .lBracket && !s.atNewline

/-- Reads a pair of square brackets behind a type: empty for an array, around a type
for what the type has under an index. -/
def suffix (start : Nat) (target : Node) : Parser Node := do
  let _ ← expect .lBracket
  if ← accept .rBracket then
    return Node.inner .arrayType start (← look).prevEnd [target]
  else
    let index ← type
    let _ ← expect .rBracket
    return Node.inner .indexedAccessType start (← look).prevEnd [target, index]

/-- Reads at most `count` pairs of square brackets behind a type. -/
def suffixesUpTo (start : Nat) : Nat → Node → Parser Node
  | 0, target => return target
  | count + 1, target => do
    if (← look).atSuffix then
      suffixesUpTo start count (← suffix type start target)
    else
      return target

/-- Reads a primary type and the square brackets behind it. The word `readonly` before
it changes nothing. -/
def postfixType : Parser Node := do
  advance (readonlyLength (← look).rest)
  let s ← look
  let target ← primaryType type
  suffixesUpTo type s.start s.rest.length target

/-- Reads an intersection, or what stands alone in its place. -/
def intersectionType : Parser Node :=
  operands .amp .intersectionType (postfixType type)

/-- Reads a union, or what stands alone in its place. -/
def unionType : Parser Node :=
  operands .pipe .unionType (intersectionType type)

end

/-- Reads a type that may have `levels` levels of types, its own included. -/
def typeWithin : Nat → Parser Node
  | 0 => refuse
  | levels + 1 => nested (unionType (typeWithin levels))

/-- Reads a type. -/
def type : Parser Node :=
  typeWithin maxDepth

end DeclSchema.Parser
