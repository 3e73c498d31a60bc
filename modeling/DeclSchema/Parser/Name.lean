import DeclSchema.Parser.Skip
import DeclSchema.Token.Quoted

/-!
# Names

Names of declarations, names with points in them, and names of members.
-/

namespace DeclSchema.Parser

/-- A token as a leaf of the tree. -/
def tokenLeaf (kind : NodeKind) (token : Token) : Node :=
  Node.leaf kind token.text token.span

/-- A string literal as a leaf that carries its value. -/
def stringLeaf (token : Token) : Node :=
  Node.leaf .stringLiteral (unquote token.text) token.span

/-- Reads a word as a name. -/
def identifier (what : Wanted) : Parser Node := do
  return tokenLeaf .identifier (← token .word what)

/-- Whether a point and a word come next. -/
def State.atSegment (s : State) : Bool :=
  s.isAt .dot && s.nthIsWord 1

/-- Several segments of a name as one name. -/
def qualified (start stop : Nat) (segments : List Node) : Node :=
  { Node.inner .qualifiedName start stop segments with
    text := some (".".intercalate (segments.map fun segment => segment.text.getD "")) }

/-- Reads a name that may have points in it. Without one it is a plain identifier. -/
def entityName : Parser Node := do
  let first ← identifier .name
  let segments ← repeatWhile State.atSegment do
    advance 1
    identifier .name
  if segments.isEmpty then
    return first
  else
    return qualified first.span.start (← look).prevEnd (first :: segments)

/-- Whether the token `n` places ahead can begin the name of a member. -/
def State.nthStartsName (s : State) (n : Nat) : Bool :=
  s.rest[n]?.any fun token =>
    match token.kind with
    | .word | .string | .number | .lBracket | .hash => true
    | _ => false

/-- Reads the name of a member. A computed name, in square brackets, has no node. -/
def memberName : Parser (List Node) := do
  match (← look).rest with
  | [] => fail (.expected .memberName)
  | token :: rest =>
    match token.kind with
    | .word =>
      advance 1
      return [tokenLeaf .identifier token]
    | .string =>
      advance 1
      return [stringLeaf token]
    | .number =>
      advance 1
      return [tokenLeaf .numericLiteral token]
    | .hash =>
      match rest.head? with
      | none => fail (.expected .memberName)
      | some name =>
        if name.kind = .word then
          advance 2
          return [Node.leaf .identifier ("#" ++ name.text) ⟨token.span.start, name.span.stop⟩]
        else
          fail (.expected .memberName)
    | .lBracket =>
      skipGroup
      return []
    | _ => fail (.expected .memberName)

/-- Reads the question mark that makes a member optional. -/
def questionMark : Parser (List Node) := do
  match (← look).rest with
  | [] => return []
  | token :: _ =>
    if token.kind = .question then
      advance 1
      return [Node.mark .questionToken token.span]
    else
      return []

end DeclSchema.Parser
