import DeclSchema.Parser.TypeExpr

/-!
# Declarations

Interfaces, classes, type aliases, enumerations and namespaces are read; every other
statement is passed over. An error ends the statement it stands in, is recorded, and
reading goes on with the next statement: `parse` always gives a tree.
-/

namespace DeclSchema

namespace Parser

/-- The kinds of declarations that are read. -/
inductive Heading where
  | ofInterface
  | ofClass
  | ofTypeAlias
  | ofEnum
  | ofModule
deriving DecidableEq, Repr

/-- The kind of node a declaration becomes. -/
def Heading.kind : Heading → NodeKind
  | .ofInterface => .interfaceDeclaration
  | .ofClass => .classDeclaration
  | .ofTypeAlias => .typeAliasDeclaration
  | .ofEnum => .enumDeclaration
  | .ofModule => .moduleDeclaration

/-- The declaration that starts here, and how many words announce it. -/
def State.heading? (s : State) : Option (Heading × Nat) :=
  match s.nthWord? 0 with
  | none => none
  | some word =>
    match word with
    | "interface" => if s.nthIsWord 1 || s.nthIs 1 .lBrace then some (.ofInterface, 1) else none
    | "class" => some (.ofClass, 1)
    | "type" =>
      if s.nthIsWord 1 && (s.nthIs 2 .eq || s.nthIs 2 .lt) then some (.ofTypeAlias, 1) else none
    | "enum" => some (.ofEnum, 1)
    | "const" => if s.nthWord? 1 = some "enum" then some (.ofEnum, 2) else none
    | "namespace" | "module" =>
      if s.nthIsWord 1 || s.nthIs 1 .string then some (.ofModule, 1) else none
    | _ => none

/-- What a word before a declaration is. -/
def statementModifier (kept : Bool) (token : Token) (rest : List Token) : ModifierStep :=
  match token.word? with
  | none => .stop
  | some word =>
    let wordNext := rest.head?.bind Token.word?
    match word with
    | "export" => .keep .exportKeyword
    | "declare" => if wordNext.isSome then .keep .declareKeyword else .stop
    | "abstract" => if wordNext = some "class" then .keep .abstractKeyword else .stop
    | "default" => if kept then .pass else .stop
    | _ => .stop

/-- Reads the words and types that name what a declaration builds on. -/
def heritageClause : Parser Node := do
  match (← look).rest with
  | [] => fail (.expected .type)
  | keyword :: _ =>
    advance 1
    let types ← separated .comma type
    return { Node.inner .heritageClause keyword.span.start (← look).prevEnd types with
      text := some keyword.text }

/-- Whether one of the words that start a heritage clause comes next. -/
def State.atHeritage (s : State) (words : List String) : Bool :=
  (s.nthWord? 0).any words.contains

/-- Reads members in curly brackets. -/
def braced (inside : Parser (List Node)) : Parser (List Node) := do
  let _ ← expect .lBrace
  let nodes ← inside
  let _ ← expect .rBrace
  return nodes

/-- Reads an interface from its name on. -/
def interfaceParts : Parser (List Node) := do
  let name ← identifier .interfaceName
  let generics ← typeParametersIfAny type
  let clauses ← repeatWhile (·.atHeritage ["extends"]) heritageClause
  let inside ← braced (typeMembers type)
  return name :: generics ++ clauses ++ inside

/-- Reads the name of a class, which may be left out. -/
def className : Parser (List Node) := do
  let s ← look
  if s.nthIsWord 0 && !s.atHeritage ["extends", "implements"] then
    return [← identifier .className]
  else
    return []

/-- Reads a class from its name on. -/
def classParts : Parser (List Node) := do
  let name ← className
  let generics ← typeParametersIfAny type
  let clauses ← repeatWhile (·.atHeritage ["extends", "implements"]) heritageClause
  let inside ← braced (classMembers type)
  return name ++ generics ++ clauses ++ inside

/-- Reads a type alias from its name on. -/
def typeAliasParts : Parser (List Node) := do
  let name ← identifier .typeAliasName
  let generics ← typeParametersIfAny type
  let _ ← expect .eq
  let meaning ← type
  let _ ← accept .semicolon
  return name :: generics ++ [meaning]

/-- Reads an enumeration from its name on. Its members are passed over. -/
def enumParts : Parser (List Node) := do
  let name ← identifier .enumName
  if (← look).isAt .lBrace then
    skipGroup
    return [name]
  else
    fail (.expected (.mark .lBrace))

/-- Reads the name of a namespace, which a string literal may give. -/
def moduleName : Parser Node := do
  match (← look).rest with
  | [] => entityName
  | token :: _ =>
    if token.kind = .string then
      advance 1
      return stringLeaf token
    else
      entityName

/-- Reads a namespace from its name on; `block` reads the statements in it. Without a
block it ends behind its name. -/
def moduleParts (block : Parser (List Node)) : Parser (List Node) := do
  let name ← moduleName
  let s ← look
  if s.isAt .lBrace then
    let statements ← braced block
    return [name, Node.inner .moduleBlock s.start (← look).prevEnd statements]
  else
    let _ ← accept .semicolon
    return [name]

/-- Reads what a declaration consists of from behind the words that announce it. -/
def Heading.parts (block : Parser (List Node)) : Heading → Parser (List Node)
  | .ofInterface => interfaceParts
  | .ofClass => classParts
  | .ofTypeAlias => typeAliasParts
  | .ofEnum => enumParts
  | .ofModule => moduleParts block

/-- The node of a declaration whose statement began in one state and ended in another. -/
def Heading.node (heading : Heading) (first last : State) (tags : List DocTag)
    (children : List Node) : Node :=
  { Node.inner heading.kind first.start last.prevEnd children with tags }

/-- Reads a declaration from behind the words that announce it; `first` is the state in
which its statement began. -/
def declaration (block : Parser (List Node)) (first : State) (tags : List DocTag)
    (words : List Node) (heading : Heading) : Parser (Option Node) := do
  let parts ← heading.parts block
  let last ← look
  let node := heading.node first last tags (words ++ parts)
  note (.declared node first.errors last.errors)
  return some node

theorem declaration_of_parts {block : Parser (List Node)} {heading : Heading}
    {u t : State} {parts : List Node} (h : heading.parts block u = (.ok parts, t))
    (first : State) (tags : List DocTag) (words : List Node) :
    declaration block first tags words heading u =
      (.ok (some (heading.node first t tags (words ++ parts))),
        t.note (.declared (heading.node first t tags (words ++ parts)) first.errors t.errors)) :=
  bind_apply_ok h

theorem declaration_of_error {block : Parser (List Node)} {heading : Heading}
    {u t : State} {error : ParseError} (h : heading.parts block u = (.error error, t))
    (first : State) (tags : List DocTag) (words : List Node) :
    declaration block first tags words heading u = (.error error, t) :=
  bind_apply_error h

/-- Reads a statement. What is no declaration is passed over and has no node. -/
def statement (block : Parser (List Node)) : Parser (Option Node) := do
  let first ← look
  let before ← takeDocs
  skipDecorators
  let behind ← takeDocs
  let words ← modifiers statementModifier
  let s ← look
  match s.heading? with
  | none =>
    advance (statementLength true 0 s.rest)
    return none
  | some (heading, announced) =>
    advance announced
    declaration block first (before ++ behind) words heading

/-- Whether a token stands between statements. -/
def separatesStatements : TokenKind → Bool
  | .semicolon => true
  | _ => false

/-- Reads statements up to a closing brace or the end. -/
def statements (block : Parser (List Node)) : Parser (List Node) :=
  members separatesStatements (statementLength true 0) (statement block)

/-- Reads the statements of a block that may have `levels` levels of blocks, its own
included. -/
def blockWithin : Nat → Parser (List Node)
  | 0 => refuse
  | levels + 1 => nested (statements (blockWithin levels))

/-- Reads at most `count` runs of statements with a stray brace between them. -/
def runsUpTo : Nat → Parser (List Node)
  | 0 => return []
  | count + 1 => do
    let nodes ← statements (blockWithin maxDepth)
    let s ← look
    if s.isAt .rBrace then
      report (s.errorHere .strayBrace)
      advance 1
      return nodes ++ (← runsUpTo count)
    else
      return nodes

/-- Reads the statements of a whole source. -/
def sourceFile : Parser (List Node) :=
  fun s => runsUpTo (s.rest.length + 1) s

end Parser

/-- A declaration tree with every error that was recorded while it was read. -/
structure Parse where
  root : Node
  errors : List ParseError

namespace Parse

/-- Whether no error was recorded. -/
def isOk (parse : Parse) : Bool :=
  parse.errors.isEmpty

/-- The errors that start in a span. -/
def errorsWithin (parse : Parse) (span : Span) : List ParseError :=
  parse.errors.filter (span.contains ·.span.start)

/-- The declaration tree of a source text. -/
def ofSource (source : String) : Parse :=
  let (result, s) := Parser.sourceFile (Parser.State.ofSource source)
  ⟨⟨.sourceFile, none, [], ⟨0, source.utf8ByteSize⟩, result.toOption.getD []⟩, s.errors⟩

end Parse

end DeclSchema
