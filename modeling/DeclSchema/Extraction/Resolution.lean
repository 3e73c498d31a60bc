import DeclSchema.Extraction.Error
import DeclSchema.Model.Basic
import DeclSchema.Number.Literal
import DeclSchema.Tree.Node

/-!
# What a type annotation means

An annotation is a node of a type. It means a list of types: unions, arrays and
brackets are flattened into it, and its restrictions are merged into one.
-/

namespace DeclSchema

/-- The types that an annotation means, and whether it is an array itself. -/
structure Resolution where
  types : List TypeVariant
  multiple : Bool
deriving DecidableEq, Repr

namespace Resolution

/-- The annotation that means one type. -/
def single (type : TypeVariant) : Resolution :=
  ⟨[type], false⟩

/-- The kinds of types that no schema can express. -/
def unsupported : NodeKind → Bool
  | .bigIntKeyword | .symbolKeyword | .neverKeyword | .interfaceKeyword | .classKeyword
  | .functionKeyword | .objectKeyword | .enumKeyword | .unknownKeyword | .functionType
  | .typeLiteral => true
  | _ => false

/-- The kinds of types that could be mapped, and are not. -/
def unmapped : NodeKind → Bool
  | .tupleType | .spreadElement | .intersectionType | .indexedAccessType => true
  | _ => false

/-- The simple type of a keyword. -/
def simpleType? : NodeKind → Option SimpleType
  | .anyKeyword => some .any
  | .booleanKeyword => some .boolean
  | .numberKeyword => some .number
  | .stringKeyword => some .string
  | .voidKeyword => some .undefined
  | .nullKeyword => some .null
  | .undefinedKeyword => some .undefined
  | _ => none

/-- The literal that a node is, if it is one. -/
def literal? (node : Node) : Except ExtractionError (Option Literal) :=
  let text := node.text.getD ""
  match node.kind with
  | .stringLiteral => .ok (some (.string text))
  | .numericLiteral =>
    match NumericLiteral.value? text with
    | some value => .ok (some (.number value))
    | none => .error (.unsupportedType text)
  | .trueKeyword | .falseKeyword => .error .booleanLiteral
  | _ => .ok none

/-- The restriction that a literal type means. -/
def ofLiterals (children : List Node) : Except ExtractionError Resolution := do
  match (← children.mapM literal?).reduceOption with
  | [] => .error .emptyLiteral
  | values => .ok (single (.restricted values))

/-- The last segment of a name, which is how a declaration in a namespace is called. -/
def lastSegment (name : String) : String :=
  String.ofList (name.toList.reverse.takeWhile (· != '.')).reverse

/-- The name that a reference or query points at. -/
def target? (children : List Node) : Option String :=
  ((children.find? fun child => child.kind = .identifier || child.kind = .qualifiedName).bind
    Node.text).map lastSegment

/-- Whether a name is plain, without points. -/
def isPlain (children : List Node) : Bool :=
  children.any (·.kind == .identifier)

/-- Adds a literal to others unless it is among them. -/
def addLiteral (values : List Literal) (value : Literal) : List Literal :=
  if values.any (·.same value) then values else values ++ [value]

/-- The literals that the restrictions among types allow, each once. -/
def literals (types : List TypeVariant) : List Literal :=
  (types.flatMap fun
    | .restricted values => values
    | _ => []).foldl addLiteral []

/-- Types with one restriction at most: it stands where the first one stood. -/
def mergeRestrictions (types : List TypeVariant) : List TypeVariant :=
  go types
where
  /-- Puts all literals into the first restriction. -/
  go : List TypeVariant → List TypeVariant
    | [] => []
    | .restricted values :: rest =>
      .restricted (literals (.restricted values :: rest)) :: rest.filter isOther
    | type :: rest => type :: go rest
  /-- Whether a type is no restriction. -/
  isOther : TypeVariant → Bool
    | .restricted _ => false
    | _ => true

/-- The annotation of a node whose type children mean the given types. -/
def ofNested (kind : NodeKind) (types : List TypeVariant) : Except ExtractionError Resolution :=
  if types.isEmpty then
    .error (.emptyType kind)
  else
    .ok ⟨mergeRestrictions types, kind = .arrayType⟩

/-- The annotation of a node that is no type: its text must name a simple type. -/
def ofText (kind : NodeKind) (text : Option String) : Except ExtractionError Resolution :=
  match text with
  | none => .error (.unsupportedKind kind)
  | some text =>
    match SimpleType.ofName? text with
    | some type => .ok (single (.simple type))
    | none => .error (.unsupportedType text)

mutual

/-- What a node means as an annotation. -/
def ofNode : Node → Except ExtractionError Resolution
  | ⟨kind, text, _, _, children⟩ =>
    if unsupported kind then
      .error (.unsupportedKind kind)
    else if unmapped kind then
      .error (.unmappedKind kind)
    else
      match simpleType? kind with
      | some type => .ok (single (.simple type))
      | none =>
        match kind with
        | .literalType => ofLiterals children
        | .typeQuery =>
          match target? children with
          | some name => .ok (single (.reference name))
          | none => .error .namelessReference
        | .typeReference =>
          match target? children with
          | none => .error .namelessReference
          | some name =>
            if isPlain children && name = "ReturnType" then
              ofFirst (.missingQuery name) (· == .typeQuery) children
            else if isPlain children && name = "Readonly" then
              ofFirst (.missingArgument name) NodeKind.isType children
            else
              .ok (single (.reference name))
        | .parenthesizedType | .unionType | .arrayType =>
          match typesOf children with
          | .ok types => ofNested kind types
          | .error error => .error error
        | _ => ofText kind text

/-- What the first node of an accepted kind means. -/
def ofFirst (missing : ExtractionError) (accepts : NodeKind → Bool) :
    List Node → Except ExtractionError Resolution
  | [] => .error missing
  | node :: rest => if accepts node.kind then ofNode node else ofFirst missing accepts rest

/-- The types that the type nodes among several nodes mean, one after the other. -/
def typesOf : List Node → Except ExtractionError (List TypeVariant)
  | [] => .ok []
  | node :: rest =>
    if node.kind.isType then
      match ofNode node with
      | .error error => .error error
      | .ok resolution =>
        match typesOf rest with
        | .error error => .error error
        | .ok types => .ok (resolution.types ++ types)
    else
      typesOf rest

end

end Resolution

end DeclSchema
