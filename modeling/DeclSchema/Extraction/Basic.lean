import DeclSchema.Extraction.Resolution
import DeclSchema.Parser.Declaration

/-!
# From declarations to elements

Interfaces, and classes with a marker in their documentation, become elements. A
declaration that cannot become one is dropped with a diagnostic; the others are not
affected by it.
-/

namespace DeclSchema

/-- Which declarations become elements. -/
structure ExtractionOptions where
  /-- The documentation tag of the classes that become elements. -/
  marker : String := "schema"
  /-- Whether interfaces become elements. -/
  interfaces : Bool := true
  /-- Whether only exported declarations become elements. -/
  exportedOnly : Bool := false
deriving DecidableEq, Repr

/-- The elements of a source, the diagnostics of the declarations that were dropped,
and the errors that stand in no declaration. -/
structure Extraction where
  elements : List Element
  dropped : List Diagnostic
  stray : List ParseError

namespace Extraction

/-- The property that a member or parameter declares. -/
def property (node : Node) : Except ExtractionError Property :=
  let name := node.childText [.identifier, .stringLiteral]
  match node.firstChildWhere NodeKind.isType with
  | none => .error (.untyped (name.getD node.kind.name))
  | some type =>
    match Resolution.ofNode type with
    | .error error => .error error
    | .ok resolution =>
      .ok ⟨name, !node.hasChild .questionToken, resolution.types, resolution.multiple⟩

/-- Whether a field belongs to the instances of a class, and to whoever uses them. -/
def isInstanceField (field : Node) : Bool :=
  !field.hasChild .staticKeyword &&
    !(field.childText [.identifier]).any (·.toList.head? == some '#')

/-- The members of an interface that are properties of its element. -/
def interfaceMembers (node : Node) : List Node :=
  node.childrenOf [.propertySignature]

/-- The members of a class that are properties of its element: the fields of its
instances, then the public parameters of its constructors. -/
def classMembers (node : Node) : List Node :=
  (node.childrenOf [.propertyDeclaration]).filter isInstanceField ++
    ((node.childrenOf [.constructorDeclaration]).flatMap (·.childrenOf [.parameter])).filter
      (·.hasChild .publicKeyword)

/-- The name of a declaration. -/
def declaredName (node : Node) : Option String :=
  node.childText [.identifier]

/-- Whether a node is a declaration that becomes an element. -/
def selects (options : ExtractionOptions) (node : Node) : Bool :=
  (match node.kind with
    | .interfaceDeclaration => options.interfaces
    | .classDeclaration => node.hasTag options.marker
    | _ => false) &&
  (!options.exportedOnly || node.hasChild .exportKeyword)

/-- The element of a declaration, with its properties from the given members. -/
def elementOf (what : String) (members : List Node) (node : Node) :
    Except ExtractionError Element :=
  match declaredName node with
  | none => .error (.unnamed what)
  | some name => return ⟨name, ← members.mapM property⟩

/-- The element of an interface or class. -/
def element (node : Node) : Except ExtractionError Element :=
  if node.kind = .interfaceDeclaration then
    elementOf "interface" (interfaceMembers node) node
  else
    elementOf "class" (classMembers node) node

/-- What a selected declaration becomes when no other is in its way. One with an error
in it is incomplete, and becomes nothing. -/
def outcome (parse : Parse) (node : Node) : Except ExtractionError Element :=
  match (parse.errorsWithin node.span).head? with
  | some error => .error (.malformed error)
  | none => element node

/-- Adds what a declaration becomes. The first element of a name is kept. -/
def add (parse : Parse) (extraction : Extraction) (node : Node) : Extraction :=
  match outcome parse node with
  | .ok element =>
    if extraction.elements.any (·.name == element.name) then
      { extraction with
        dropped := extraction.dropped ++ [⟨declaredName node, .duplicate⟩] }
    else
      { extraction with elements := extraction.elements ++ [element] }
  | .error error =>
    { extraction with dropped := extraction.dropped ++ [⟨declaredName node, error⟩] }

/-- The declarations of a tree that become elements, in the order of the source. -/
def selected (options : ExtractionOptions) (parse : Parse) : List Node :=
  parse.root.descendants.filter (selects options)

/-- The errors that stand in none of the given declarations. -/
def strayErrors (parse : Parse) (nodes : List Node) : List ParseError :=
  parse.errors.filter fun error => !nodes.any (·.span.contains error.span.start)

/-- The elements of a declaration tree. -/
def ofParse (options : ExtractionOptions) (parse : Parse) : Extraction :=
  let nodes := selected options parse
  nodes.foldl (add parse) ⟨[], [], strayErrors parse nodes⟩

/-- The elements of a source text. -/
def ofSource (options : ExtractionOptions) (source : String) : Extraction :=
  ofParse options (Parse.ofSource source)

/-- The diagnostics of the declarations that were dropped, then those of the errors in
no declaration. -/
def diagnostics (extraction : Extraction) : List Diagnostic :=
  extraction.dropped ++ extraction.stray.map fun error => ⟨none, .malformed error⟩

end Extraction

end DeclSchema
