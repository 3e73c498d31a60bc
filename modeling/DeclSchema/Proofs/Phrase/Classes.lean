import DeclSchema.Extraction.Resolution
import DeclSchema.Proofs.Parser.Placing

/-!
# Classes with any types in them

A class on one line with documentation that marks it: fields, methods and constructors in any
order. Types and bodies are any texts that can stand in a larger source. The class has a text
and a node; what comes before each type and each body are known tokens.
-/

namespace DeclSchema

open Pattern TokenStream DeclSchema.Parser

/-- A type with what it means. -/
structure TypeText where
  text : String
  node : Node
  left : State
  isType : IsTypeText text node left
  meaning : Resolution
  resolved : Resolution.ofNode node = .ok meaning

/-- What stands between the braces of a function. -/
structure Body where
  text : String
  embeddable : Embeddable text

/-- The body of a function. -/
def Body.print (body : Body) : String :=
  "\x7b " ++ body.text ++ " \x7d"

/-- What may be left out has a question mark. -/
def questionText (isOptional : Bool) : String :=
  if isOptional then "?" else ""

def questionGlyphs (isOptional : Bool) : List Glyph :=
  if isOptional then [Glyph.inline .question "?"] else []

def questionNodes (isOptional : Bool) : List Node :=
  if isOptional then [Node.bare .questionToken []] else []

/-- A word before the name of a parameter. -/
inductive Modifier where
  | ofPublic
  | ofPrivate
  | ofProtected
  | ofReadonly
deriving DecidableEq

namespace Modifier

def text : Modifier → String
  | .ofPublic => "public"
  | .ofPrivate => "private"
  | .ofProtected => "protected"
  | .ofReadonly => "readonly"

def kind : Modifier → NodeKind
  | .ofPublic => .publicKeyword
  | .ofPrivate => .privateKeyword
  | .ofProtected => .protectedKeyword
  | .ofReadonly => .readonlyKeyword

def glyph (modifier : Modifier) : Glyph :=
  .inline .word modifier.text

def node (modifier : Modifier) : Node :=
  .bareLeaf modifier.kind modifier.text

theorem modifier?_text (modifier : Modifier) :
    NodeKind.modifier? modifier.text = some modifier.kind := by
  cases modifier <;> rfl

end Modifier

/-- A parameter of a constructor. -/
structure ParameterPhrase where
  modifiers : List Modifier
  name : Word
  isOptional : Bool
  typeText : TypeText

namespace ParameterPhrase

/-- The text before the type. -/
def head (parameter : ParameterPhrase) : String :=
  String.join (parameter.modifiers.map fun modifier => modifier.text ++ " ") ++
    parameter.name.text ++ questionText parameter.isOptional ++ ": "

def print (parameter : ParameterPhrase) : String :=
  parameter.head ++ parameter.typeText.text

/-- The tokens before the type. -/
def glyphs (parameter : ParameterPhrase) : List Glyph :=
  parameter.modifiers.map Modifier.glyph ++ [.inline .word parameter.name.text] ++
    questionGlyphs parameter.isOptional ++ [.inline .colon ":"]

def node (parameter : ParameterPhrase) : Node :=
  .bare .parameter (parameter.modifiers.map Modifier.node ++ [parameter.name.node] ++
    questionNodes parameter.isOptional ++ [parameter.typeText.node.withoutSpans])

end ParameterPhrase

/-- Parameters in round brackets. -/
def parametersText (parameters : List ParameterPhrase) : String :=
  "(" ++ ", ".intercalate (parameters.map ParameterPhrase.print) ++ ")"

/-- What stands before the type of a field: the key of a field of the instances, of a field of
the class itself, or a name that is hidden from others. -/
inductive FieldHead where
  | ofInstance (key : String) (isOptional : Bool)
  | ofStatic (key : String)
  | ofHidden (name : Word)

namespace FieldHead

def print : FieldHead → String
  | .ofInstance key isOptional => " " ++ Quoted.quote key ++ questionText isOptional ++ ": "
  | .ofStatic key => " " ++ "static" ++ " " ++ Quoted.quote key ++ ": "
  | .ofHidden name => " #" ++ name.text ++ ": "

def glyphs : FieldHead → List Glyph
  | .ofInstance key isOptional =>
    [.inline .string (Quoted.quote key)] ++ questionGlyphs isOptional ++ [.inline .colon ":"]
  | .ofStatic key =>
    [.inline .word "static", .inline .string (Quoted.quote key), .inline .colon ":"]
  | .ofHidden name => [.inline .hash "#", .inline .word name.text, .inline .colon ":"]

def nodes : FieldHead → List Node
  | .ofInstance key isOptional => .bareLeaf .stringLiteral key :: questionNodes isOptional
  | .ofStatic key => [.bareLeaf .staticKeyword "static", .bareLeaf .stringLiteral key]
  | .ofHidden name => [.bareLeaf .identifier ("#" ++ name.text)]

end FieldHead

/-- A member of a class. -/
inductive MemberPhrase where
  | field (head : FieldHead) (typeText : TypeText)
  | method (name : Word) (h : name.text ≠ "constructor") (body : Body)
  | constructor (parameters : List ParameterPhrase) (body : Body)

namespace MemberPhrase

def print : MemberPhrase → String
  | .field head typeText => head.print ++ typeText.text ++ ";"
  | .method name _ body => " " ++ name.text ++ parametersText [] ++ " " ++ body.print
  | .constructor parameters body =>
    " " ++ "constructor" ++ parametersText parameters ++ " " ++ body.print

def node : MemberPhrase → Node
  | .field head typeText =>
    .bare .propertyDeclaration (head.nodes ++ [typeText.node.withoutSpans])
  | .method name _ _ => .bare .methodDeclaration [name.node]
  | .constructor parameters _ =>
    .bare .constructorDeclaration (parameters.map ParameterPhrase.node)

end MemberPhrase

/-- A class with a name and members. -/
structure ClassPhrase where
  name : Word
  named : name.text ∉ ["extends", "implements"]
  members : List MemberPhrase

namespace ClassPhrase

/-- The documentation that marks a class. -/
def marker : String :=
  "/** @schema */"

def print (declared : ClassPhrase) : String :=
  marker ++ " class" ++ " " ++ declared.name.text ++ " \x7b" ++
    String.join (declared.members.map MemberPhrase.print) ++ " \x7d"

def node (declared : ClassPhrase) : Node :=
  { Node.bare .classDeclaration (declared.name.node :: declared.members.map MemberPhrase.node) with
    tags := DocTag.ofComment marker }

end ClassPhrase

theorem spells_question (isOptional : Bool) {tail : List Char} :
    Spells (questionText isOptional) (questionGlyphs isOptional) tail := by
  cases isOptional with
  | true => exact .marks "?" rfl
  | false => exact .empty

theorem stops_question (isOptional : Bool) (tail : List Char) :
    stops ((questionText isOptional).toList ++ ": ".toList ++ tail) := by
  cases isOptional <;> rfl

namespace ParameterPhrase

theorem spells_modifiers (modifiers : List Modifier) (tail : List Char) :
    Spells (String.join (modifiers.map fun modifier => modifier.text ++ " "))
      (modifiers.map Modifier.glyph) tail := by
  induction modifiers with
  | nil => exact .empty
  | cons modifier modifiers ih =>
    have hword : isWord modifier.text.toList := by cases modifier <;> rfl
    rw [List.map_cons, String.join_cons, List.map_cons]
    exact ((Spells.word_of_stops hword rfl).append (.marks " " rfl)).append ih

theorem spells_head (parameter : ParameterPhrase) (tail : List Char) :
    Spells parameter.head parameter.glyphs tail := by
  have hname := Spells.word_of_stops parameter.name.spelled
    (stops_question parameter.isOptional tail)
  rw [List.append_assoc] at hname
  exact (((spells_modifiers _ _).append hname).append (spells_question _)).append (.marks ": " rfl)

end ParameterPhrase

namespace FieldHead

theorem spells (head : FieldHead) (tail : List Char) : Spells head.print head.glyphs tail := by
  cases head with
  | ofInstance key isOptional =>
    exact (((Spells.marks " " rfl).append (.string key)).append (spells_question _)).append
      (.marks ": " rfl)
  | ofStatic key =>
    have hword : Spells "static" [.inline .word "static"]
        (" ".toList ++ ((Quoted.quote key).toList ++ (": ".toList ++ tail))) :=
      .word_of_stops rfl rfl
    exact ((((Spells.marks " " rfl).append hword).append (.marks " " rfl)).append
      (.string key)).append (.marks ": " rfl)
  | ofHidden name =>
    exact ((Spells.marks " #" rfl).append (.word_of_stops name.spelled rfl)).append
      (.marks ": " rfl)

end FieldHead

end DeclSchema
