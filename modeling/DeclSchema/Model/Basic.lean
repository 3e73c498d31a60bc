import DeclSchema.Number.Shortest

/-!
# Elements and their properties

The model that declarations become and that a schema is made from: elements with
properties, and a property's types, each a simple type, a restriction to literal
values, or a reference to another element.
-/

namespace DeclSchema

/-- The types that name no declaration and list no values. -/
inductive SimpleType where
  | any
  | boolean
  | number
  | string
  | null
  | undefined
deriving DecidableEq, Repr, Inhabited

namespace SimpleType

/-- The name of a simple type. -/
def name : SimpleType → String
  | .any => "any"
  | .boolean => "boolean"
  | .number => "number"
  | .string => "string"
  | .null => "null"
  | .undefined => "undefined"

/-- Every simple type. -/
def all : List SimpleType :=
  [.any, .boolean, .number, .string, .null, .undefined]

/-- The simple type of a given name. -/
def ofName? (name : String) : Option SimpleType :=
  all.find? (·.name == name)

/-- What is said of a name that no simple type has. -/
def unknownMessage (name : String) : String :=
  "`" ++ name ++ "` is not a simple type"

@[simp] theorem ofName?_name (type : SimpleType) : ofName? type.name = some type := by
  cases type <;> decide

end SimpleType

/-- A value that a restriction allows. -/
inductive Literal where
  | string (value : String)
  | number (value : Binary64)
deriving DecidableEq, Repr, Inhabited

namespace Literal

/-- Whether a literal is a number. -/
def isNumber : Literal → Bool
  | .string _ => false
  | .number _ => true

/-- Whether two literals are the same value. Numbers are compared as numbers, so the
two zeros are the same. -/
def same : Literal → Literal → Bool
  | .string a, .string b => a == b
  | .number x, .number y => x.same y
  | _, _ => false

/-- Schemas hold numbers with all their places and nothing behind whole ones; a value
half way between two numerals is written as the greater. -/
def layout : Layout :=
  ⟨.up, fun _ => true, ""⟩

/-- A literal as it is written in a schema. -/
def toText : Literal → String
  | .string value => value
  | .number value => value.toText layout

end Literal

/-- One of the types of a property. -/
inductive TypeVariant where
  | simple (type : SimpleType)
  /-- One of finitely many values. -/
  | restricted (values : List Literal)
  /-- Another element, by its name. -/
  | reference (name : String)
deriving DecidableEq, Repr, Inhabited

/-- A property of an element. `multiple` matters only for the property that holds the
content. -/
structure Property where
  name : Option String
  mandatory : Bool
  types : List TypeVariant
  multiple : Bool
deriving DecidableEq, Repr, Inhabited

namespace Property

/-- The name of the property that holds an element's content. All others are
attributes. -/
def contentName : String := "children"

/-- Whether a property holds the content of its element. -/
def isContent (property : Property) : Bool :=
  property.name == some contentName

end Property

/-- What a declaration becomes. The properties are in the order of declaration. -/
structure Element where
  name : String
  properties : List Property
deriving DecidableEq, Repr, Inhabited

namespace Element

/-- The first property that holds the content, if there is one. -/
def content? (element : Element) : Option Property :=
  element.properties.find? Property.isContent

/-- The properties that become attributes. -/
def attributes (element : Element) : List Property :=
  element.properties.filter (!·.isContent)

end Element

end DeclSchema
