import DeclSchema.Json.Reader
import DeclSchema.Json.Writer
import DeclSchema.Model.Basic

/-!
# The model as JSON

Simple types are bare strings, restrictions objects with the field `value`, and
references objects with the field `reference`. A field that says no more than its
absence is left out. `Element.listOfJson?` reads what `Element.listToJson` writes, and
more: the order of fields is free, unknown fields are passed over, and elements and
properties may be written as arrays of their fields.
-/

namespace DeclSchema

namespace Json

/-- The values of the fields of a name. -/
def valuesOf (name : String) (fields : List (Option String × Json)) : List Json :=
  (fields.filter (·.1 == some name)).map (·.2)

/-- Whether the name of every field has a text. -/
def allNamed (fields : List (Option String × Json)) : Bool :=
  fields.all (·.1.isSome)

/-- The value of a field that must be there, once. -/
def required? (name : String) (fields : List (Option String × Json)) : Option Json :=
  match valuesOf name fields with
  | [value] => some value
  | _ => none

/-- What is read from a field that may be missing, but is not repeated. -/
def optional? (name : String) (preset : α) (read : Json → Option α)
    (fields : List (Option String × Json)) : Option α :=
  match valuesOf name fields with
  | [] => some preset
  | [value] => read value
  | _ => none

/-- The truth value that a JSON value is. -/
def bool? : Json → Option Bool
  | .bool value => some value
  | _ => none

/-- The text that a JSON value is. -/
def text? : Json → Option String
  | .string text => text
  | _ => none

/-- The text that a JSON value is, where null stands for its absence. -/
def textOrNull? : Json → Option (Option String)
  | .null => some none
  | value => value.text?.map some

/-- The items of an array, each read by the same reader. -/
def listOf? (read : Json → Option α) : Json → Option (List α)
  | .array items => items.mapM read
  | _ => none

/-- Whether all strings and names in a value have a text, and all numbers are in the
range of 64 bits. -/
def isExact : Json → Bool
  | .number value => (Binary64.ofNumeral? value).isSome
  | .string text => text.isSome
  | .array items => exactItems items
  | .object fields => exactFields fields
  | _ => true
where
  /-- The same for the items of an array. -/
  exactItems : List Json → Bool
    | [] => true
    | item :: rest => isExact item && exactItems rest
  /-- The same for the fields of an object. -/
  exactFields : List (Option String × Json) → Bool
    | [] => true
    | (name, value) :: rest => name.isSome && isExact value && exactFields rest

end Json

namespace Literal

/-- A literal as JSON. -/
def toJson : Literal → Json
  | .string value => .string (some value)
  | .number value => .number (value.shortest Json.layout.tie)

/-- Reads a literal. -/
def ofJson? : Json → Option Literal
  | .string text => text.map .string
  | .number value => (Binary64.ofNumeral? value).map .number
  | _ => none

end Literal

namespace TypeVariant

/-- A type as JSON. -/
def toJson : TypeVariant → Json
  | .simple type => .string (some type.name)
  | .restricted values => .object [(some "value", .array (values.map Literal.toJson))]
  | .reference name => .object [(some "reference", .string (some name))]

/-- Reads a simple type: its name, or an object with the name as its only field, which
is null. -/
def simpleOfJson? : Json → Option TypeVariant
  | .string (some name) => (SimpleType.ofName? name).map .simple
  | .object [(some name, .null)] => (SimpleType.ofName? name).map .simple
  | _ => none

/-- Reads a restriction. -/
def restrictedOfJson? : Json → Option TypeVariant
  | .object fields => do
    let values ← Json.required? "value" fields
    return .restricted (← values.listOf? Literal.ofJson?)
  | _ => none

/-- Reads a reference. -/
def referenceOfJson? : Json → Option TypeVariant
  | .object fields => do
    let name ← Json.required? "reference" fields
    return .reference (← name.text?)
  | _ => none

/-- How deep arrays and objects may be nested in a type that is read. -/
def maxJsonDepth : Nat := 122

/-- Reads a type, as the first of simple type, restriction and reference that it can
be read as. A type is read as a whole, so nothing in it may be out of range, also not
what is passed over. -/
def ofJson? (json : Json) : Option TypeVariant :=
  if json.isExact && json.depth ≤ maxJsonDepth then
    simpleOfJson? json <|> restrictedOfJson? json <|> referenceOfJson? json
  else
    none

end TypeVariant

namespace Property

/-- A property as JSON. -/
def toJson (property : Property) : Json :=
  let name :=
    match property.name with
    | none => []
    | some name => [(some "name", .string (some name))]
  let multiple := if property.multiple then [(some "multiple", .bool true)] else []
  .object (name ++ [(some "mandatory", .bool property.mandatory),
    (some "types", .array (property.types.map TypeVariant.toJson))] ++ multiple)

/-- Reads the types of a property. -/
def typesOfJson? : Json → Option (List TypeVariant) :=
  Json.listOf? TypeVariant.ofJson?

/-- Reads a property. In an array, the last field may be missing. -/
def ofJson? : Json → Option Property
  | .object fields =>
    if Json.allNamed fields then do
      let name ← Json.optional? "name" none Json.textOrNull? fields
      let mandatory ← Json.required? "mandatory" fields >>= Json.bool?
      let types ← Json.required? "types" fields >>= typesOfJson?
      let multiple ← Json.optional? "multiple" false Json.bool? fields
      return ⟨name, mandatory, types, multiple⟩
    else
      none
  | .array [name, mandatory, types] => do
    return ⟨← name.textOrNull?, ← mandatory.bool?, ← typesOfJson? types, false⟩
  | .array [name, mandatory, types, multiple] => do
    return ⟨← name.textOrNull?, ← mandatory.bool?, ← typesOfJson? types, ← multiple.bool?⟩
  | _ => none

end Property

namespace Element

/-- An element as JSON. -/
def toJson (element : Element) : Json :=
  .object [(some "name", .string (some element.name)),
    (some "properties", .array (element.properties.map Property.toJson))]

/-- Reads an element. -/
def ofJson? : Json → Option Element
  | .object fields =>
    if Json.allNamed fields then do
      let name ← Json.required? "name" fields >>= Json.text?
      let properties ← Json.required? "properties" fields >>= Json.listOf? Property.ofJson?
      return ⟨name, properties⟩
    else
      none
  | .array [name, properties] => do
    return ⟨← name.text?, ← properties.listOf? Property.ofJson?⟩
  | _ => none

/-- Elements as JSON. -/
def listToJson (elements : List Element) : Json :=
  .array (elements.map toJson)

/-- Reads elements. -/
def listOfJson? : Json → Option (List Element) :=
  Json.listOf? ofJson?

/-- Reads elements from a JSON text. -/
def listOfText? (text : String) : Option (List Element) :=
  Json.ofText? text >>= listOfJson?

/-- Elements as a JSON text on one line. -/
def compactText (elements : List Element) : String :=
  (listToJson elements).compact

/-- Elements as a JSON text over indented lines. -/
def prettyText (elements : List Element) : String :=
  (listToJson elements).pretty 0

end Element

end DeclSchema
