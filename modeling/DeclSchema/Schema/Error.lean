/-!
# Why there is no schema

An element with a shape that no schema can express. One such element means that there
is no schema at all.
-/

namespace DeclSchema

/-- Why an element has no declaration in a schema. -/
inductive SchemaError where
  /-- An attribute refers to an element. -/
  | attributeReference (element name : String)
  /-- An attribute has neither types nor values. -/
  | missingType (element name : String)
  /-- An attribute has no name. -/
  | unnamedAttribute (element : String)
  /-- An attribute has both types and values. -/
  | mixedAttribute (element name : String)
  /-- An attribute has several types. -/
  | severalTypes (element name : String)
  /-- There are attributes beside a content of any kind. -/
  | attributesNextToAny (element : String)
  /-- The content mixes elements and a simple type other than plain text. -/
  | mixedContent (element simple : String)
  /-- The content is restricted to values. -/
  | restrictedContent (element : String)
deriving DecidableEq, Repr

namespace SchemaError

/-- The wording of an error. -/
def message : SchemaError → String
  | .attributeReference element name =>
    "attribute cannot have references: " ++ element ++ "." ++ name
  | .missingType element name =>
    "attribute must have a type: " ++ element ++ "." ++ name
  | .unnamedAttribute element => "attribute must have a name: " ++ element
  | .mixedAttribute element name =>
    "not implemented yet: attribute " ++ element ++ "." ++ name
      ++ " mixing literal values and simple types"
  | .severalTypes element name =>
    "not implemented yet: attribute " ++ element ++ "." ++ name
      ++ " with more than one simple type"
  | .attributesNextToAny element =>
    "not implemented yet: " ++ element ++ ": attributes next to `any` content"
  | .mixedContent element simple =>
    "not implemented yet: " ++ element ++ ".children mixing " ++ simple ++ " with elements"
  | .restrictedContent element =>
    "not implemented yet: " ++ element ++ ".children restricted to literal values"

end SchemaError

end DeclSchema
