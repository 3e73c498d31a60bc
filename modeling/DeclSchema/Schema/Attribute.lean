import DeclSchema.Model.Basic
import DeclSchema.Schema.Error
import DeclSchema.Xml.Layout

/-!
# Attributes

The declaration of an attribute: its type is a built-in type, or the enumeration of
the values that the attribute may have.
-/

namespace DeclSchema.Schema

open Xml

/-- The built-in type of text. -/
def stringType : String := "xs:string"

/-- The built-in type of decimal numbers. -/
def decimalType : String := "xs:decimal"

/-- The name that stands for a simple type in a schema. -/
def builtinType : SimpleType → String
  | .any => "xs:anyType"
  | .boolean => "xs:boolean"
  | .number => decimalType
  | .string => stringType
  | .null => "xs:null"
  | .undefined => "xs:undefined"

/-- The simple types among types. -/
def simpleTypes (types : List TypeVariant) : List SimpleType :=
  types.filterMap fun
    | .simple type => some type
    | _ => none

/-- The values of the restrictions among types. -/
def allowedValues (types : List TypeVariant) : List Literal :=
  types.flatMap fun
    | .restricted values => values
    | _ => []

/-- The names of the references among types. -/
def references (types : List TypeVariant) : List String :=
  types.filterMap fun
    | .reference name => some name
    | _ => none

/-- One of the values of an enumeration. -/
def enumerationValue (value : Literal) : Tag :=
  (Tag.new "enumeration").set "value" value.toText

/-- The type of values that are enumerated: a number if all of them are, and
otherwise text. -/
def enumeration (values : List Literal) : Tag :=
  let base := if values.all Literal.isNumber then decimalType else stringType
  let restriction := ((Tag.new "restriction").set "base" base).addTags
    (values.map enumerationValue)
  (Tag.new "simpleType").addTag restriction

/-- An attribute with its type, from the simple types and values it may have. -/
def typedAttribute (element name : String) (simple : List SimpleType) (values : List Literal) :
    Except SchemaError Tag :=
  let tag := (Tag.new "attribute").set "name" name
  match simple, values with
  | [], [] => .error (.missingType element name)
  | [], values => .ok (tag.addTag (enumeration values))
  | [type], [] => .ok (tag.set "type" (builtinType type))
  | _, _ :: _ => .error (.mixedAttribute element name)
  | _, [] => .error (.severalTypes element name)

/-- The declaration of the attribute that a property of an element becomes. -/
def attributeTag (element : String) (property : Property) : Except SchemaError Tag :=
  match property.name with
  | none => .error (.unnamedAttribute element)
  | some name =>
    if (references property.types).isEmpty then
      match typedAttribute element name (simpleTypes property.types)
          (allowedValues property.types) with
      | .error error => .error error
      | .ok tag => .ok (if property.mandatory then tag.set "use" "required" else tag)
    else
      .error (.attributeReference element name)

end DeclSchema.Schema
