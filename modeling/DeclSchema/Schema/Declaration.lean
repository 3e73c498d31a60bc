import DeclSchema.Schema.Particle

/-!
# Element declarations

Each element becomes a global declaration. Its shape depends on what the element may
hold, its content type, and on whether it has attributes beside it.
-/

namespace DeclSchema.Schema

open Xml

/-- What an element may hold. -/
inductive ContentType where
  /-- Nothing; the element has no properties. -/
  | empty
  /-- Text of a simple type. How often it may occur is not expressed. -/
  | simple (type : SimpleType)
  /-- Elements only; nothing when the element has no content property. -/
  | elementOnly (content : Option Property)
  /-- Elements with text between them. -/
  | mixed (content : Property)
deriving DecidableEq, Repr

/-- Whether there are attributes beside the content. -/
inductive Attribution where
  | bare
  | attributed
deriving DecidableEq, Repr

/-- What the content property of an element says of its content. -/
def contentTypeOf (content : Property) : ContentType :=
  match content.types with
  | [.simple type] => .simple type
  | types => if types.contains (.simple .string) then .mixed content else .elementOnly (some content)

/-- What an element may hold. -/
def contentType (element : Element) : ContentType :=
  if element.properties.isEmpty then
    .empty
  else
    match element.content? with
    | none => .elementOnly none
    | some content => contentTypeOf content

/-- Whether an element has attributes. -/
def attribution (element : Element) : Attribution :=
  if element.attributes.isEmpty then .bare else .attributed

/-- The part of a complex type that a property becomes, if it becomes one. -/
def component (element : String) (mixed : Bool) (property : Property) :
    Except SchemaError (Option Tag) :=
  if property.isContent then
    modelGroup element property mixed
  else
    match attributeTag element property with
    | .ok tag => .ok (some tag)
    | .error error => .error error

/-- The place of a part of a complex type: groups, then attributes, then the rest. -/
def rank : Content → Int
  | .text _ => 2
  | .tag name _ _ =>
    match name with
    | "sequence" | "choice" | "all" | "group" => 0
    | "attribute" | "attributeGroup" => 1
    | _ => 2

/-- The complex type of an element. -/
def complexType (element : Element) (mixed : Bool) : Except SchemaError Tag :=
  match element.properties.mapM (component element.name mixed) with
  | .ok components =>
    .ok (((Tag.new "complexType").addTags components.reduceOption).sortBy rank)
  | .error error => .error error

/-- The type of an element that holds nothing: a text of no length. -/
def emptyType : Tag :=
  Tag.nest [Tag.new "simpleType", (Tag.new "restriction").set "base" stringType]
    ((Tag.new "length").set "value" "0")

/-- The type of an element that holds text of a simple type beside attributes. -/
def extendedType (element : Element) (type : SimpleType) : Except SchemaError Tag :=
  match element.attributes.mapM (attributeTag element.name) with
  | .ok attributes =>
    let extension := ((Tag.new "extension").set "base" (builtinType type)).addTags attributes
    .ok (Tag.nest [Tag.new "complexType", Tag.new "simpleContent"] extension)
  | .error error => .error error

/-- The type of an element, to be put into its declaration; none when it is a
built-in type, which the declaration names. -/
def elementType (element : Element) : Except SchemaError (Option Tag) :=
  match contentType element, attribution element with
  | .empty, _ => .ok (some emptyType)
  | .simple _, .bare => .ok none
  | .simple .any, .attributed => .error (.attributesNextToAny element.name)
  | .simple type, .attributed => some <$> extendedType element type
  | .elementOnly _, _ => some <$> complexType element false
  | .mixed _, _ => (fun tag => some (tag.set "mixed" "true")) <$> complexType element true

/-- The declaration of an element. -/
def elementDeclaration (element : Element) : Except SchemaError Tag := do
  let tag := (Tag.new "element").set "name" element.name
  match ← elementType element, contentType element with
  | some type, _ => return tag.addTag type
  | none, .simple type => return tag.set "type" (builtinType type)
  | none, _ => return tag

end DeclSchema.Schema
