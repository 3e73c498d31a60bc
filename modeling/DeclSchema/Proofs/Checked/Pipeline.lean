import DeclSchema.Proofs.Checked.Extraction
import DeclSchema.Schema.Basic

/-!
# The whole way with checked steps

The names of built-in types are looked up in a table, which is undefined for what is not in
it. With that, everything between a source text and its schema is defined.
-/

namespace DeclSchema.Checked

open Attempt Schema Xml

/-- The names that stand for simple types in a schema. -/
def builtinTypes : List (SimpleType × String) :=
  [(.any, "xs:anyType"), (.boolean, "xs:boolean"), (.number, decimalType),
    (.string, stringType), (.null, "xs:null"), (.undefined, "xs:undefined")]

/-- The name that stands for a simple type in a schema. -/
def builtinType (type : SimpleType) : Attempt SchemaError String :=
  demand (builtinTypes.lookup type)

/-- An attribute with its type, from the simple types and values it may have. -/
def typedAttribute (element name : String) (simple : List SimpleType) (values : List Literal) :
    Attempt SchemaError Tag :=
  let tag := (Tag.new "attribute").set "name" name
  match simple, values with
  | [], [] => throw (.missingType element name)
  | [], values => return tag.addTag (enumeration values)
  | [type], [] => return tag.set "type" (← builtinType type)
  | _, _ :: _ => throw (.mixedAttribute element name)
  | _, [] => throw (.severalTypes element name)

/-- The declaration of the attribute that a property of an element becomes. -/
def attributeTag (element : String) (property : Property) : Attempt SchemaError Tag :=
  match property.name with
  | none => throw (.unnamedAttribute element)
  | some name =>
    if (references property.types).isEmpty then do
      let tag ← typedAttribute element name (simpleTypes property.types)
        (allowedValues property.types)
      return if property.mandatory then tag.set "use" "required" else tag
    else
      throw (.attributeReference element name)

/-- The part of a complex type that a property becomes, if it becomes one. -/
def component (element : String) (mixed : Bool) (property : Property) :
    Attempt SchemaError (Option Tag) :=
  if property.isContent then
    done (modelGroup element property mixed)
  else
    return some (← attributeTag element property)

/-- The complex type of an element. -/
def complexType (element : Element) (mixed : Bool) : Attempt SchemaError Tag := do
  let components ← element.properties.mapM (component element.name mixed)
  return ((Tag.new "complexType").addTags components.reduceOption).sortBy rank

/-- The type of an element that holds text of a simple type beside attributes. -/
def extendedType (element : Element) (type : SimpleType) : Attempt SchemaError Tag := do
  let base ← builtinType type
  let attributes ← element.attributes.mapM (attributeTag element.name)
  let extension := ((Tag.new "extension").set "base" base).addTags attributes
  return Tag.nest [Tag.new "complexType", Tag.new "simpleContent"] extension

/-- The type of an element, to be put into its declaration. -/
def elementType (element : Element) : Attempt SchemaError (Option Tag) :=
  match contentType element, attribution element with
  | .empty, _ => return some emptyType
  | .simple _, .bare => return none
  | .simple .any, .attributed => throw (.attributesNextToAny element.name)
  | .simple type, .attributed => return some (← extendedType element type)
  | .elementOnly _, _ => return some (← complexType element false)
  | .mixed _, _ => return some ((← complexType element true).set "mixed" "true")

/-- The declaration of an element. -/
def elementDeclaration (element : Element) : Attempt SchemaError Tag := do
  let tag := (Tag.new "element").set "name" element.name
  match ← elementType element, contentType element with
  | some type, _ => return tag.addTag type
  | none, .simple type => return tag.set "type" (← builtinType type)
  | none, _ => return tag

/-- The schema of elements. -/
def build (elements : List Element) : Attempt SchemaError Tag := do
  return root.addTags (← elements.mapM elementDeclaration)

/-- Makes elements of the declarations in a source text, and a schema of them. -/
def convert (options : ExtractionOptions) (source : String) : Option Conversion := do
  let extraction ← extract options source
  return ⟨extraction, ← (build extraction.elements).run⟩

/-- Every simple type is in the table. -/
theorem builtinType_eq (type : SimpleType) :
    builtinType type = done (.ok (Schema.builtinType type)) := by
  cases type <;> rfl

theorem typedAttribute_eq (element name : String) (simple : List SimpleType)
    (values : List Literal) : typedAttribute element name simple values =
      done (Schema.typedAttribute element name simple values) := by
  unfold typedAttribute Schema.typedAttribute
  simp only [builtinType_eq, done_ok_bind]
  rcases simple with _ | ⟨type, _ | ⟨other, others⟩⟩ <;> cases values <;> rfl

theorem attributeTag_eq (element : String) (property : Property) :
    attributeTag element property = done (Schema.attributeTag element property) := by
  unfold attributeTag Schema.attributeTag
  cases property.name with
  | none => rfl
  | some name =>
    dsimp only
    rw [typedAttribute_eq]
    split
    · cases Schema.typedAttribute element name (simpleTypes property.types)
        (allowedValues property.types) <;> rfl
    · rfl

theorem component_eq (element : String) (mixed : Bool) (property : Property) :
    component element mixed property = done (Schema.component element mixed property) := by
  unfold component Schema.component
  rw [attributeTag_eq]
  split
  · rfl
  · cases Schema.attributeTag element property <;> rfl

theorem complexType_eq (element : Element) (mixed : Bool) :
    complexType element mixed = done (Schema.complexType element mixed) := by
  unfold complexType Schema.complexType
  rw [mapM_eq_done (component_eq element.name mixed)]
  cases element.properties.mapM (Schema.component element.name mixed) <;> rfl

theorem extendedType_eq (element : Element) (type : SimpleType) :
    extendedType element type = done (Schema.extendedType element type) := by
  unfold extendedType Schema.extendedType
  rw [builtinType_eq, done_ok_bind, mapM_eq_done (attributeTag_eq element.name)]
  cases element.attributes.mapM (Schema.attributeTag element.name) <;> rfl

theorem elementType_eq (element : Element) :
    elementType element = done (Schema.elementType element) := by
  unfold elementType Schema.elementType
  simp only [extendedType_eq, complexType_eq]
  cases contentType element with
  | empty => rfl
  | simple type =>
    cases attribution element with
    | bare => rfl
    | attributed =>
      have hextended : ∀ result : Except SchemaError Tag,
          (do return some (← done result) : Attempt SchemaError (Option Tag)) =
            done (some <$> result) := fun result => by cases result <;> rfl
      cases type with
      | any => rfl
      | _ => exact hextended _
  | elementOnly content => cases Schema.complexType element false <;> rfl
  | mixed content => cases Schema.complexType element true <;> rfl

theorem elementDeclaration_eq (element : Element) :
    elementDeclaration element = done (Schema.elementDeclaration element) := by
  unfold elementDeclaration Schema.elementDeclaration
  rw [elementType_eq]
  cases Schema.elementType element with
  | error error => rfl
  | ok type? =>
    rw [done_ok_bind]
    cases type? with
    | some type => rfl
    | none => cases contentType element <;> simp only [builtinType_eq, done_ok_bind] <;> rfl

theorem build_eq (elements : List Element) : build elements = done (Schema.build elements) := by
  unfold build Schema.build
  rw [mapM_eq_done elementDeclaration_eq]
  cases elements.mapM Schema.elementDeclaration <;> rfl

theorem convert_eq (options : ExtractionOptions) (source : String) :
    convert options source = some (Conversion.ofSource options source) := by
  rw [convert, extract_eq, Option.bind_eq_bind, Option.bind_some, build_eq]
  rfl

/-- No step between a source text and its schema is undefined, whatever the source and the
options are, and the checked steps lead to what the others do. -/
theorem always_defined (options : ExtractionOptions) (source : String) :
    tokenize source = some (DeclSchema.tokenize source) ∧
      parse source = some (Parse.ofSource source) ∧
      extract options source = some (Extraction.ofSource options source) ∧
      convert options source = some (Conversion.ofSource options source) :=
  ⟨tokenize_eq source, parse_eq source, extract_eq options source, convert_eq options source⟩

end DeclSchema.Checked
