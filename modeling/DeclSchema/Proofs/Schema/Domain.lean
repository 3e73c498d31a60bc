import DeclSchema.Proofs.Extraction.Merging
import DeclSchema.Proofs.Traversal
import DeclSchema.Schema.Basic

/-!
# Which elements have a declaration

Whether an element has a declaration is said here of its properties and their types,
without the functions that write schemas: `Projectable` for an element, `Acceptable` for
an attribute and `Presentable` for a part of a complex type. Beside each of them stands
the relation to the errors of what is refused: `AttributeFailure`, `PropertyFailure` and
`Failure`. `build_domain` puts them together: a schema exists exactly if every element is
projectable, and otherwise the first element that is not gives the error.
-/

namespace DeclSchema

namespace TypeVariant

/-- Whether a type is a simple one. -/
def isSimple : TypeVariant → Bool
  | .simple _ => true
  | _ => false

/-- Whether a type is a reference. -/
def isReference : TypeVariant → Bool
  | .reference _ => true
  | _ => false

end TypeVariant

namespace Schema

open Xml TypeVariant

section

variable {types : List TypeVariant}

theorem mem_references {name : String} : name ∈ references types ↔ .reference name ∈ types := by
  rw [references, List.mem_filterMap]
  constructor
  · rintro ⟨type, htype, hname⟩
    cases type <;> cases hname
    exact htype
  · intro h
    exact ⟨_, h, rfl⟩

theorem references_isEmpty_iff :
    (references types).isEmpty ↔ ∀ type ∈ types, ¬ type.isReference := by
  rw [List.isEmpty_iff, references, List.filterMap_eq_nil_iff]
  refine forall₂_congr fun type _ => ?_
  cases type <;> simp [isReference]

theorem length_simpleTypes : (simpleTypes types).length = types.countP isSimple := by
  rw [simpleTypes, List.length_filterMap_eq_countP]
  refine List.countP_congr fun type _ => ?_
  cases type <;> simp [isSimple]

theorem allowedValues_eq_nil_iff :
    allowedValues types = [] ↔ ∀ type ∈ types, type.allowed = [] := by
  rw [allowedValues, List.flatMap_eq_nil_iff]
  refine forall₂_congr fun type _ => ?_
  cases type <;> simp [allowed]

theorem allowedValues_ne_nil_iff :
    allowedValues types ≠ [] ↔ ∃ type ∈ types, type.allowed ≠ [] := by
  rw [Ne, allowedValues_eq_nil_iff]
  simp

end

/-- An attribute has a declaration if it has a name, no references, and either values that
it may have or one simple type. -/
structure Acceptable (property : Property) : Prop where
  named : property.name.isSome
  unreferenced : ∀ type ∈ property.types, ¬ type.isReference
  typed :
    (property.types.countP isSimple = 0 ∧ ∃ type ∈ property.types, type.allowed ≠ []) ∨
    (property.types.countP isSimple = 1 ∧ ∀ type ∈ property.types, type.allowed = [])

instance (property : Property) : Decidable (Acceptable property) :=
  decidable_of_iff (property.name.isSome ∧ (∀ type ∈ property.types, ¬ type.isReference) ∧
      ((property.types.countP isSimple = 0 ∧ ∃ type ∈ property.types, type.allowed ≠ []) ∨
        (property.types.countP isSimple = 1 ∧ ∀ type ∈ property.types, type.allowed = [])))
    ⟨fun ⟨hnamed, hunreferenced, htyped⟩ => ⟨hnamed, hunreferenced, htyped⟩,
      fun h => ⟨h.named, h.unreferenced, h.typed⟩⟩

/-- Why a property of an element is no attribute. A missing name counts before a
reference, and a reference before the other causes. -/
inductive AttributeFailure (element : String) (property : Property) : SchemaError → Prop
  | unnamed (hname : property.name = none) :
    AttributeFailure element property (.unnamedAttribute element)
  | reference {name : String} (hname : property.name = some name)
      (hreference : ∃ type ∈ property.types, type.isReference) :
    AttributeFailure element property (.attributeReference element name)
  | missing {name : String} (hname : property.name = some name)
      (hreferences : ∀ type ∈ property.types, ¬ type.isReference)
      (hsimple : property.types.countP isSimple = 0)
      (hvalues : ∀ type ∈ property.types, type.allowed = []) :
    AttributeFailure element property (.missingType element name)
  | mixed {name : String} (hname : property.name = some name)
      (hreferences : ∀ type ∈ property.types, ¬ type.isReference)
      (hsimple : property.types.countP isSimple ≠ 0)
      (hvalues : ∃ type ∈ property.types, type.allowed ≠ []) :
    AttributeFailure element property (.mixedAttribute element name)
  | several {name : String} (hname : property.name = some name)
      (hreferences : ∀ type ∈ property.types, ¬ type.isReference)
      (hsimple : 2 ≤ property.types.countP isSimple)
      (hvalues : ∀ type ∈ property.types, type.allowed = []) :
    AttributeFailure element property (.severalTypes element name)

theorem exists_typedAttribute_iff {element name : String} {simple : List SimpleType}
    {values : List Literal} :
    (∃ tag, typedAttribute element name simple values = .ok tag) ↔
      (simple.length = 0 ∧ values ≠ []) ∨ (simple.length = 1 ∧ values = []) := by
  rcases simple with - | ⟨type, - | ⟨other, rest⟩⟩ <;> cases values <;> simp [typedAttribute]

theorem typedAttribute_eq_error_iff {element name : String} {simple : List SimpleType}
    {values : List Literal} {error : SchemaError} :
    typedAttribute element name simple values = .error error ↔
      (simple.length = 0 ∧ values = [] ∧ error = .missingType element name) ∨
      (simple.length ≠ 0 ∧ values ≠ [] ∧ error = .mixedAttribute element name) ∨
      (2 ≤ simple.length ∧ values = [] ∧ error = .severalTypes element name) := by
  rcases simple with - | ⟨type, - | ⟨other, rest⟩⟩ <;> cases values <;>
    simp [typedAttribute, eq_comm]

theorem attributeTag_of_none {element : String} {property : Property}
    (hname : property.name = none) :
    attributeTag element property = .error (.unnamedAttribute element) := by
  rw [attributeTag, hname]

theorem attributeTag_of_reference {element name : String} {property : Property}
    (hname : property.name = some name) (h : ¬ (references property.types).isEmpty) :
    attributeTag element property = .error (.attributeReference element name) := by
  simp only [attributeTag, hname]
  exact if_neg h

/-- An attribute without references is declared as its simple types and values say. -/
theorem attributeTag_of_typed {element name : String} {property : Property}
    (hname : property.name = some name) (h : (references property.types).isEmpty) :
    attributeTag element property =
      (typedAttribute element name (simpleTypes property.types)
        (allowedValues property.types)).map
        fun tag => if property.mandatory then tag.set "use" "required" else tag := by
  simp only [attributeTag, hname, if_pos h]
  cases typedAttribute element name (simpleTypes property.types)
    (allowedValues property.types) <;> rfl

theorem exists_attributeTag_iff (element : String) {property : Property} :
    (∃ tag, attributeTag element property = .ok tag) ↔ Acceptable property := by
  cases hname : property.name with
  | none =>
    rw [attributeTag_of_none hname]
    constructor
    · rintro ⟨tag, h⟩
      cases h
    · intro h
      simpa [hname] using h.named
  | some name =>
    by_cases hreferences : (references property.types).isEmpty
    · rw [attributeTag_of_typed hname hreferences, exists_map_eq_ok_iff,
        exists_typedAttribute_iff, length_simpleTypes, allowedValues_ne_nil_iff,
        allowedValues_eq_nil_iff]
      exact ⟨fun h => ⟨by simp [hname], references_isEmpty_iff.mp hreferences, h⟩, (·.typed)⟩
    · rw [attributeTag_of_reference hname hreferences]
      constructor
      · rintro ⟨tag, h⟩
        cases h
      · intro h
        exact absurd (references_isEmpty_iff.mpr h.unreferenced) hreferences

theorem attributeTag_eq_error_iff {element : String} {property : Property} {error : SchemaError} :
    attributeTag element property = .error error ↔ AttributeFailure element property error := by
  constructor
  · intro h
    cases hname : property.name with
    | none =>
      cases (attributeTag_of_none hname).symm.trans h
      exact .unnamed hname
    | some name =>
      by_cases hreferences : (references property.types).isEmpty
      · have hnone := references_isEmpty_iff.mp hreferences
        rw [attributeTag_of_typed hname hreferences, map_eq_error_iff,
          typedAttribute_eq_error_iff, length_simpleTypes, allowedValues_ne_nil_iff,
          allowedValues_eq_nil_iff] at h
        rcases h with ⟨hsimple, hvalues, rfl⟩ | ⟨hsimple, hvalues, rfl⟩ | ⟨hsimple, hvalues, rfl⟩
        · exact .missing hname hnone hsimple hvalues
        · exact .mixed hname hnone hsimple hvalues
        · exact .several hname hnone hsimple hvalues
      · cases (attributeTag_of_reference hname hreferences).symm.trans h
        rw [references_isEmpty_iff] at hreferences
        exact .reference hname (by simpa using hreferences)
  · intro h
    have htyped : ∀ {name}, property.name = some name →
        (∀ type ∈ property.types, ¬ type.isReference) →
        typedAttribute element name (simpleTypes property.types)
          (allowedValues property.types) = .error error →
        attributeTag element property = .error error := by
      intro name hname hnone hrun
      rw [attributeTag_of_typed hname (references_isEmpty_iff.mpr hnone), hrun]
      rfl
    simp only [typedAttribute_eq_error_iff, length_simpleTypes, allowedValues_ne_nil_iff,
      allowedValues_eq_nil_iff] at htyped
    cases h with
    | unnamed hname => exact attributeTag_of_none hname
    | reference hname hreference =>
      refine attributeTag_of_reference hname ?_
      rw [references_isEmpty_iff]
      simpa using hreference
    | missing hname hnone hsimple hvalues => exact htyped hname hnone (.inl ⟨hsimple, hvalues, rfl⟩)
    | mixed hname hnone hsimple hvalues =>
      exact htyped hname hnone (.inr (.inl ⟨hsimple, hvalues, rfl⟩))
    | several hname hnone hsimple hvalues =>
      exact htyped hname hnone (.inr (.inr ⟨hsimple, hvalues, rfl⟩))

/-- Whether a type can stand in a model group: a reference, or plain text where text is
mixed in. -/
def Groupable (mixed : Bool) (type : TypeVariant) : Prop :=
  type.isReference ∨ mixed ∧ type = .simple .string

instance (mixed : Bool) (type : TypeVariant) : Decidable (Groupable mixed type) :=
  inferInstanceAs (Decidable (_ ∨ _))

/-- Why a type cannot stand in a model group. -/
inductive ParticleFailure (element : String) (mixed : Bool) : TypeVariant → SchemaError → Prop
  | simple {type : SimpleType} (h : ¬ (mixed ∧ type = .string)) :
    ParticleFailure element mixed (.simple type) (.mixedContent element type.name)
  | restricted {values : List Literal} :
    ParticleFailure element mixed (.restricted values) (.restrictedContent element)

theorem particleError?_eq_none_iff (element : String) {mixed : Bool} {type : TypeVariant} :
    particleError? element mixed type = none ↔ Groupable mixed type := by
  cases type <;> simp [particleError?, Groupable, isReference]

theorem particleError?_eq_some_iff {element : String} {mixed : Bool} {type : TypeVariant}
    {error : SchemaError} :
    particleError? element mixed type = some error ↔ ParticleFailure element mixed type error := by
  constructor
  · intro h
    cases type with
    | simple type =>
      rw [particleError?] at h
      split at h
      · cases h
      · next hother =>
        cases h
        exact .simple (by simpa using hother)
    | restricted values =>
      cases h
      exact .restricted
    | reference name => cases h
  · rintro (⟨hother⟩ | ⟨⟩)
    · exact if_neg (by simpa using hother)
    · rfl

/-- A property can be a part of a complex type if it is an attribute that has a
declaration, or the content and all its types can stand in a model group. -/
def Presentable (mixed : Bool) (property : Property) : Prop :=
  if property.isContent then ∀ type ∈ property.types, Groupable mixed type
  else Acceptable property

instance (mixed : Bool) (property : Property) : Decidable (Presentable mixed property) :=
  inferInstanceAs (Decidable (if property.isContent then ∀ type ∈ property.types, Groupable mixed type
    else Acceptable property))

/-- Why a property of an element is no part of a complex type. The first type of a content
that cannot stand in a model group counts. -/
def PropertyFailure (element : String) (mixed : Bool) (property : Property)
    (error : SchemaError) : Prop :=
  if property.isContent then
    ∃ before type after, property.types = before ++ type :: after ∧
      (∀ other ∈ before, Groupable mixed other) ∧ ParticleFailure element mixed type error
  else AttributeFailure element property error

theorem exists_modelGroup_iff (element : String) {content : Property} {mixed : Bool} :
    (∃ group, modelGroup element content mixed = .ok group) ↔
      ∀ type ∈ content.types, Groupable mixed type := by
  simp only [← particleError?_eq_none_iff element, modelGroup]
  rw [← List.findSome?_eq_none_iff]
  cases content.types.findSome? (particleError? element mixed) <;> simp

theorem modelGroup_eq_error_iff {element : String} {content : Property} {mixed : Bool}
    {error : SchemaError} :
    modelGroup element content mixed = .error error ↔
      ∃ before type after, content.types = before ++ type :: after ∧
        (∀ other ∈ before, Groupable mixed other) ∧
        ParticleFailure element mixed type error := by
  have hrun : modelGroup element content mixed = .error error ↔
      content.types.findSome? (particleError? element mixed) = some error := by
    rw [modelGroup]
    cases content.types.findSome? (particleError? element mixed) <;> simp
  rw [hrun, List.findSome?_eq_some_iff]
  simp only [particleError?_eq_none_iff, particleError?_eq_some_iff, and_comm]

theorem exists_component_iff (element : String) {mixed : Bool} {property : Property} :
    (∃ part, component element mixed property = .ok part) ↔ Presentable mixed property := by
  rw [component, Presentable]
  split
  · exact exists_modelGroup_iff element
  · rw [← exists_attributeTag_iff element]
    cases attributeTag element property <;> simp

theorem component_eq_error_iff {element : String} {mixed : Bool} {property : Property}
    {error : SchemaError} :
    component element mixed property = .error error ↔
      PropertyFailure element mixed property error := by
  rw [component, PropertyFailure]
  split
  · exact modelGroup_eq_error_iff
  · rw [← attributeTag_eq_error_iff]
    cases attributeTag element property <;> simp

theorem exists_complexType_iff {element : Element} {mixed : Bool} :
    (∃ tag, complexType element mixed = .ok tag) ↔
      ∀ property ∈ element.properties, Presentable mixed property := by
  simp only [← exists_component_iff element.name]
  rw [← exists_mapM_eq_ok_iff, complexType]
  cases element.properties.mapM (component element.name mixed) <;> simp

theorem complexType_eq_error_iff {element : Element} {mixed : Bool} {error : SchemaError} :
    complexType element mixed = .error error ↔
      ∃ before property after, element.properties = before ++ property :: after ∧
        (∀ other ∈ before, Presentable mixed other) ∧
        PropertyFailure element.name mixed property error := by
  simp only [← exists_component_iff element.name, ← component_eq_error_iff]
  rw [← mapM_eq_error_iff, complexType]
  cases element.properties.mapM (component element.name mixed) <;> simp

theorem exists_extendedType_iff {element : Element} {type : SimpleType} :
    (∃ tag, extendedType element type = .ok tag) ↔
      ∀ property ∈ element.attributes, Acceptable property := by
  simp only [← exists_attributeTag_iff element.name]
  rw [← exists_mapM_eq_ok_iff, extendedType]
  cases element.attributes.mapM (attributeTag element.name) <;> simp

theorem extendedType_eq_error_iff {element : Element} {type : SimpleType} {error : SchemaError} :
    extendedType element type = .error error ↔
      ∃ before property after, element.attributes = before ++ property :: after ∧
        (∀ other ∈ before, Acceptable other) ∧ AttributeFailure element.name property error := by
  simp only [← exists_attributeTag_iff element.name, ← attributeTag_eq_error_iff]
  rw [← mapM_eq_error_iff, extendedType]
  cases element.attributes.mapM (attributeTag element.name) <;> simp

/-- The simple type that is all that an element's content consists of, if it is one. -/
def textType? (element : Element) : Option SimpleType :=
  match element.content? with
  | some ⟨_, _, [.simple type], _⟩ => some type
  | _ => none

/-- Whether plain text is among the types of an element's content. -/
def mixesText (element : Element) : Bool :=
  element.content?.any (·.types.contains (.simple .string))

/-- Whether an element has a declaration. It has one if it has no properties. If its
content is of one simple type, the attributes beside it have to be acceptable, and are
not possible beside content of any type. Otherwise every property has to be a part of its
complex type. -/
def Projectable (element : Element) : Prop :=
  element.properties = [] ∨
  match textType? element with
  | some type =>
    element.attributes = [] ∨
      type ≠ .any ∧ ∀ property ∈ element.attributes, Acceptable property
  | none => ∀ property ∈ element.properties, Presentable (mixesText element) property

instance (element : Element) : Decidable (Projectable element) :=
  match h : textType? element with
  | some type =>
    decidable_of_iff (element.properties = [] ∨ element.attributes = [] ∨
      type ≠ .any ∧ ∀ property ∈ element.attributes, Acceptable property)
      (by rw [Projectable, h])
  | none =>
    decidable_of_iff (element.properties = [] ∨
      ∀ property ∈ element.properties, Presentable (mixesText element) property)
      (by rw [Projectable, h])

/-- Why an element has no declaration. The first property that fails counts. -/
inductive Failure (element : Element) : SchemaError → Prop
  | besideAny (htype : textType? element = some .any) (hattributes : element.attributes ≠ []) :
    Failure element (.attributesNextToAny element.name)
  | beside {type : SimpleType} {before after : List Property} {property : Property}
      {error : SchemaError} (htype : textType? element = some type) (hany : type ≠ .any)
      (hsplit : element.attributes = before ++ property :: after)
      (hbefore : ∀ other ∈ before, Acceptable other)
      (hproperty : AttributeFailure element.name property error) :
    Failure element error
  | part {before after : List Property} {property : Property} {error : SchemaError}
      (htype : textType? element = none)
      (hsplit : element.properties = before ++ property :: after)
      (hbefore : ∀ other ∈ before, Presentable (mixesText element) other)
      (hproperty : PropertyFailure element.name (mixesText element) property error) :
    Failure element error

theorem elementType_of_nil {element : Element} (h : element.properties = []) :
    elementType element = .ok (some emptyType) := by
  simp [elementType, contentType, h]

theorem contentType_of_textType {element : Element} {type : SimpleType}
    (h : textType? element = some type) : contentType element = .simple type := by
  unfold textType? at h
  split at h
  · next hcontent =>
    cases h
    have hne : element.properties.isEmpty = false := by
      rw [List.isEmpty_eq_false_iff]
      exact List.ne_nil_of_mem (List.mem_of_find?_eq_some hcontent)
    simp [contentType, hne, hcontent, contentTypeOf]
  · cases h

theorem elementType_of_textType {element : Element} {type : SimpleType}
    (h : textType? element = some type) :
    elementType element =
      if element.attributes = [] then .ok none
      else if type = .any then .error (.attributesNextToAny element.name)
      else (extendedType element type).map some := by
  unfold elementType
  rw [contentType_of_textType h, attribution]
  by_cases hattributes : element.attributes = []
  · simp [hattributes]
  · simp only [List.isEmpty_iff, hattributes, ↓reduceIte]
    cases type <;> rfl

theorem elementType_of_complex {element : Element} (hne : element.properties ≠ [])
    (h : textType? element = none) :
    elementType element = (complexType element (mixesText element)).map fun tag =>
      some (if mixesText element then tag.set "mixed" "true" else tag) := by
  have hempty : element.properties.isEmpty = false := List.isEmpty_eq_false_iff.mpr hne
  unfold elementType contentType
  rw [hempty]
  cases hcontent : element.content? with
  | none =>
    have hmixes : mixesText element = false := by rw [mixesText, hcontent]; rfl
    rw [hmixes]
    rfl
  | some content =>
    have hmixes : mixesText element = content.types.contains (.simple .string) := by
      rw [mixesText, hcontent]
      rfl
    have htype : contentTypeOf content =
        if mixesText element then .mixed content else .elementOnly (some content) := by
      unfold contentTypeOf
      split
      · next type htypes =>
        rw [textType?, hcontent] at h
        obtain ⟨name, mandatory, types, multiple⟩ := content
        cases htypes
        cases h
      · rw [hmixes]
    simp only [Bool.false_eq_true, ↓reduceIte, htype]
    cases mixesText element <;> rfl

theorem exists_elementType_iff {element : Element} :
    (∃ type?, elementType element = .ok type?) ↔ Projectable element := by
  by_cases hnil : element.properties = []
  · simp [elementType_of_nil hnil, Projectable, hnil]
  cases htype : textType? element with
  | none =>
    rw [elementType_of_complex hnil htype, exists_map_eq_ok_iff, exists_complexType_iff]
    simp [Projectable, hnil, htype]
  | some type =>
    rw [elementType_of_textType htype]
    simp only [Projectable, hnil, htype, false_or]
    split
    · simp [*]
    · split
      · simp [*]
      · simp [*, exists_map_eq_ok_iff, exists_extendedType_iff]

theorem elementType_eq_error_iff {element : Element} {error : SchemaError} :
    elementType element = .error error ↔ Failure element error := by
  constructor
  · intro h
    by_cases hnil : element.properties = []
    · cases (elementType_of_nil hnil).symm.trans h
    cases htype : textType? element with
    | none =>
      rw [elementType_of_complex hnil htype, map_eq_error_iff, complexType_eq_error_iff] at h
      obtain ⟨before, property, after, hsplit, hbefore, hproperty⟩ := h
      exact .part htype hsplit hbefore hproperty
    | some type =>
      rw [elementType_of_textType htype] at h
      split at h
      · cases h
      · next hattributes =>
        split at h
        · next hany =>
          cases h
          exact .besideAny (hany ▸ htype) hattributes
        · next hany =>
          rw [map_eq_error_iff, extendedType_eq_error_iff] at h
          obtain ⟨before, property, after, hsplit, hbefore, hproperty⟩ := h
          exact .beside htype hany hsplit hbefore hproperty
  · intro h
    cases h with
    | besideAny htype hattributes => simp [elementType_of_textType htype, hattributes]
    | beside htype hany hsplit hbefore hproperty =>
      have hattributes : element.attributes ≠ [] := by simp [hsplit]
      rw [elementType_of_textType htype, if_neg hattributes, if_neg hany, map_eq_error_iff,
        extendedType_eq_error_iff]
      exact ⟨_, _, _, hsplit, hbefore, hproperty⟩
    | part htype hsplit hbefore hproperty =>
      have hnil : element.properties ≠ [] := by simp [hsplit]
      rw [elementType_of_complex hnil htype, map_eq_error_iff, complexType_eq_error_iff]
      exact ⟨_, _, _, hsplit, hbefore, hproperty⟩

/-- A declaration names its element, and holds the element's type or, where that is a
built-in one, names it. -/
theorem elementDeclaration_eq (element : Element) :
    elementDeclaration element = (elementType element).map fun type? =>
      match type?, contentType element with
      | some type, _ => ((Tag.new "element").set "name" element.name).addTag type
      | none, .simple type =>
        ((Tag.new "element").set "name" element.name).set "type" (builtinType type)
      | none, _ => (Tag.new "element").set "name" element.name := by
  unfold elementDeclaration
  cases elementType element with
  | error error => rfl
  | ok type? =>
    cases type? with
    | some type => rfl
    | none => cases contentType element <;> rfl

theorem exists_elementDeclaration_iff {element : Element} :
    (∃ tag, elementDeclaration element = .ok tag) ↔ Projectable element := by
  rw [elementDeclaration_eq, exists_map_eq_ok_iff, exists_elementType_iff]

theorem elementDeclaration_eq_error_iff {element : Element} {error : SchemaError} :
    elementDeclaration element = .error error ↔ Failure element error := by
  rw [elementDeclaration_eq, map_eq_error_iff, elementType_eq_error_iff]

/-- Every declaration is a tag `element` with the name of its element. -/
theorem name_of_elementDeclaration {element : Element} {tag : Tag}
    (h : elementDeclaration element = .ok tag) :
    tag.name = "element" ∧ tag.value? "name" = some element.name := by
  rw [elementDeclaration_eq] at h
  cases htype : elementType element with
  | error error =>
    rw [htype] at h
    cases h
  | ok type? =>
    rw [htype] at h
    cases h
    dsimp only
    split <;> exact ⟨rfl, rfl⟩

theorem build_eq_error_iff {elements : List Element} {error : SchemaError} :
    build elements = .error error ↔ elements.mapM elementDeclaration = .error error := by
  rw [build]
  cases elements.mapM elementDeclaration <;> simp

/-- Projectable elements have a schema. -/
theorem exists_build {elements : List Element} (h : ∀ element ∈ elements, Projectable element) :
    ∃ schema, build elements = .ok schema := by
  obtain ⟨declarations, hdeclarations⟩ := exists_mapM_eq_ok_iff.mpr fun element helement =>
    exists_elementDeclaration_iff.mpr (h element helement)
  exact ⟨_, by rw [build, hdeclarations]⟩

/-- The elements that have a schema. A schema exists exactly if every element is
projectable. Otherwise its error is that of the first element that is not, for the first
of its properties that fails. A schema holds one declaration for each element, in
order, with the name of the element. -/
theorem build_domain (elements : List Element) :
    ((∃ schema, build elements = .ok schema) ↔ ∀ element ∈ elements, Projectable element) ∧
    (∀ error, build elements = .error error ↔
      ∃ before element after, elements = before ++ element :: after ∧
        (∀ other ∈ before, Projectable other) ∧ ¬ Projectable element ∧
        Failure element error) ∧
    ∀ schema, build elements = .ok schema →
      schema.content = schema.children.map Content.ofTag ∧
      List.Forall₂ (fun element tag => elementDeclaration element = .ok tag ∧
        tag.name = "element" ∧ tag.value? "name" = some element.name)
        elements schema.children := by
  refine ⟨?_, fun error => ?_, fun schema hschema => ?_⟩
  · simp only [← exists_elementDeclaration_iff]
    rw [← exists_mapM_eq_ok_iff, build]
    cases elements.mapM elementDeclaration <;> simp
  · rw [build_eq_error_iff, mapM_eq_error_iff]
    simp only [exists_elementDeclaration_iff, elementDeclaration_eq_error_iff]
    have hrefused : ∀ element, Failure element error → ¬ Projectable element := by
      intro element hfailure hprojectable
      obtain ⟨tag, htag⟩ := exists_elementDeclaration_iff.mpr hprojectable
      cases htag.symm.trans (elementDeclaration_eq_error_iff.mpr hfailure)
    grind
  · unfold build at hschema
    split at hschema
    · next tags htags =>
      cases hschema
      have hchildren : (root.addTags tags).children = tags := by
        simp [Tag.children, Tag.addTags, root, Tag.new, Tag.set, List.filterMap_map, Function.comp_def]
      rw [hchildren]
      refine ⟨by simp [Tag.addTags, root, Tag.new, Tag.set], ?_⟩
      exact (mapM_eq_ok_iff.mp htags).imp fun element tag htag =>
        ⟨htag, name_of_elementDeclaration htag⟩
    · cases hschema

end Schema

end DeclSchema
