import DeclSchema.Proofs.Schema.Domain

/-!
# What schemas are made of

For each function that writes a part of a schema: what the part is where there is one. Later
proofs follow these parts and do not unfold the functions.
-/

namespace DeclSchema.Schema

open Xml

variable {element : Element} {property : Property} {mixed : Bool} {tag : Tag}

/-- The tag of an attribute holds the enumeration of its values, or names its one type. -/
theorem typedAttribute_eq_ok {element name : String} {simple : List SimpleType}
    {values : List Literal} (h : typedAttribute element name simple values = .ok tag) :
    (∃ type, simple = [type] ∧ values = [] ∧
      tag = ((Tag.new "attribute").set "name" name).set "type" (builtinType type)) ∨
    tag = ((Tag.new "attribute").set "name" name).addTag (enumeration values) := by
  unfold typedAttribute at h
  dsimp only at h
  split at h
  · cases h
  · cases h
    exact .inr rfl
  · cases h
    exact .inl ⟨_, rfl, rfl, rfl⟩
  · cases h
  · cases h

theorem attributeTag_eq_ok {element : String} (h : attributeTag element property = .ok tag) :
    ∃ name plain, property.name = some name ∧
      typedAttribute element name (simpleTypes property.types) (allowedValues property.types) =
        .ok plain ∧
      tag = if property.mandatory then plain.set "use" "required" else plain := by
  have hacceptable := (exists_attributeTag_iff element).mp ⟨tag, h⟩
  obtain ⟨name, hname⟩ := Option.isSome_iff_exists.mp hacceptable.named
  rw [attributeTag_of_typed hname (references_isEmpty_iff.mpr hacceptable.unreferenced)] at h
  obtain ⟨plain, htyped, rfl⟩ := map_eq_ok_iff.mp h
  exact ⟨name, plain, hname, htyped, rfl⟩

theorem groupOf_eq_none_iff {occurs : Occurs} {names : List String} :
    groupOf occurs names = none ↔ names = [] := by
  unfold groupOf
  split <;> simp_all

theorem modelGroup_eq_ok {element : String} {group? : Option Tag}
    (h : modelGroup element property mixed = .ok group?) :
    group? = groupOf (Occurs.ofProperty property) (references property.types) := by
  unfold modelGroup at h
  split at h
  · cases h
  · exact (Except.ok.inj h).symm

theorem component_eq_ok {element : String} {part : Option Tag}
    (h : component element mixed property = .ok part) :
    (property.isContent ∧
      part = groupOf (Occurs.ofProperty property) (references property.types)) ∨
    (property.isContent = false ∧
      ∃ tag, attributeTag element property = .ok tag ∧ part = some tag) := by
  unfold component at h
  split at h
  · next hcontent => exact .inl ⟨hcontent, modelGroup_eq_ok h⟩
  · next hcontent =>
    split at h
    · next tag htag => exact .inr ⟨by simpa using hcontent, tag, htag, (Except.ok.inj h).symm⟩
    · cases h

theorem complexType_eq_ok (h : complexType element mixed = .ok tag) :
    ∃ components, element.properties.mapM (component element.name mixed) = .ok components ∧
      tag = ((Tag.new "complexType").addTags components.reduceOption).sortBy rank := by
  unfold complexType at h
  split at h
  · next components hcomponents => exact ⟨components, hcomponents, (Except.ok.inj h).symm⟩
  · cases h

theorem extendedType_eq_ok {type : SimpleType} (h : extendedType element type = .ok tag) :
    ∃ attributes, element.attributes.mapM (attributeTag element.name) = .ok attributes ∧
      tag = Tag.nest [Tag.new "complexType", Tag.new "simpleContent"]
        (((Tag.new "extension").set "base" (builtinType type)).addTags attributes) := by
  unfold extendedType at h
  split at h
  · next attributes hattributes => exact ⟨attributes, hattributes, (Except.ok.inj h).symm⟩
  · cases h

theorem textType?_of_nil (h : element.properties = []) : textType? element = none := by
  simp [textType?, Element.content?, h]

/-- An element has no properties, a simple type with attributes beside it or without, or a
complex type. -/
theorem elementType_eq_ok {type? : Option Tag} (h : elementType element = .ok type?) :
    (element.properties = [] ∧ type? = some emptyType) ∨
    (∃ type, textType? element = some type ∧ element.attributes = [] ∧ type? = none) ∨
    (∃ type tag, textType? element = some type ∧ extendedType element type = .ok tag ∧
      type? = some tag) ∨
    (∃ tag, textType? element = none ∧ complexType element (mixesText element) = .ok tag ∧
      type? = some (if mixesText element then tag.set "mixed" "true" else tag)) := by
  by_cases hnil : element.properties = []
  · exact .inl ⟨hnil, Except.ok.inj (h.symm.trans (elementType_of_nil hnil))⟩
  cases htype : textType? element with
  | none =>
    rw [elementType_of_complex hnil htype] at h
    obtain ⟨tag, htag, heq⟩ := map_eq_ok_iff.mp h
    exact .inr (.inr (.inr ⟨tag, rfl, htag, heq.symm⟩))
  | some type =>
    rw [elementType_of_textType htype] at h
    split at h
    · next hattributes =>
      exact .inr (.inl ⟨type, rfl, hattributes, (Except.ok.inj h).symm⟩)
    · split at h
      · cases h
      · obtain ⟨tag, htag, heq⟩ := map_eq_ok_iff.mp h
        exact .inr (.inr (.inl ⟨type, tag, rfl, htag, heq.symm⟩))

theorem build_eq_ok {elements : List Element} {schema : Tag} (h : build elements = .ok schema) :
    ∃ declarations, elements.mapM elementDeclaration = .ok declarations ∧
      schema = root.addTags declarations := by
  unfold build at h
  split at h
  · next declarations hdeclarations => exact ⟨declarations, hdeclarations, (Except.ok.inj h).symm⟩
  · cases h

end DeclSchema.Schema
