import DeclSchema.Proofs.Schema.Repetition

/-!
# Where enumerations come from

The tags of a schema that enumerate values are restrictions, and each of them enumerates the
values of one property of an element. `every_enumerates` says so of all tags of a schema; what
is to hold of enumerations is shown from it for the values of a property.
-/

namespace DeclSchema

namespace Xml

theorem Tag.Every.mono {P Q : Tag → Prop} {tag : Tag} (h : tag.Every P)
    (himp : ∀ tag, P tag → Q tag) : tag.Every Q := by
  induction h with
  | intro self _ ih => exact .intro (himp _ self) ih

theorem Tag.Every.child {P : Tag → Prop} {tag child : Tag} (h : tag.Every P)
    (hchild : child ∈ tag.children) : child.Every P :=
  (Tag.every_iff.mp h).2 child hchild

end Xml

namespace Schema

open Xml

variable {element : Element} {property : Property} {properties : List Property} {tag : Tag}

/-- Values that are enumerated on the base of decimal numbers are numbers. -/
theorem Enumerates.numbers {values : List Literal} (h : Enumerates values tag)
    (hbase : tag.value? "base" = some "xs:decimal") : ∀ value ∈ values, value.isNumber := by
  have hall : values.all Literal.isNumber := by
    by_contra hsome
    rw [h.base, if_neg hsome] at hbase
    exact absurd hbase (by decide)
  simpa using hall

/-- Whether a tag is a restriction with an enumeration in it. -/
def isEnumeration (tag : Tag) : Bool :=
  tag.name == "restriction" && tag.children.any (·.name == "enumeration")

/-- Wherever values are enumerated in a tag, they are those of one of the properties. -/
def EnumeratesOnly (properties : List Property) (tag : Tag) : Prop :=
  tag.Every fun tag => isEnumeration tag →
    ∃ property ∈ properties, Enumerates (allowedValues property.types) tag

theorem enumeratesOnly_intro (hname : isEnumeration tag = false)
    (hchildren : ∀ child ∈ tag.children, EnumeratesOnly properties child) :
    EnumeratesOnly properties tag :=
  .intro (by simp [hname]) hchildren

theorem isEnumeration_of_name (h : (tag.name == "restriction") = false) :
    isEnumeration tag = false := by
  rw [isEnumeration, h, Bool.false_and]

theorem EnumeratesOnly.mono {others : List Property} (h : EnumeratesOnly properties tag)
    (hsubset : properties ⊆ others) : EnumeratesOnly others tag :=
  Tag.Every.mono h fun _ hself henumeration =>
    let ⟨property, hproperty, henumerates⟩ := hself henumeration
    ⟨property, hsubset hproperty, henumerates⟩

theorem enumeratesOnly_enumeration (hproperty : property ∈ properties) :
    EnumeratesOnly properties (enumeration (allowedValues property.types)) := by
  obtain ⟨restriction, henumerates, heq⟩ := exists_enumeration (allowedValues property.types)
  have hvalues : restriction.children = (allowedValues property.types).map enumerationValue := by
    have hchildren := congrArg (fun tag => tag.children.flatMap Tag.children) heq
    simpa [enumeration] using hchildren.symm
  rw [heq]
  refine enumeratesOnly_intro (isEnumeration_of_name rfl) ?_
  rw [Tag.children_addTag, Tag.children_new, List.nil_append, List.forall_mem_singleton]
  refine .intro (fun _ => ⟨property, hproperty, henumerates⟩) ?_
  rw [hvalues, List.forall_mem_map]
  exact fun value _ => enumeratesOnly_intro (isEnumeration_of_name rfl) (List.forall_mem_nil _)

theorem enumeratesOnly_attributeTag {name : String} (hproperty : property ∈ properties)
    (h : attributeTag name property = .ok tag) : EnumeratesOnly properties tag := by
  obtain ⟨key, plain, -, htyped, rfl⟩ := attributeTag_eq_ok h
  have hplain : plain.name = "attribute" ∧
      ∀ child ∈ plain.children, EnumeratesOnly properties child := by
    rcases typedAttribute_eq_ok htyped with ⟨type, -, -, rfl⟩ | rfl
    · exact ⟨rfl, List.forall_mem_nil _⟩
    · exact ⟨rfl, List.forall_mem_singleton.mpr (enumeratesOnly_enumeration hproperty)⟩
  obtain ⟨hname, hchildren⟩ := hplain
  split_ifs
  · exact enumeratesOnly_intro (isEnumeration_of_name (by simp [hname])) hchildren
  · exact enumeratesOnly_intro (isEnumeration_of_name (by simp [hname])) hchildren

theorem enumeratesOnly_groupOf {occurs : Occurs} {names : List String}
    (h : groupOf occurs names = some tag) : EnumeratesOnly properties tag := by
  have hreference : ∀ tag : Tag, tag.name = "element" → tag.children = [] →
      EnumeratesOnly properties tag := fun tag hname hchildren =>
    enumeratesOnly_intro (isEnumeration_of_name (by simp [hname])) (by simp [hchildren])
  unfold groupOf at h
  split at h
  · cases h
  · cases h
    refine enumeratesOnly_intro (isEnumeration_of_name rfl) ?_
    exact List.forall_mem_singleton.mpr (hreference _ rfl rfl)
  · cases h
    refine enumeratesOnly_intro (isEnumeration_of_name rfl) ?_
    simpa [Occurs.apply] using fun name _ => hreference (elementReference name) rfl rfl

theorem enumeratesOnly_complexType {mixed : Bool} (h : complexType element mixed = .ok tag) :
    tag.name = "complexType" ∧ ∀ child ∈ tag.children, EnumeratesOnly element.properties child := by
  obtain ⟨components, hcomponents, rfl⟩ := complexType_eq_ok h
  refine ⟨rfl, fun child hchild => ?_⟩
  have hpart : some child ∈ components := by
    have hperm := ((Tag.new "complexType").addTags components.reduceOption).children_sortBy rank
    simpa [List.reduceOption_mem_iff] using hperm.mem_iff.mp hchild
  obtain ⟨property, hproperty, hcomponent⟩ := exists_of_mapM_ok hcomponents _ hpart
  rcases component_eq_ok hcomponent with ⟨-, hgroup⟩ | ⟨-, other, hattribute, heq⟩
  · exact enumeratesOnly_groupOf hgroup.symm
  · cases heq
    exact enumeratesOnly_attributeTag hproperty hattribute

theorem enumeratesOnly_extendedType {type : SimpleType}
    (h : extendedType element type = .ok tag) : EnumeratesOnly element.properties tag := by
  obtain ⟨attributes, hattributes, rfl⟩ := extendedType_eq_ok h
  have hextension : EnumeratesOnly element.properties
      (((Tag.new "extension").set "base" (builtinType type)).addTags attributes) := by
    apply enumeratesOnly_intro (isEnumeration_of_name (by simp))
    simp only [Tag.children_addTags, Tag.children_set, Tag.children_new, List.nil_append]
    intro child hchild
    obtain ⟨property, hproperty, hattribute⟩ := exists_of_mapM_ok hattributes child hchild
    exact enumeratesOnly_attributeTag (List.mem_of_mem_filter hproperty) hattribute
  refine enumeratesOnly_intro (isEnumeration_of_name rfl) (List.forall_mem_singleton.mpr ?_)
  exact enumeratesOnly_intro (isEnumeration_of_name rfl) (List.forall_mem_singleton.mpr hextension)

/-- A text of no length is restricted, but nothing is enumerated. -/
theorem enumeratesOnly_emptyType : EnumeratesOnly properties emptyType := by
  refine enumeratesOnly_intro (isEnumeration_of_name rfl) (List.forall_mem_singleton.mpr ?_)
  refine enumeratesOnly_intro (by decide) (List.forall_mem_singleton.mpr ?_)
  exact enumeratesOnly_intro (isEnumeration_of_name rfl) (List.forall_mem_nil _)

theorem enumeratesOnly_elementType {type? : Option Tag} (h : elementType element = .ok type?) :
    ∀ type ∈ type?, EnumeratesOnly element.properties type := by
  rcases elementType_eq_ok h with ⟨-, rfl⟩ | ⟨type, -, -, rfl⟩ | ⟨type, tag, -, htag, rfl⟩ |
    ⟨tag, -, htag, rfl⟩
  · rintro type ⟨⟩
    exact enumeratesOnly_emptyType
  · rintro type ⟨⟩
  · rintro type ⟨⟩
    exact enumeratesOnly_extendedType htag
  · rintro type ⟨⟩
    obtain ⟨hname, hchildren⟩ := enumeratesOnly_complexType htag
    split_ifs
    · exact enumeratesOnly_intro (isEnumeration_of_name (by simp [hname])) hchildren
    · exact enumeratesOnly_intro (isEnumeration_of_name (by simp [hname])) hchildren

theorem enumeratesOnly_elementDeclaration (h : elementDeclaration element = .ok tag) :
    EnumeratesOnly element.properties tag := by
  obtain ⟨type?, htype, hchildren⟩ := children_elementDeclaration h
  refine enumeratesOnly_intro (isEnumeration_of_name ?_) ?_
  · simp [(name_of_elementDeclaration h).1]
  · rw [hchildren]
    simpa using enumeratesOnly_elementType htype

/-- What is enumerated in a schema are the values of properties of its elements. -/
theorem every_enumerates {elements : List Element} {schema : Tag}
    (h : build elements = .ok schema) :
    schema.Every fun tag => isEnumeration tag →
      ∃ element ∈ elements, ∃ property ∈ element.properties,
        Enumerates (allowedValues property.types) tag := by
  obtain ⟨declarations, hdeclarations, rfl⟩ := build_eq_ok h
  have hroot : EnumeratesOnly (elements.flatMap Element.properties) (root.addTags declarations) := by
    refine enumeratesOnly_intro (isEnumeration_of_name rfl) fun child hchild => ?_
    have hchild : child ∈ declarations := by
      simpa [root] using hchild
    obtain ⟨element, helement, hdeclaration⟩ := exists_of_mapM_ok hdeclarations child hchild
    exact (enumeratesOnly_elementDeclaration hdeclaration).mono fun property hproperty =>
      List.mem_flatMap_of_mem helement hproperty
  refine Tag.Every.mono hroot fun tag hself henumeration => ?_
  obtain ⟨property, hproperty, henumerates⟩ := hself henumeration
  obtain ⟨element, helement, hproperty⟩ := List.mem_flatMap.mp hproperty
  exact ⟨element, helement, property, hproperty, henumerates⟩

end Schema

end DeclSchema
