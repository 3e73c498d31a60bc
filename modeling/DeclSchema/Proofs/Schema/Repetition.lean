import DeclSchema.Proofs.Extraction.Invariants
import DeclSchema.Proofs.Schema.Composition
import DeclSchema.Proofs.Xml.Plain

/-!
# Repetition in complex types

A schema is not legal if a complex type, or an extension in one, declares two attributes of
one name or has two model groups. `Tag.Every` says something of a tag and all tags in it,
`Unrepeated` is what is to hold of complex types and extensions, and `Distinct` is what it
takes of an element.

Nothing in the way from a declaration to its complex type keeps members apart that have the
same name, so that a schema is `Legal` exactly if they are apart in the elements
(`legal_exactly`).
-/

namespace DeclSchema

namespace Xml

/-- Whether something holds of a tag and all tags in it. -/
inductive Tag.Every (P : Tag → Prop) : Tag → Prop
  | intro {tag : Tag} (self : P tag) (children : ∀ child ∈ tag.children, Every P child) :
    Every P tag

theorem Tag.every_iff {P : Tag → Prop} {tag : Tag} :
    tag.Every P ↔ P tag ∧ ∀ child ∈ tag.children, child.Every P :=
  ⟨fun ⟨self, children⟩ => ⟨self, children⟩, fun ⟨self, children⟩ => ⟨self, children⟩⟩

end Xml

namespace Schema

open Xml

/-- Whether a tag declares attributes and groups of its own. -/
def isHolder (tag : Tag) : Bool :=
  tag.name == "complexType" || tag.name == "extension"

/-- The attributes that a tag declares have different names, and there is one group in it at
most. -/
structure Unrepeated (tag : Tag) : Prop where
  attributes : ((tag.children.filter (·.name == "attribute")).map (·.value? "name")).Nodup
  groups : (tag.children.filter isGroup).length ≤ 1

/-- Whether nothing is repeated in the complex types of a schema and their extensions. -/
def Legal (schema : Tag) : Prop :=
  schema.Every fun tag => isHolder tag → Unrepeated tag

/-- The properties of an element whose groups its complex type has. -/
def contents (element : Element) : List Property :=
  element.properties.filter fun property =>
    property.isContent && !(references property.types).isEmpty

/-- The attributes of an element have different names, and one of its properties for content
at most refers to elements, unless the content is of one simple type. -/
structure Distinct (element : Element) : Prop where
  attributes : (element.attributes.map (·.name)).Nodup
  contents : textType? element = none → (contents element).length ≤ 1

instance (element : Element) : Decidable (Distinct element) :=
  decidable_of_iff ((element.attributes.map (·.name)).Nodup ∧
      (textType? element = none → (contents element).length ≤ 1))
    ⟨fun ⟨hattributes, hcontents⟩ => ⟨hattributes, hcontents⟩, fun h => ⟨h.attributes, h.contents⟩⟩

variable {element : Element} {tag : Tag}

theorem legal_intro (hname : isHolder tag = false) (hchildren : ∀ child ∈ tag.children, Legal child) :
    Legal tag :=
  .intro (by simp [hname]) hchildren

theorem legal_iff (hname : isHolder tag = false) :
    Legal tag ↔ ∀ child ∈ tag.children, Legal child := by
  rw [Legal, Tag.every_iff, and_iff_right (by simp [hname])]
  rfl

theorem legal_holder_iff (hname : isHolder tag) :
    Legal tag ↔ Unrepeated tag ∧ ∀ child ∈ tag.children, Legal child := by
  rw [Legal, Tag.every_iff, forall_prop_of_true hname]
  rfl

theorem legal_set (key value : String) : Legal (tag.set key value) ↔ Legal tag := by
  have hunrepeated : Unrepeated (tag.set key value) ↔ Unrepeated tag :=
    ⟨fun h => ⟨h.attributes, h.groups⟩, fun h => ⟨h.attributes, h.groups⟩⟩
  rw [Legal, Legal, Tag.every_iff, Tag.every_iff, hunrepeated]
  rfl

/-- What is repeated does not depend on the order of the tags. -/
theorem unrepeated_iff_of_perm {tags : List Tag} (h : tag.children.Perm tags) :
    Unrepeated tag ↔ ((tags.filter (·.name == "attribute")).map (·.value? "name")).Nodup ∧
      (tags.filter isGroup).length ≤ 1 := by
  rw [← ((h.filter _).map _).nodup_iff, ← (h.filter _).length_eq]
  exact ⟨fun ⟨hattributes, hgroups⟩ => ⟨hattributes, hgroups⟩, fun ⟨hattributes, hgroups⟩ =>
    ⟨hattributes, hgroups⟩⟩

theorem legal_enumeration (values : List Literal) : Legal (enumeration values) := by
  refine legal_intro rfl (List.forall_mem_singleton.mpr (legal_intro rfl ?_))
  rw [Tag.children_addTags, Tag.children_set, Tag.children_new, List.nil_append,
    List.forall_mem_map]
  exact fun value _ => legal_intro rfl (List.forall_mem_nil _)

theorem legal_attributeTag {name : String} {property : Property}
    (h : attributeTag name property = .ok tag) : Legal tag := by
  obtain ⟨key, plain, -, htyped, rfl⟩ := attributeTag_eq_ok h
  have hplain : Legal plain := by
    rcases typedAttribute_eq_ok htyped with ⟨type, -, -, rfl⟩ | rfl
    · exact legal_intro rfl (List.forall_mem_nil _)
    · exact legal_intro rfl (List.forall_mem_singleton.mpr (legal_enumeration _))
  split_ifs
  · exact (legal_set "use" "required").mpr hplain
  · exact hplain

theorem legal_groupOf {occurs : Occurs} {names : List String}
    (h : groupOf occurs names = some tag) : Legal tag := by
  have hreference : ∀ name, Legal (elementReference name) := fun name =>
    legal_intro rfl (List.forall_mem_nil _)
  unfold groupOf at h
  split at h
  · cases h
  · next name =>
    cases h
    refine legal_intro rfl (List.forall_mem_singleton.mpr ?_)
    exact legal_intro rfl (List.forall_mem_nil _)
  · cases h
    refine legal_intro rfl ?_
    rw [Tag.children_addTags]
    simpa [Occurs.apply] using fun name _ => hreference name

/-- The parts that properties give, by what they say of repetition: the names of the
attributes are those of the properties, and there is a group for each property that refers
to elements. -/
theorem parts_of_components {name : String} {mixed : Bool} {properties : List Property}
    {components : List (Option Tag)}
    (h : List.Forall₂ (fun property part => component name mixed property = .ok part)
      properties components) :
    (∀ part ∈ components.reduceOption, Legal part) ∧
    (components.reduceOption.filter (·.name == "attribute")).map (·.value? "name") =
      (properties.filter (!·.isContent)).map (·.name) ∧
    (components.reduceOption.filter isGroup).length =
      (properties.filter fun property =>
        property.isContent && !(references property.types).isEmpty).length := by
  induction h with
  | nil => simp
  | @cons property part properties components hpart _ ih =>
    obtain ⟨hlegal, hattributes, hgroups⟩ := ih
    rcases component_eq_ok hpart with ⟨hcontent, hgroup⟩ | ⟨hcontent, tag, htag, rfl⟩
    · cases part with
      | none =>
        have hnone := groupOf_eq_none_iff.mp hgroup.symm
        rw [List.reduceOption_cons_of_none]
        refine ⟨hlegal, ?_, ?_⟩
        · simpa [hcontent] using hattributes
        · simpa [hcontent, hnone] using hgroups
      | some group =>
        have hsome : references property.types ≠ [] := fun hnil => by
          cases hgroup.trans (groupOf_eq_none_iff.mpr hnil)
        have hkind := isGroup_of_groupOf hgroup.symm
        have hname : (group.name == "attribute") = false := by
          rcases Bool.or_eq_true_iff.mp hkind with h | h <;> simp [eq_of_beq h]
        rw [List.reduceOption_cons_of_some]
        refine ⟨List.forall_mem_cons.mpr ⟨legal_groupOf hgroup.symm, hlegal⟩, ?_, ?_⟩
        · simpa [hname, hcontent] using hattributes
        · simpa [hkind, hcontent, hsome] using hgroups
    · have hdeclares := declares_of_attributeTag htag
      have hkind := not_isGroup_of_declares hdeclares
      rw [List.reduceOption_cons_of_some]
      refine ⟨List.forall_mem_cons.mpr ⟨legal_attributeTag htag, hlegal⟩, ?_, ?_⟩
      · simpa [hdeclares.name, hcontent, hdeclares.named.2] using hattributes
      · simpa [hkind, hcontent] using hgroups

/-- Attributes are the parts of a complex type that has nothing else. -/
theorem components_of_attributes {name : String} {properties : List Property} {tags : List Tag}
    (hproperties : ∀ property ∈ properties, property.isContent = false)
    (h : List.Forall₂ (fun property tag => attributeTag name property = .ok tag) properties tags) :
    List.Forall₂ (fun property part => component name false property = .ok part) properties
      (tags.map some) := by
  induction h with
  | nil => exact .nil
  | cons htag _ ih =>
    obtain ⟨hproperty, hrest⟩ := List.forall_mem_cons.mp hproperties
    exact .cons (by simp [component, hproperty, htag]) (ih hrest)

theorem legal_complexType {mixed : Bool} (h : complexType element mixed = .ok tag) :
    Legal tag ↔ (element.attributes.map (·.name)).Nodup ∧ (contents element).length ≤ 1 := by
  obtain ⟨components, hcomponents, rfl⟩ := complexType_eq_ok h
  obtain ⟨hlegal, hattributes, hgroups⟩ := parts_of_components (mapM_eq_ok_iff.mp hcomponents)
  have hperm : (((Tag.new "complexType").addTags components.reduceOption).sortBy
      rank).children.Perm components.reduceOption := by
    simpa using ((Tag.new "complexType").addTags components.reduceOption).children_sortBy rank
  have hchildren : ∀ child ∈ (((Tag.new "complexType").addTags components.reduceOption).sortBy
      rank).children, Legal child := fun child hchild => hlegal child (hperm.mem_iff.mp hchild)
  rw [legal_holder_iff rfl, and_iff_left hchildren, unrepeated_iff_of_perm hperm, hattributes,
    hgroups, Element.attributes, contents]

theorem legal_extension (base : String) {tags : List Tag}
    (h : List.Forall₂ (fun property tag => attributeTag element.name property = .ok tag)
      element.attributes tags) :
    Legal (((Tag.new "extension").set "base" base).addTags tags) ↔
      (element.attributes.map (·.name)).Nodup := by
  have hproperties : ∀ property ∈ element.attributes, property.isContent = false :=
    fun property hproperty => by simpa using (List.mem_filter.mp hproperty).2
  obtain ⟨hlegal, hattributes, hgroups⟩ :=
    parts_of_components (components_of_attributes hproperties h)
  have htags : (tags.map some).reduceOption = tags := by
    simp [List.reduceOption, List.filterMap_map]
  have hnames : element.attributes.filter (!·.isContent) = element.attributes :=
    List.filter_eq_self.mpr fun property hproperty => by simp [hproperties property hproperty]
  have hnone : (element.attributes.filter fun property =>
      property.isContent && !(references property.types).isEmpty) = [] :=
    List.filter_eq_nil_iff.mpr fun property hproperty => by simp [hproperties property hproperty]
  have hperm : (((Tag.new "extension").set "base" base).addTags tags).children.Perm tags := by
    simp
  have hchildren : ∀ child ∈ (((Tag.new "extension").set "base" base).addTags tags).children,
      Legal child := by
    rw [htags] at hlegal
    simpa using hlegal
  rw [htags, hnames] at hattributes
  rw [htags, hnone] at hgroups
  rw [legal_holder_iff rfl, and_iff_left hchildren, unrepeated_iff_of_perm hperm, hattributes,
    hgroups]
  simp

theorem legal_extendedType {type : SimpleType} (h : extendedType element type = .ok tag) :
    Legal tag ↔ (element.attributes.map (·.name)).Nodup := by
  obtain ⟨tags, htags, rfl⟩ := extendedType_eq_ok h
  have hcontent : Unrepeated (Tag.nest [Tag.new "complexType", Tag.new "simpleContent"]
      (((Tag.new "extension").set "base" (builtinType type)).addTags tags)) :=
    ⟨by simp, by simp [isGroup]⟩
  have hsimple : isHolder ((Tag.new "simpleContent").addTag
      (((Tag.new "extension").set "base" (builtinType type)).addTags tags)) = false := rfl
  rw [legal_holder_iff rfl, and_iff_right hcontent,
    ← legal_extension (builtinType type) (mapM_eq_ok_iff.mp htags)]
  simp [legal_iff hsimple]

theorem legal_emptyType : Legal emptyType := by
  refine legal_intro rfl (List.forall_mem_singleton.mpr (legal_intro rfl ?_))
  exact List.forall_mem_singleton.mpr (legal_intro rfl (List.forall_mem_nil _))

theorem legal_elementType {type? : Option Tag} (h : elementType element = .ok type?) :
    (∀ type ∈ type?, Legal type) ↔ Distinct element := by
  have hplain : textType? element = none → (Distinct element ↔
      (element.attributes.map (·.name)).Nodup ∧ (contents element).length ≤ 1) := fun htype =>
    ⟨fun h => ⟨h.attributes, h.contents htype⟩, fun h => ⟨h.1, fun _ => h.2⟩⟩
  have htext : ∀ {type}, textType? element = some type →
      (Distinct element ↔ (element.attributes.map (·.name)).Nodup) := fun htype =>
    ⟨(·.attributes), fun hattributes => ⟨hattributes, by simp [htype]⟩⟩
  rcases elementType_eq_ok h with ⟨hnil, rfl⟩ | ⟨type, htype, hattributes, rfl⟩ |
    ⟨type, tag, htype, htag, rfl⟩ | ⟨tag, htype, htag, rfl⟩
  · rw [hplain (textType?_of_nil hnil)]
    simpa [Element.attributes, contents, hnil] using legal_emptyType
  · rw [htext htype]
    simp [hattributes]
  · rw [htext htype, ← legal_extendedType htag]
    simp
  · rw [hplain htype, ← legal_complexType htag]
    split_ifs
    · simp [legal_set]
    · simp

theorem legal_elementDeclaration (h : elementDeclaration element = .ok tag) :
    Legal tag ↔ Distinct element := by
  obtain ⟨type?, htype, hchildren⟩ := children_elementDeclaration h
  have hname : isHolder tag = false := by
    simp [isHolder, (name_of_elementDeclaration h).1]
  rw [legal_iff hname, hchildren, ← legal_elementType htype]
  simp

theorem legal_build {elements : List Element} {schema : Tag} (h : build elements = .ok schema) :
    Legal schema ↔ ∀ element ∈ elements, Distinct element := by
  obtain ⟨declarations, hdeclarations, rfl⟩ := build_eq_ok h
  rw [legal_iff rfl, Tag.children_addTags]
  clear h
  rw [mapM_eq_ok_iff] at hdeclarations
  induction hdeclarations with
  | nil => simp [root]
  | @cons element declaration elements declarations hdeclaration _ ih =>
    simp only [root, Tag.children_set, Tag.children_new, List.nil_append] at ih ⊢
    rw [List.forall_mem_cons, List.forall_mem_cons]
    exact and_congr (legal_elementDeclaration hdeclaration) ih

end Schema

namespace Conversion

open Schema

/-- The schema of a source is legal exactly if no element in it repeats the name of an
attribute, and none has a second content that refers to elements. -/
theorem legal_exactly (options : ExtractionOptions) (source : String) (schema : Xml.Tag)
    (h : (ofSource options source).schema = .ok schema) :
    Legal schema ↔
      ∀ element ∈ (ofSource options source).extraction.elements, Distinct element := by
  rw [schema_ofSource] at h
  rw [extraction_ofSource]
  exact legal_build h

/-- An interface with members of different names. -/
theorem legal_exactly_members :
    let source := "interface A \x7b x: string; y: number; children: A \x7d"
    ∃ schema, (ofSource {} source).schema = .ok schema ∧ Legal schema := by
  intro source
  have helements : (Extraction.ofSource {} source).elements = [⟨"A", [
      ⟨some "x", true, [.simple .string], false⟩,
      ⟨some "y", true, [.simple .number], false⟩,
      ⟨some "children", true, [.reference "A"], false⟩]⟩] := by
    decide +kernel
  have hprojectable : ∀ element ∈ (Extraction.ofSource {} source).elements, Projectable element := by
    rw [helements]
    decide
  obtain ⟨schema, hschema⟩ := exists_build hprojectable
  rw [← schema_ofSource] at hschema
  refine ⟨schema, hschema, (legal_exactly {} source schema hschema).mpr ?_⟩
  rw [extraction_ofSource, helements]
  decide

/-- A name that is declared twice makes two attributes, and contents two groups. -/
theorem not_legal_repeated :
    let attributes := "interface A \x7b x: string; x: number \x7d"
    let contents := "interface A \x7b children: A; children: A[] \x7d"
    (∃ schema, (ofSource {} attributes).schema = .ok schema ∧ ¬ Legal schema) ∧
      ∃ schema, (ofSource {} contents).schema = .ok schema ∧ ¬ Legal schema := by
  intro attributes contents
  have hrepeated : ∀ {source : String} {element : Element},
      (Extraction.ofSource {} source).elements = [element] → Projectable element →
      ¬ Distinct element → ∃ schema, (ofSource {} source).schema = .ok schema ∧ ¬ Legal schema := by
    intro source element helements hprojectable hdistinct
    obtain ⟨schema, hschema⟩ := exists_build (List.forall_mem_singleton.mpr hprojectable)
    refine ⟨schema, by rw [schema_ofSource, helements, hschema], fun hlegal => ?_⟩
    exact hdistinct (List.forall_mem_singleton.mp ((legal_build hschema).mp hlegal))
  have hattributes : (Extraction.ofSource {} attributes).elements = [⟨"A", [
      ⟨some "x", true, [.simple .string], false⟩,
      ⟨some "x", true, [.simple .number], false⟩]⟩] := by
    decide +kernel
  have hcontents : (Extraction.ofSource {} contents).elements = [⟨"A", [
      ⟨some "children", true, [.reference "A"], false⟩,
      ⟨some "children", true, [.reference "A"], true⟩]⟩] := by
    decide +kernel
  exact ⟨hrepeated hattributes (by decide) (by decide), hrepeated hcontents (by decide) (by decide)⟩

end Conversion

end DeclSchema
