import DeclSchema.Proofs.Extraction.Accounting
import DeclSchema.Proofs.Extraction.Meaning
import DeclSchema.Schema.Basic

/-!
# Invariants of elements

Whatever a source holds, every property of every element has well-formed types, and a
schema relies on it: an attribute always has a type or values that it may have. The
annotations of a tree are well-formed by `Resolution.wellFormed_ofNode`; what is here
follows them into properties, elements, the extraction and its schema.
-/

namespace DeclSchema

namespace Extraction

open Resolution

/-- Every property of the element has well-formed types. -/
def Sound (element : Element) : Prop :=
  ∀ property ∈ element.properties, WellFormed property.types

/-- The types of a property are those that the annotation of its member means. -/
theorem property_eq_ok {node : Node} {declared : Property}
    (hrun : property node = .ok declared) :
    ∃ type ∈ node.children, ∃ resolution, ofNode type = .ok resolution ∧
      declared.types = resolution.types := by
  unfold property at hrun
  split at hrun
  · cases hrun
  · next type htype =>
    split at hrun
    · cases hrun
    · next resolution hresolution =>
      cases hrun
      exact ⟨type, List.mem_of_find?_eq_some htype, resolution, hresolution, rfl⟩

theorem wellFormed_property {node : Node} (hnode : node.Shaped) {declared : Property}
    (hrun : property node = .ok declared) : WellFormed declared.types := by
  obtain ⟨type, htype, resolution, hresolution, htypes⟩ := property_eq_ok hrun
  rw [htypes]
  exact wellFormed_ofNode type (hnode.of_mem htype) resolution hresolution

/-- The members of an interface or class that become properties are shaped as it is. -/
theorem shaped_interfaceMembers {node : Node} (h : node.Shaped) :
    Node.AllShaped (interfaceMembers node) :=
  fun _ hmember => h.of_mem (List.mem_of_mem_filter hmember)

theorem shaped_classMembers {node : Node} (h : node.Shaped) :
    Node.AllShaped (classMembers node) := by
  intro member hmember
  rcases List.mem_append.mp hmember with hmember | hmember
  · exact h.of_mem (List.mem_of_mem_filter (List.mem_of_mem_filter hmember))
  · obtain ⟨constructor, hconstructor, hparameter⟩ :=
      List.mem_flatMap.mp (List.mem_of_mem_filter hmember)
    have hshaped := h.of_mem (List.mem_of_mem_filter hconstructor)
    exact hshaped.of_mem (List.mem_of_mem_filter hparameter)

/-- What an element is made of: the name of its declaration, and what becomes of some of
the members. -/
theorem element_eq_ok {node : Node} (h : node.Shaped) {element : Element}
    (hrun : Extraction.element node = .ok element) :
    declaredName node = some element.name ∧ ∃ members, Node.AllShaped members ∧
      members.mapM property = .ok element.properties := by
  have of_elementOf {what : String} {members : List Node} (h : Node.AllShaped members)
      (hrun : elementOf what members node = .ok element) :
      declaredName node = some element.name ∧ ∃ members, Node.AllShaped members ∧
        members.mapM property = .ok element.properties := by
    unfold elementOf at hrun
    split at hrun
    · cases hrun
    · next name hname =>
      obtain ⟨properties, hproperties, rfl⟩ := map_eq_ok_iff.mp hrun
      exact ⟨hname, members, h, hproperties⟩
  unfold Extraction.element at hrun
  split at hrun
  · exact of_elementOf (shaped_interfaceMembers h) hrun
  · exact of_elementOf (shaped_classMembers h) hrun

theorem sound_element {node : Node} (h : node.Shaped) {element : Element}
    (hrun : Extraction.element node = .ok element) : Sound element := by
  obtain ⟨-, members, hmembers, hproperties⟩ := element_eq_ok h hrun
  intro declared hdeclared
  obtain ⟨member, hmember, hproperty⟩ := exists_of_mapM_ok hproperties declared hdeclared
  exact wellFormed_property (hmembers member hmember) hproperty

/-- An element of a source is what one of its interfaces or classes becomes. -/
theorem exists_declaration {options : ExtractionOptions} {source : String} {element : Element}
    (hmem : element ∈ (ofSource options source).elements) :
    ∃ node : Node, node.Shaped ∧
      (node.kind = .interfaceDeclaration ∨ node.kind = .classDeclaration) ∧
      Extraction.element node = .ok element := by
  rw [ofSource_eq_ofEntries, elements_ofEntries] at hmem
  obtain ⟨entry, hentry, hleft⟩ := List.mem_filterMap.mp hmem
  rw [Sum.getLeft?_eq_some_iff] at hleft
  subst hleft
  obtain ⟨i, hi⟩ := List.mem_iff_getElem?.mp hentry
  rw [getElem?_entries, Option.map_eq_some_iff] at hi
  obtain ⟨node, hnode, hentry⟩ := hi
  obtain ⟨hnode, hselects⟩ := List.mem_filter.mp (List.mem_of_getElem? hnode)
  obtain ⟨houtcome, -⟩ := (entry_eq_inl_iff _ _ _ _).mp hentry
  refine ⟨node, Node.shaped_of_mem_preorder _ (Parse.shaped source) node hnode, ?_, ?_⟩
  · unfold selects at hselects
    grind
  · unfold outcome at houtcome
    split at houtcome
    · cases houtcome
    · exact houtcome

theorem sound_ofSource {options : ExtractionOptions} {source : String} {element : Element}
    (hmem : element ∈ (ofSource options source).elements) : Sound element := by
  obtain ⟨node, hnode, -, helement⟩ := exists_declaration hmem
  exact sound_element hnode helement

end Extraction

namespace Schema

open Resolution

/-- Types that are well-formed have a name or a value for an attribute. -/
theorem typed_of_wellFormed {types : List TypeVariant} (h : WellFormed types)
    (hreferences : (references types).isEmpty) :
    ¬ (simpleTypes types = [] ∧ allowedValues types = []) := by
  rintro ⟨hsimple, hvalues⟩
  obtain ⟨type, htype⟩ := List.exists_mem_of_ne_nil _ h.ne_nil
  cases type with
  | simple type =>
    have hmem : type ∈ simpleTypes types := List.mem_filterMap.mpr ⟨_, htype, rfl⟩
    simp [hsimple] at hmem
  | restricted values =>
    have hnil : values = [] := List.flatMap_eq_nil_iff.mp hvalues _ htype
    exact (h.proper _ htype).1 hnil
  | reference name =>
    have hmem : name ∈ references types := List.mem_filterMap.mpr ⟨_, htype, rfl⟩
    simp [List.isEmpty_iff.mp hreferences] at hmem

/-- The error that an attribute has neither types nor values. -/
def IsMissing (error : SchemaError) : Prop :=
  ∃ element name, error = .missingType element name

theorem eq_nil_of_typedAttribute {element name : String} {simple : List SimpleType}
    {values : List Literal} {error : SchemaError}
    (hrun : typedAttribute element name simple values = .error error) (h : IsMissing error) :
    simple = [] ∧ values = [] := by
  obtain ⟨_, _, rfl⟩ := h
  unfold typedAttribute at hrun
  grind

theorem not_isMissing_attributeTag {element : String} {property : Property}
    (h : WellFormed property.types) {error : SchemaError}
    (hrun : attributeTag element property = .error error) : ¬ IsMissing error := by
  intro hmissing
  unfold attributeTag at hrun
  split at hrun
  · obtain ⟨_, _, rfl⟩ := hmissing
    cases hrun
  · split at hrun
    · next hreferences =>
      refine typed_of_wellFormed h hreferences ?_
      split at hrun
      · next htyped =>
        cases hrun
        exact eq_nil_of_typedAttribute htyped hmissing
      · cases hrun
    · obtain ⟨_, _, rfl⟩ := hmissing
      cases hrun

/-- A group is refused for other reasons. -/
theorem not_isMissing_modelGroup {element : String} {content : Property} {mixed : Bool}
    {error : SchemaError} (hrun : modelGroup element content mixed = .error error) :
    ¬ IsMissing error := by
  rintro ⟨_, _, rfl⟩
  unfold modelGroup at hrun
  split at hrun
  · next found hfound =>
    cases hrun
    obtain ⟨type, -, htype⟩ := List.exists_of_findSome?_eq_some hfound
    unfold particleError? at htype
    grind
  · cases hrun

theorem not_isMissing_complexType {element : Element} (h : Extraction.Sound element) {mixed : Bool}
    {error : SchemaError} (hrun : complexType element mixed = .error error) :
    ¬ IsMissing error := by
  unfold complexType at hrun
  split at hrun
  · cases hrun
  · next hcomponents =>
    cases hrun
    obtain ⟨property, hproperty, hcomponent⟩ := exists_of_mapM_error hcomponents
    unfold component at hcomponent
    split at hcomponent
    · exact not_isMissing_modelGroup hcomponent
    · split at hcomponent
      · cases hcomponent
      · next hattribute =>
        cases hcomponent
        exact not_isMissing_attributeTag (h property hproperty) hattribute

theorem not_isMissing_extendedType {element : Element} (h : Extraction.Sound element)
    {type : SimpleType} {error : SchemaError} (hrun : extendedType element type = .error error) :
    ¬ IsMissing error := by
  unfold extendedType at hrun
  split at hrun
  · cases hrun
  · next hattributes =>
    cases hrun
    obtain ⟨property, hproperty, hattribute⟩ := exists_of_mapM_error hattributes
    exact not_isMissing_attributeTag (h property (List.mem_of_mem_filter hproperty)) hattribute

theorem not_isMissing_elementType {element : Element} (h : Extraction.Sound element)
    {error : SchemaError} (hrun : elementType element = .error error) : ¬ IsMissing error := by
  unfold elementType at hrun
  split at hrun
  · cases hrun
  · cases hrun
  · cases hrun
    rintro ⟨_, _, heq⟩
    cases heq
  · exact not_isMissing_extendedType h (map_eq_error_iff.mp hrun)
  · exact not_isMissing_complexType h (map_eq_error_iff.mp hrun)
  · exact not_isMissing_complexType h (map_eq_error_iff.mp hrun)

theorem not_isMissing_elementDeclaration {element : Element} (h : Extraction.Sound element)
    {error : SchemaError} (hrun : elementDeclaration element = .error error) :
    ¬ IsMissing error := by
  cases htype : elementType element with
  | error other =>
    rw [elementDeclaration, htype] at hrun
    cases hrun
    exact not_isMissing_elementType h htype
  | ok type? =>
    rw [elementDeclaration, htype] at hrun
    simp only [bind, Except.bind] at hrun
    split at hrun <;> cases hrun

/-- The schema of elements with well-formed types fails for no want of a type. -/
theorem not_isMissing_build {elements : List Element}
    (h : ∀ element ∈ elements, Extraction.Sound element) {error : SchemaError}
    (hrun : build elements = .error error) : ¬ IsMissing error := by
  unfold build at hrun
  split at hrun
  · cases hrun
  · next hdeclarations =>
    cases hrun
    obtain ⟨element, hmem, hdeclaration⟩ := exists_of_mapM_error hdeclarations
    exact not_isMissing_elementDeclaration (h element hmem) hdeclaration

end Schema

namespace Conversion

open Resolution TypeVariant

theorem extraction_ofSource (options : ExtractionOptions) (source : String) :
    (ofSource options source).extraction = Extraction.ofSource options source := by
  rw [ofSource]

theorem schema_ofSource (options : ExtractionOptions) (source : String) :
    (ofSource options source).schema =
      Schema.build (Extraction.ofSource options source).elements := by
  rw [ofSource]

/-- Every property of every element of a source has types, at most one of them a
restriction; a restriction allows finitely many values, at least one, no two of which are
the same and none of which is beyond the greatest number; a reference has a name without
points. No schema fails for want of a type. -/
theorem ofSource_wellFormed (options : ExtractionOptions) (source : String) :
    let conversion := ofSource options source
    (∀ element ∈ conversion.extraction.elements, ∀ property ∈ element.properties,
      property.types ≠ [] ∧
      (property.types.filter isRestriction).length ≤ 1 ∧
      (∀ values, .restricted values ∈ property.types →
        values ≠ [] ∧ (values.Pairwise fun a b => ¬ a.same b) ∧
        ∀ number, .number number ∈ values →
          number.significand < 2 ^ 53 ∧ -1074 ≤ number.exponent ∧ number.exponent ≤ 971) ∧
      ∀ name, .reference name ∈ property.types → name ≠ "" ∧ '.' ∉ name.toList) ∧
    ∀ element name, conversion.schema ≠ .error (.missingType element name) := by
  dsimp only
  constructor
  · intro element helement property hproperty
    rw [extraction_ofSource] at helement
    have htypes : WellFormed property.types :=
      Extraction.sound_ofSource helement property hproperty
    refine ⟨htypes.ne_nil, htypes.one, fun values hvalues => ?_, fun name hname => ?_⟩
    · obtain ⟨hne, hdistinct⟩ := htypes.proper _ hvalues
      exact ⟨hne, hdistinct, fun number _ =>
        ⟨number.significand_lt, number.least_le, number.le_greatest⟩⟩
    · exact htypes.proper _ hname
  · intro element name hschema
    rw [schema_ofSource] at hschema
    exact Schema.not_isMissing_build (fun _ hmem => Extraction.sound_ofSource hmem) hschema
      ⟨element, name, rfl⟩

end Conversion

end DeclSchema
