import DeclSchema.Proofs.Schema.Parts
import Mathlib.Data.List.ReduceOption

/-!
# What a declaration is made of

A complex type holds model groups and attributes, and it holds all groups before all
attributes. The order comes from a stable sort of the parts that the properties give in
order (`mergeSort_ranked`), so that it stays the order of declaration among the attributes.
`composition` says the same of the two places where attributes stand, a complex type and
the extension in its simple content.
-/

namespace DeclSchema.Schema

open Xml TypeVariant

/-- A sorted list of the ranks zero and one is its items of rank zero, then the others. -/
theorem eq_filter_append_of_pairwise {α : Type} {rank : α → Int} {first : α → Bool}
    {items : List α} (hrank : ∀ item ∈ items, rank item = if first item then 0 else 1)
    (hsorted : items.Pairwise fun a b => rank a ≤ rank b) :
    items = items.filter first ++ items.filter (!first ·) := by
  induction items with
  | nil => rfl
  | cons item rest ih =>
    obtain ⟨hle, hrest⟩ := List.pairwise_cons.mp hsorted
    obtain ⟨hitem, hranks⟩ := List.forall_mem_cons.mp hrank
    cases hfirst : first item with
    | true => simpa [hfirst] using ih hranks hrest
    | false =>
      have hnone : rest.filter first = [] := by
        refine List.filter_eq_nil_iff.mpr fun other hother hotherFirst => ?_
        have := hle other hother
        rw [hitem, hranks other hother] at this
        simp [hfirst, hotherFirst] at this
      have hall : rest.filter (!first ·) = rest := by
        refine List.filter_eq_self.mpr fun other hother => ?_
        simpa using List.filter_eq_nil_iff.mp hnone other hother
      simp [hfirst, hnone, hall]

/-- A stable sort by the ranks zero and one moves the items of rank zero to the front, and
changes no order otherwise. -/
theorem mergeSort_ranked {α : Type} {rank : α → Int} {first : α → Bool} {items : List α}
    (hrank : ∀ item ∈ items, rank item = if first item then 0 else 1) :
    items.mergeSort (fun a b => rank a ≤ rank b) =
      items.filter first ++ items.filter (!first ·) := by
  let le : α → α → Bool := fun a b => rank a ≤ rank b
  have htrans : ∀ a b c, le a b → le b c → le a c := by
    intro a b c hab hbc
    simp only [le, decide_eq_true_eq] at hab hbc ⊢
    exact Int.le_trans hab hbc
  have htotal : ∀ a b, le a b || le b a := by
    intro a b
    simpa [le] using Int.le_total (rank a) (rank b)
  have hperm := List.mergeSort_perm items le
  -- A part with one rank is sorted already, so that stability keeps it as it is.
  have hkept : ∀ (part : α → Bool) (value : Int),
      (∀ item ∈ items.filter part, rank item = value) →
      (items.mergeSort le).filter part = items.filter part := by
    intro part value hvalue
    have hsorted : (items.filter part).Pairwise fun a b => le a b := by
      refine List.pairwise_of_forall_mem_list fun a ha b hb => ?_
      simp [le, hvalue a ha, hvalue b hb]
    have hsub := (List.sublist_mergeSort htrans htotal hsorted List.filter_sublist).filter part
    simp only [List.filter_filter, Bool.and_self] at hsub
    refine (hsub.eq_of_length ?_).symm
    exact ((hperm.filter part).length_eq).symm
  have hsplit : items.mergeSort le =
      (items.mergeSort le).filter first ++ (items.mergeSort le).filter (!first ·) :=
    eq_filter_append_of_pairwise (fun item hitem => hrank item (List.mem_mergeSort.mp hitem))
      (by simpa [le] using List.pairwise_mergeSort htrans htotal items)
  rw [hkept first 0 (by grind), hkept (!first ·) 1 (by grind)] at hsplit
  exact hsplit

/-- A restriction enumerates values: with their texts, in order, on the base of decimal
numbers if all of them are numbers and of strings otherwise. -/
structure Enumerates (values : List Literal) (restriction : Tag) : Prop where
  name : restriction.name = "restriction"
  base : restriction.value? "base" =
    some (if values.all Literal.isNumber then "xs:decimal" else "xs:string")
  tags : restriction.content = restriction.children.map Content.ofTag
  names : ∀ tag ∈ restriction.children, tag.name = "enumeration"
  values : restriction.children.map (·.value? "value") = values.map (some ·.toText)

/-- A tag declares an attribute as a property says: with its name, required if the
property is mandatory, and either of its one simple type or of its values. -/
structure Declares (property : Property) (tag : Tag) : Prop where
  name : tag.name = "attribute"
  named : property.name.isSome ∧ tag.value? "name" = property.name
  use : tag.value? "use" = if property.mandatory then some "required" else none
  type :
    (∃ type, property.types.filter isSimple = [.simple type] ∧
      tag.value? "type" = some (builtinType type) ∧ tag.content = []) ∨
    (tag.value? "type" = none ∧ ∃ simpleType restriction : Tag,
      tag.content = [Content.ofTag simpleType] ∧ simpleType.name = "simpleType" ∧
      simpleType.content = [Content.ofTag restriction] ∧
      Enumerates (property.types.flatMap allowed) restriction)

theorem filter_isSimple (types : List TypeVariant) :
    types.filter isSimple = (simpleTypes types).map .simple := by
  induction types with
  | nil => rfl
  | cons type rest ih =>
    cases type with
    | simple type => exact congrArg (TypeVariant.simple type :: ·) ih
    | _ => exact ih

theorem allowedValues_eq (types : List TypeVariant) :
    allowedValues types = types.flatMap allowed := by
  rw [allowedValues]
  congr 1

/-- The type that is made of values holds a restriction that enumerates them. -/
theorem exists_enumeration (values : List Literal) :
    ∃ restriction, Enumerates values restriction ∧
      enumeration values = (Tag.new "simpleType").addTag restriction := by
  refine ⟨_, ?_, rfl⟩
  constructor
  · rfl
  · simp [stringType, decimalType]
  · simp
  · simp [enumerationValue]
  · simp [enumerationValue, Function.comp_def]

/-- An attribute that has a declaration is declared as its property says. -/
theorem declares_of_attributeTag {element : String} {property : Property} {tag : Tag}
    (h : attributeTag element property = .ok tag) : Declares property tag := by
  have hsimple := filter_isSimple property.types
  obtain ⟨name, plain, hname, htyped, rfl⟩ := attributeTag_eq_ok h
  rcases typedAttribute_eq_ok htyped with ⟨type, htype, -, rfl⟩ | rfl
  · rw [htype] at hsimple
    cases hmandatory : property.mandatory
    all_goals
      constructor
      · simp
      · simp [hname]
      · simp [hmandatory]
      · exact .inl ⟨type, hsimple, by simp, by simp⟩
  · obtain ⟨restriction, henumerates, htag⟩ := exists_enumeration (allowedValues property.types)
    rw [allowedValues_eq] at henumerates
    cases hmandatory : property.mandatory
    all_goals
      constructor
      · simp
      · simp [hname]
      · simp [hmandatory]
      · exact .inr ⟨by simp, (Tag.new "simpleType").addTag restriction, restriction,
          by simp [htag], by simp, by simp, henumerates⟩

/-- Whatever declares a property is an attribute. -/
theorem name_of_declares {properties : List Property} {tags : List Tag}
    (h : List.Forall₂ Declares properties tags) : ∀ tag ∈ tags, tag.name = "attribute" := by
  induction h with
  | nil => simp
  | cons hfirst _ ih => exact List.forall_mem_cons.mpr ⟨hfirst.name, ih⟩

/-- Whether a tag is a model group. -/
def isGroup (tag : Tag) : Bool :=
  tag.name == "sequence" || tag.name == "choice"

theorem isGroup_of_groupOf {occurs : Occurs} {names : List String} {group : Tag}
    (h : groupOf occurs names = some group) : isGroup group := by
  unfold groupOf at h
  split at h
  · cases h
  · cases h
    rfl
  · cases h
    rfl

theorem not_isGroup_of_declares {property : Property} {tag : Tag} (h : Declares property tag) :
    isGroup tag = false := by
  simp [isGroup, h.name]

theorem rank_of_isGroup {tag : Tag} (h : isGroup tag) : rank (Content.ofTag tag) = 0 := by
  rcases Bool.or_eq_true_iff.mp h with h | h <;> simp [rank, Content.ofTag, eq_of_beq h]

theorem rank_of_declares {property : Property} {tag : Tag} (h : Declares property tag) :
    rank (Content.ofTag tag) = 1 := by
  simp [rank, Content.ofTag, h.name]

/-- The parts that properties give are groups, and the declarations of the attributes in
order. -/
theorem forall_component {element : String} {mixed : Bool} {properties : List Property}
    {components : List (Option Tag)}
    (h : List.Forall₂ (fun property part => component element mixed property = .ok part)
      properties components) :
    (∀ tag ∈ components.reduceOption,
      rank (Content.ofTag tag) = if isGroup tag then 0 else 1) ∧
    List.Forall₂ Declares (properties.filter (!·.isContent))
      (components.reduceOption.filter (!isGroup ·)) := by
  induction h with
  | nil => exact ⟨by simp, .nil⟩
  | @cons property part properties components hpart _ ih =>
    obtain ⟨hranks, hdeclares⟩ := ih
    rcases component_eq_ok hpart with ⟨hcontent, hgroup⟩ | ⟨hcontent, tag, htag, rfl⟩
    · rw [List.filter_cons_of_neg (by simp [hcontent])]
      cases part with
      | none => exact ⟨hranks, hdeclares⟩
      | some group =>
        have hgroup := isGroup_of_groupOf hgroup.symm
        rw [List.reduceOption_cons_of_some, List.forall_mem_cons,
          List.filter_cons_of_neg (by simp [hgroup])]
        exact ⟨⟨by rw [if_pos hgroup, rank_of_isGroup hgroup], hranks⟩, hdeclares⟩
    · have hdeclared := declares_of_attributeTag htag
      have hgroup := not_isGroup_of_declares hdeclared
      rw [List.reduceOption_cons_of_some, List.forall_mem_cons,
        List.filter_cons_of_pos (by simpa using hcontent),
        List.filter_cons_of_pos (by simp [hgroup])]
      refine ⟨⟨?_, hranks⟩, .cons hdeclared hdeclares⟩
      rw [if_neg (by simp [hgroup]), rank_of_declares hdeclared]

/-- A complex type holds groups, and behind them the attributes in order. -/
theorem content_complexType {element : Element} {mixed : Bool} {tag : Tag}
    (h : complexType element mixed = .ok tag) :
    tag.name = "complexType" ∧ tag.value? "mixed" = none ∧
      ∃ groups attributes, tag.content = (groups ++ attributes).map Content.ofTag ∧
        (∀ group ∈ groups, group.name = "sequence" ∨ group.name = "choice") ∧
        List.Forall₂ Declares element.attributes attributes := by
  obtain ⟨components, hcomponents, rfl⟩ := complexType_eq_ok h
  obtain ⟨hranks, hdeclares⟩ := forall_component (mapM_eq_ok_iff.mp hcomponents)
  refine ⟨by simp, by simp, components.reduceOption.filter isGroup,
    components.reduceOption.filter (!isGroup ·), ?_, ?_, hdeclares⟩
  · have hrank : ∀ part ∈ components.reduceOption.map Content.ofTag,
        rank part = if part.tag?.any isGroup then 0 else 1 := by
      rw [List.forall_mem_map]
      intro tag htag
      rw [Content.tag?_ofTag, Option.any_some]
      exact hranks tag htag
    simp [Tag.sortBy, mergeSort_ranked hrank, List.filter_map, Function.comp_def]
  · intro group hgroup
    simpa [isGroup] using (List.mem_filter.mp hgroup).2

/-- The type with simple content holds the attributes in its extension. -/
theorem content_extendedType {element : Element} {type : SimpleType} {tag : Tag}
    (h : extendedType element type = .ok tag) :
    ∃ extension attributes, extension.name = "extension" ∧
      tag = (Tag.new "complexType").addTag ((Tag.new "simpleContent").addTag extension) ∧
      extension.content = attributes.map Content.ofTag ∧
      List.Forall₂ Declares element.attributes attributes := by
  obtain ⟨tags, htags, rfl⟩ := extendedType_eq_ok h
  exact ⟨_, tags, by simp, rfl, by simp,
    (mapM_eq_ok_iff.mp htags).imp fun _ _ => declares_of_attributeTag⟩

/-- What the attributes of a complex type stand in: the extension in its simple content if
it has one, and otherwise the complex type itself. -/
def holder? (complexType : Tag) : Option Tag :=
  match complexType.children.find? (·.name == "simpleContent") with
  | some content => content.children.find? (·.name == "extension")
  | none => some complexType

/-- Whether text may stand between the elements that an element holds: its content has
several types, and plain text is one of them. -/
def HasMixedContent (element : Element) : Prop :=
  ∃ content, element.content? = some content ∧ 2 ≤ content.types.length ∧
    .simple .string ∈ content.types

theorem hasMixedContent_iff {element : Element} :
    HasMixedContent element ↔ textType? element = none ∧ mixesText element := by
  unfold HasMixedContent textType? mixesText
  cases element.content? with
  | none => simp
  | some content =>
    obtain ⟨name, mandatory, types, multiple⟩ := content
    rcases types with - | ⟨type, - | ⟨other, rest⟩⟩
    · simp
    · cases type <;> simp
    · simp

/-- The type in a declaration. -/
theorem children_elementDeclaration {element : Element} {tag : Tag}
    (h : elementDeclaration element = .ok tag) :
    ∃ type?, elementType element = .ok type? ∧ tag.children = type?.toList := by
  rw [elementDeclaration_eq] at h
  obtain ⟨type?, htype, rfl⟩ := map_eq_ok_iff.mp h
  refine ⟨type?, htype, ?_⟩
  split <;> simp

/-- A complex type has attributes of its own and groups before them, or attributes in
the extension of its simple content. -/
theorem holds_elementType {element : Element} {complex : Tag}
    (h : elementType element = .ok (some complex)) (hname : complex.name = "complexType") :
    (∃ holder groups attributes, holder? complex = some holder ∧
      holder.content = (groups ++ attributes).map Content.ofTag ∧
      (∀ group ∈ groups, group.name = "sequence" ∨ group.name = "choice") ∧
      List.Forall₂ Declares element.attributes attributes) ∧
    (complex.value? "mixed" = some "true" ↔ HasMixedContent element) := by
  rw [hasMixedContent_iff]
  rcases elementType_eq_ok h with ⟨-, heq⟩ | ⟨type, -, -, heq⟩ | ⟨type, tag, htype, htag, heq⟩ |
    ⟨tag, htype, htag, heq⟩
  · cases heq
    exact absurd hname (by decide)
  · cases heq
  · cases heq
    obtain ⟨extension, attributes, hextension, rfl, hcontent, hdeclares⟩ :=
      content_extendedType htag
    refine ⟨⟨extension, [], attributes, ?_, by simpa using hcontent, by simp, hdeclares⟩,
      by simp [htype]⟩
    simp [holder?, hextension]
  · cases heq
    obtain ⟨htagName, hmixed, groups, attributes, hcontent, hgroups, hdeclares⟩ :=
      content_complexType htag
    have hchildren : tag.children = groups ++ attributes := by
      simp [Tag.children, hcontent, List.filterMap_map, Function.comp_def]
    have hsimple : tag.children.find? (·.name == "simpleContent") = none := by
      rw [hchildren, List.find?_eq_none, List.forall_mem_append]
      refine ⟨fun group hgroup => ?_, fun tag htag => ?_⟩
      · rcases hgroups group hgroup with h | h <;> simp [h]
      · simp [name_of_declares hdeclares tag htag]
    split
    · next hmixes =>
      refine ⟨⟨tag.set "mixed" "true", groups, attributes, ?_, by simpa using hcontent, hgroups,
        hdeclares⟩, ?_⟩
      · simp [holder?, hsimple]
      · simp [htype, hmixes]
    · next hmixes =>
      refine ⟨⟨tag, groups, attributes, ?_, hcontent, hgroups, hdeclares⟩, ?_⟩
      · simp [holder?, hsimple]
      · simp [htype, hmixed, hmixes]

/-- What a declaration is made of. In a complex type, or in the extension of its simple
content, all groups stand before all attributes, and there is nothing else. The attributes
are those of the element, in order, and each is declared as its property says. Text is
mixed in exactly if the content of the element has several types and plain text among
them, and then there is a complex type. -/
theorem composition (element : Element) (tag : Tag) (h : elementDeclaration element = .ok tag) :
    (∀ complex ∈ tag.children, complex.name = "complexType" →
      (∃ holder groups attributes, holder? complex = some holder ∧
        holder.content = (groups ++ attributes).map Content.ofTag ∧
        (∀ group ∈ groups, group.name = "sequence" ∨ group.name = "choice") ∧
        List.Forall₂ Declares element.attributes attributes) ∧
      (complex.value? "mixed" = some "true" ↔ HasMixedContent element)) ∧
    (HasMixedContent element →
      ∃ complex ∈ tag.children, complex.name = "complexType" ∧
        complex.value? "mixed" = some "true") := by
  obtain ⟨type?, htype, hchildren⟩ := children_elementDeclaration h
  rw [hchildren]
  constructor
  · intro complex hcomplex hname
    rw [Option.mem_toList] at hcomplex
    exact holds_elementType (htype.trans (congrArg Except.ok hcomplex)) hname
  · intro hmixed
    obtain ⟨htext, hmixes⟩ := hasMixedContent_iff.mp hmixed
    have hnil : element.properties ≠ [] := by
      obtain ⟨content, hcontent, -⟩ := hmixed
      exact List.ne_nil_of_mem (List.mem_of_find?_eq_some hcontent)
    rw [elementType_of_complex hnil htext] at htype
    simp only [hmixes, ↓reduceIte] at htype
    obtain ⟨complex, hcomplex, rfl⟩ := map_eq_ok_iff.mp htype
    exact ⟨complex.set "mixed" "true", by simp, by simp [(content_complexType hcomplex).1], by simp⟩

/-- An element of two attributes with its content between them. -/
theorem composition_between :
    let element : Element := ⟨"List", [
      ⟨some "id", true, [.simple .string], false⟩,
      ⟨some "children", false, [.reference "Item", .simple .string], true⟩,
      ⟨some "kind", false, [.restricted [.string "a", .number (.zero true)]], false⟩]⟩
    ∃ tag complex, elementDeclaration element = .ok tag ∧ complex ∈ tag.children ∧
      complex.name = "complexType" ∧ complex.value? "mixed" = some "true" ∧
      ∃ holder groups attributes, holder? complex = some holder ∧
        holder.content = (groups ++ attributes).map Content.ofTag ∧
        (∀ group ∈ groups, group.name = "sequence" ∨ group.name = "choice") ∧
        List.Forall₂ Declares element.attributes attributes := by
  intro element
  have hprojectable : Projectable element := by
    decide
  obtain ⟨tag, htag⟩ := exists_elementDeclaration_iff.mpr hprojectable
  obtain ⟨hholds, hmixed⟩ := composition element tag htag
  obtain ⟨complex, hcomplex, hname, hvalue⟩ := hmixed ⟨_, rfl, by decide, by decide⟩
  exact ⟨tag, complex, htag, hcomplex, hname, hvalue, (hholds complex hcomplex hname).1⟩

end DeclSchema.Schema
