import DeclSchema.Proofs.Number.Whole
import DeclSchema.Proofs.Schema.Parts
import DeclSchema.Proofs.Xml.Plain
import Mathlib.Data.List.ReduceOption

/-!
# The texts in a schema

Which values of attributes a schema has. `Element.texts` lists the texts of an element that
its declaration holds; any other value is a symbol, made of letters, digits and a few
marks. `Carries` says this of tags together with their being plain, for each function that
writes a part of a schema, and `carries_build` of whole schemas.
-/

namespace DeclSchema

namespace Schema

/-- The strings among values. -/
def strings (values : List Literal) : List String :=
  values.filterMap fun
    | .string value => some value
    | .number _ => none

end Schema

namespace Property

/-- The texts of a property that a declaration holds: the elements that a content refers to,
or the name of an attribute and the strings that it may be. -/
def texts (property : Property) : List String :=
  if property.isContent then Schema.references property.types
  else property.name.toList ++ Schema.strings (Schema.allowedValues property.types)

end Property

/-- The texts of an element that its declaration holds. A content of one simple type makes
all properties for content count for nothing. -/
def Element.texts (element : Element) : List String :=
  element.name ::
    (if (Schema.textType? element).isSome then element.attributes
      else element.properties).flatMap Property.texts

namespace Schema

open Xml

/-- Whether a text is made of the characters of names and numbers, and slashes. -/
def IsSymbol (text : String) : Prop :=
  ∀ c ∈ text.toList, isNameChar c || c == '/'

instance (text : String) : Decidable (IsSymbol text) :=
  inferInstanceAs (Decidable (∀ c ∈ text.toList, _))

theorem isSymbol_builtinType (type : SimpleType) : IsSymbol (builtinType type) := by
  cases type <;> decide

theorem isNameChar_of_isDigit {c : Char} (h : c.isDigit) : isNameChar c := by
  simp [isNameChar, Char.isAlphanum, h]

/-- A number is written with digits, a point and a sign. -/
theorem isNameChar_toText (value : Binary64) :
    ∀ c ∈ (Literal.number value).toText.toList, isNameChar c := by
  have hdigit : ∀ {n : Nat}, ∀ c ∈ Nat.toDigits 10 n, isNameChar c := fun c hc =>
    isNameChar_of_isDigit (isDigit_of_mem_toDigits hc)
  have hzero : ∀ {count : Int}, ∀ c ∈ Numeral.zeros count, isNameChar c := fun c hc => by
    rw [List.eq_of_mem_replicate hc]
    decide
  have hpoint : isNameChar '.' := by
    decide
  have hpositional : ∀ n : Numeral, ∀ c ∈ n.positionalText "", isNameChar c := by
    intro n
    unfold Numeral.positionalText
    dsimp only
    split_ifs
    · simp only [List.forall_mem_append]
      exact ⟨⟨hdigit, hzero⟩, by simp⟩
    · rw [List.forall_mem_append, List.forall_mem_cons]
      exact ⟨fun c hc => hdigit c (List.mem_of_mem_take hc), hpoint,
        fun c hc => hdigit c (List.mem_of_mem_drop hc)⟩
    · rw [List.cons_append, List.cons_append, List.forall_mem_cons, List.forall_mem_cons,
        List.forall_mem_append]
      exact ⟨by decide, hpoint, hzero, hdigit⟩
  simp only [Literal.toText, Binary64.toText, Numeral.toText, Literal.layout, ↓reduceIte,
    String.toList_ofList]
  split_ifs
  · exact List.forall_mem_cons.mpr ⟨by decide, hpositional _⟩
  · exact hpositional _

theorem isSymbol_toText (value : Binary64) : IsSymbol (Literal.number value).toText := by
  intro c hc
  rw [isNameChar_toText value c hc, Bool.true_or]

/-- Tags carry texts: they are plain, each text is a value in them, and any other value in
them is a symbol. -/
structure Carries (tags : List Tag) (texts : List String) : Prop where
  plain : ∀ tag ∈ tags, Plain tag
  origin : ∀ tag ∈ tags, ∀ value ∈ tag.values, IsSymbol value ∨ value ∈ texts
  held : ∀ text ∈ texts, ∃ tag ∈ tags, text ∈ tag.values

namespace Carries

variable {tag child : Tag} {tags others : List Tag} {texts more : List String}

theorem nil : Carries [] [] :=
  ⟨List.forall_mem_nil _, List.forall_mem_nil _, List.forall_mem_nil _⟩

theorem append (h : Carries tags texts) (h' : Carries others more) :
    Carries (tags ++ others) (texts ++ more) := by
  refine ⟨List.forall_mem_append.mpr ⟨h.plain, h'.plain⟩, List.forall_mem_append.mpr ⟨?_, ?_⟩,
    List.forall_mem_append.mpr ⟨?_, ?_⟩⟩
  · intro tag htag value hvalue
    exact (h.origin tag htag value hvalue).imp_right (List.mem_append_left _)
  · intro tag htag value hvalue
    exact (h'.origin tag htag value hvalue).imp_right (List.mem_append_right _)
  · intro text htext
    obtain ⟨tag, htag, hheld⟩ := h.held text htext
    exact ⟨tag, List.mem_append_left _ htag, hheld⟩
  · intro text htext
    obtain ⟨tag, htag, hheld⟩ := h'.held text htext
    exact ⟨tag, List.mem_append_right _ htag, hheld⟩

/-- What is made of items, where that may fail, carries the texts of all of them if it carries
those of each. -/
theorem mapM {α β : Type} {make : α → Except SchemaError β} {items : List α} {results : List β}
    {f : β → List Tag} {g : α → List String}
    (h : ∀ item ∈ items, ∀ result, make item = .ok result → Carries (f result) (g item))
    (hrun : items.mapM make = .ok results) : Carries (results.flatMap f) (items.flatMap g) := by
  have hall := mapM_eq_ok_iff.mp hrun
  clear hrun
  induction hall with
  | nil => exact nil
  | @cons item result _ _ hitem _ ih =>
    obtain ⟨hfirst, hrest⟩ := List.forall_mem_cons.mp h
    exact (hfirst result hitem).append (ih hrest)

theorem singleton_iff : Carries [tag] texts ↔ Plain tag ∧
    (∀ value ∈ tag.values, IsSymbol value ∨ value ∈ texts) ∧ ∀ text ∈ texts, text ∈ tag.values := by
  constructor
  · rintro ⟨hplain, horigin, hheld⟩
    simpa using And.intro hplain (And.intro horigin hheld)
  · rintro ⟨hplain, horigin, hheld⟩
    constructor
    · simpa using hplain
    · simpa using horigin
    · simpa using hheld

/-- Texts that are symbols need not be listed. -/
theorem of_symbol {text : String} (h : Carries tags (texts ++ [text])) (hsymbol : IsSymbol text) :
    Carries tags texts := by
  refine ⟨h.plain, fun tag htag value hvalue => ?_, fun text htext =>
    h.held text (List.mem_append_left _ htext)⟩
  rcases h.origin tag htag value hvalue with hvalue | hvalue
  · exact .inl hvalue
  · rcases List.mem_append.mp hvalue with hvalue | hvalue
    · exact .inr hvalue
    · exact .inl (List.mem_singleton.mp hvalue ▸ hsymbol)

theorem new {name : String} (h : IsName name) : Carries [Tag.new name] [] := by
  refine singleton_iff.mpr ⟨.new h, ?_, List.forall_mem_nil _⟩
  simp

/-- An attribute that is new adds its value. -/
theorem set (h : Carries [tag] texts) {key : String} (hkey : IsName key) (value : String)
    (habsent : ∀ pair ∈ tag.attributes, pair.1 ≠ key) :
    Carries [tag.set key value] (texts ++ [value]) := by
  obtain ⟨hplain, horigin, hheld⟩ := singleton_iff.mp h
  refine singleton_iff.mpr ⟨hplain.set hkey value, ?_, ?_⟩
  · intro other hother
    rcases (Tag.mem_values_set habsent).mp hother with hother | rfl
    · exact (horigin other hother).imp_right (List.mem_append_left _)
    · exact .inr (by simp)
  · intro text htext
    rw [Tag.mem_values_set habsent]
    exact (List.mem_append.mp htext).imp (hheld text) List.mem_singleton.mp

/-- An attribute that is new adds nothing if its value is a symbol. -/
theorem set_symbol (h : Carries [tag] texts) {key value : String} (hkey : IsName key)
    (hvalue : IsSymbol value) (habsent : ∀ pair ∈ tag.attributes, pair.1 ≠ key) :
    Carries [tag.set key value] texts :=
  (h.set hkey value habsent).of_symbol hvalue

theorem addTags (h : Carries [tag] texts) (h' : Carries others more) :
    Carries [tag.addTags others] (texts ++ more) := by
  obtain ⟨hplain, horigin, hheld⟩ := singleton_iff.mp h
  refine singleton_iff.mpr ⟨hplain.addTags h'.plain, ?_, ?_⟩
  · intro value hvalue
    rcases Tag.mem_values_addTags.mp hvalue with hvalue | ⟨child, hchild, hvalue⟩
    · exact (horigin value hvalue).imp_right (List.mem_append_left _)
    · exact (h'.origin child hchild value hvalue).imp_right (List.mem_append_right _)
  · intro text htext
    rw [Tag.mem_values_addTags]
    exact (List.mem_append.mp htext).imp (hheld text) (h'.held text)

theorem addTag (h : Carries [tag] texts) (h' : Carries [child] more) :
    Carries [tag.addTag child] (texts ++ more) :=
  h.addTags h'

theorem sortBy (h : Carries [tag] texts) (rank : Content → Int) :
    Carries [tag.sortBy rank] texts := by
  obtain ⟨hplain, horigin, hheld⟩ := singleton_iff.mp h
  refine singleton_iff.mpr ⟨hplain.sortBy rank, ?_, ?_⟩
  · simpa only [Tag.mem_values_sortBy] using horigin
  · simpa only [Tag.mem_values_sortBy] using hheld

end Carries

theorem carries_enumerationValue (value : Literal) :
    Carries [enumerationValue value] (strings [value]) := by
  have hnew : Carries [Tag.new "enumeration"] [] := .new (by decide)
  cases value with
  | string value => exact hnew.set (by decide) value (by simp)
  | number value => exact hnew.set_symbol (by decide) (isSymbol_toText value) (by simp)

theorem carries_enumeration (values : List Literal) :
    Carries [enumeration values] (strings values) := by
  have hvalues : Carries (values.map enumerationValue) (strings values) := by
    induction values with
    | nil => exact .nil
    | cons value rest ih =>
      have hstrings : strings (value :: rest) = strings [value] ++ strings rest := by
        cases value <;> rfl
      rw [hstrings]
      exact (carries_enumerationValue value).append ih
  have hbase : IsSymbol (if values.all Literal.isNumber then decimalType else stringType) := by
    split_ifs <;> decide
  have hrestriction : Carries [(Tag.new "restriction").set "base"
      (if values.all Literal.isNumber then decimalType else stringType)] [] :=
    (Carries.new (by decide)).set_symbol (by decide) hbase (by simp)
  exact (Carries.new (by decide)).addTag (hrestriction.addTags hvalues)

theorem carries_typedAttribute {element name : String} {simple : List SimpleType}
    {values : List Literal} {tag : Tag}
    (h : typedAttribute element name simple values = .ok tag) :
    Carries [tag] (name :: strings values) ∧ ∀ pair ∈ tag.attributes, pair.1 ≠ "use" := by
  have hname : Carries [(Tag.new "attribute").set "name" name] [name] :=
    (Carries.new (by decide)).set (by decide) name (by simp)
  rcases typedAttribute_eq_ok h with ⟨type, -, rfl, rfl⟩ | rfl
  · exact ⟨hname.set_symbol (by decide) (isSymbol_builtinType _) (by simp [setValue]),
      by simp [setValue]⟩
  · exact ⟨hname.addTag (carries_enumeration values), by simp [setValue]⟩

theorem carries_attributeTag {element : String} {property : Property} {tag : Tag}
    (hcontent : property.isContent = false) (h : attributeTag element property = .ok tag) :
    Carries [tag] property.texts := by
  obtain ⟨name, plain, hname, htyped, rfl⟩ := attributeTag_eq_ok h
  obtain ⟨hcarries, habsent⟩ := carries_typedAttribute htyped
  have htexts : property.texts = name :: strings (allowedValues property.types) := by
    simp [Property.texts, hcontent, hname]
  rw [htexts]
  split_ifs
  · exact hcarries.set_symbol (by decide) (by decide) habsent
  · exact hcarries

theorem carries_elementReference (name : String) : Carries [elementReference name] [name] :=
  (Carries.new (by decide)).set (by decide) name (by simp)

/-- Bounds are written with digits, or as a word. -/
theorem isSymbol_toString (n : Nat) : IsSymbol (toString n) := by
  intro c hc
  have hdigit : c.isDigit := isDigit_of_mem_toDigits (by simpa using hc)
  rw [isNameChar_of_isDigit hdigit, Bool.true_or]

theorem isSymbol_maxOccurs (bound : MaxOccurs) : IsSymbol bound.toText := by
  cases bound with
  | unbounded => decide
  | count n => exact isSymbol_toString n

theorem Carries.occurs {tag : Tag} {texts : List String} (h : Carries [tag] texts) (occurs : Occurs)
    (habsent : ∀ pair ∈ tag.attributes, pair.1 ≠ "minOccurs" ∧ pair.1 ≠ "maxOccurs") :
    Carries [occurs.apply tag] texts := by
  have hmin : Carries [tag.set "minOccurs" (toString occurs.min)] texts :=
    h.set_symbol (by decide) (isSymbol_toString occurs.min) fun pair hpair => (habsent pair hpair).1
  refine hmin.set_symbol (by decide) (isSymbol_maxOccurs occurs.max) fun pair hpair => ?_
  rcases mem_setValue hpair with rfl | hpair
  · simp
  · exact (habsent pair hpair).2

theorem carries_groupOf (occurs : Occurs) (names : List String) :
    Carries (groupOf occurs names).toList names := by
  unfold groupOf
  split
  · exact .nil
  · next name =>
    refine (Carries.new (by decide)).addTag ((carries_elementReference name).occurs occurs ?_)
    simp [elementReference, setValue]
  · next names _ _ =>
    have hreferences : ∀ names, Carries (names.map elementReference) names := by
      intro names
      induction names with
      | nil => exact .nil
      | cons name rest ih => exact (carries_elementReference name).append ih
    refine Carries.addTags (Carries.occurs (Carries.new (by decide)) occurs ?_) (hreferences _)
    simp

theorem carries_component {element : String} {mixed : Bool} {property : Property}
    {part : Option Tag} (h : component element mixed property = .ok part) :
    Carries part.toList property.texts := by
  rcases component_eq_ok h with ⟨hcontent, rfl⟩ | ⟨hcontent, tag, htag, rfl⟩
  · rw [Property.texts, if_pos hcontent]
    exact carries_groupOf _ _
  · exact carries_attributeTag hcontent htag

theorem carries_complexType {element : Element} {mixed : Bool} {tag : Tag}
    (h : complexType element mixed = .ok tag) :
    Carries [tag] (element.properties.flatMap Property.texts) ∧ tag.attributes = [] := by
  obtain ⟨components, hcomponents, rfl⟩ := complexType_eq_ok h
  have hparts := Carries.mapM (f := Option.toList) (fun _ _ _ => carries_component) hcomponents
  have hreduce : components.flatMap Option.toList = components.reduceOption := by
    rw [List.reduceOption, List.filterMap_eq_flatMap_toList]
    rfl
  rw [hreduce] at hparts
  exact ⟨((Carries.new (by decide)).addTags hparts).sortBy rank, rfl⟩

theorem carries_emptyType : Carries [emptyType] [] := by
  have hlength : Carries [(Tag.new "length").set "value" "0"] [] :=
    (Carries.new (by decide)).set_symbol (by decide) (by decide) (by simp)
  have hrestriction : Carries [(Tag.new "restriction").set "base" stringType] [] :=
    (Carries.new (by decide)).set_symbol (by decide) (by decide) (by simp)
  exact (Carries.new (by decide)).addTag (hrestriction.addTag hlength)

theorem carries_extendedType {element : Element} {type : SimpleType} {tag : Tag}
    (h : extendedType element type = .ok tag) :
    Carries [tag] (element.attributes.flatMap Property.texts) := by
  obtain ⟨attributes, hattributes, rfl⟩ := extendedType_eq_ok h
  have hcarries : Carries attributes (element.attributes.flatMap Property.texts) := by
    have heach := Carries.mapM (f := fun tag => [tag]) (fun property hproperty tag htag =>
      carries_attributeTag (by simpa using (List.mem_filter.mp hproperty).2) htag) hattributes
    simpa using heach
  have hextension : Carries [(Tag.new "extension").set "base" (builtinType type)] [] :=
    (Carries.new (by decide)).set_symbol (by decide) (isSymbol_builtinType type) (by simp)
  exact (Carries.new (by decide)).addTag ((Carries.new (by decide)).addTag
    (hextension.addTags hcarries))

/-- The type of an element carries the texts of its properties. -/
theorem carries_elementType {element : Element} {type? : Option Tag}
    (h : elementType element = .ok type?) :
    Carries type?.toList
      ((if (textType? element).isSome then element.attributes
        else element.properties).flatMap Property.texts) := by
  rcases elementType_eq_ok h with ⟨hnil, rfl⟩ | ⟨type, htype, hattributes, rfl⟩ |
    ⟨type, tag, htype, htag, rfl⟩ | ⟨tag, htype, htag, rfl⟩
  · simpa [Element.attributes, hnil] using carries_emptyType
  · rw [htype, Option.isSome_some, if_pos rfl, hattributes]
    exact .nil
  · rw [htype, Option.isSome_some, if_pos rfl]
    exact carries_extendedType htag
  · obtain ⟨hcarries, hattributes⟩ := carries_complexType htag
    rw [htype, Option.isSome_none, if_neg Bool.false_ne_true]
    split_ifs
    · exact hcarries.set_symbol (by decide) (by decide) (by simp [hattributes])
    · exact hcarries

/-- The declaration of an element carries its texts. -/
theorem carries_elementDeclaration {element : Element} {tag : Tag}
    (h : elementDeclaration element = .ok tag) : Carries [tag] element.texts := by
  have hname : Carries [(Tag.new "element").set "name" element.name] [element.name] :=
    (Carries.new (by decide)).set (by decide) element.name (by simp)
  rw [elementDeclaration_eq] at h
  obtain ⟨type?, htype, rfl⟩ := map_eq_ok_iff.mp h
  have hcarries := carries_elementType htype
  cases type? with
  | some type => exact hname.addTag hcarries
  | none =>
    have hbare : Carries [(Tag.new "element").set "name" element.name] element.texts :=
      hname.append hcarries
    cases contentType element with
    | simple type =>
      exact hbare.set_symbol (by decide) (isSymbol_builtinType type) (by simp [setValue])
    | _ => exact hbare

/-- A schema carries the texts of its elements. -/
theorem carries_build {elements : List Element} {schema : Tag} (h : build elements = .ok schema) :
    Carries [schema] (elements.flatMap Element.texts) := by
  obtain ⟨declarations, hdeclarations, rfl⟩ := build_eq_ok h
  have hcarries : Carries declarations (elements.flatMap Element.texts) := by
    have heach := Carries.mapM (f := fun tag => [tag])
      (fun _ _ _ => carries_elementDeclaration) hdeclarations
    simpa using heach
  have hroot : Carries [root] [] :=
    (Carries.new (by decide)).set_symbol (by decide) (by decide) (by simp)
  exact hroot.addTags hcarries

end Schema

end DeclSchema
