import DeclSchema.Model.Json
import DeclSchema.Proofs.Json.RoundTrip
import DeclSchema.Schema.Basic

/-!
# The model in JSON texts

What is written of an element, a property, a type or a literal is told from all else that
can be read there, and read as what it is of. A number keeps its value in whatever units it
is read, the sign of a zero included, so that the elements of a text are those it was
written from (`Element.texts_read_back`).
-/

namespace DeclSchema

open Json

namespace Json

theorem readItems_map {α : Type} (write : α → Json) (values : List α) :
    asRead.readItems (values.map write) = values.map fun value => (write value).asRead := by
  induction values with
  | nil => rfl
  | cons value values ih =>
    rw [List.map_cons, asRead.readItems, ih]
    rfl

/-- A list is read back if its items are. -/
theorem listOf?_asRead {α : Type} {read : Json → Option α} {write : α → Json}
    (h : ∀ value, read (write value).asRead = some value) (values : List α) :
    listOf? read (array (values.map write)).asRead = some values := by
  rw [asRead, readItems_map, listOf?]
  induction values with
  | nil => rfl
  | cons value values ih =>
    rw [List.map_cons, List.mapM_cons, h, ih]
    rfl

theorem writable_array_map {α : Type} {write : α → Json} (h : ∀ value, Writable (write value))
    (values : List α) : Writable (array (values.map write)) := by
  refine .array fun json hjson => ?_
  obtain ⟨value, -, rfl⟩ := List.mem_map.mp hjson
  exact h value

end Json

namespace Literal

theorem writable_toJson (literal : Literal) : Writable literal.toJson := by
  cases literal with
  | string value => exact .string value
  | number value => exact .number Binary64.exponent_shortest_of_zero

theorem ofJson?_asRead (literal : Literal) : ofJson? literal.toJson.asRead = some literal := by
  cases literal with
  | string value => rfl
  | number value =>
    have hread : Binary64.ofNumeral? (value.shortest Json.layout.tie).asRead = some value := by
      rw [Binary64.ofNumeral?_congr (Numeral.negative_asRead _) (Numeral.magnitude_asRead _),
        Binary64.ofNumeral?_shortest]
    rw [toJson, asRead, ofJson?, hread, Option.map_some]

end Literal

namespace TypeVariant

theorem writable_toJson (type : TypeVariant) : Writable type.toJson := by
  cases type with
  | simple type => exact .string _
  | restricted values =>
    refine .object ?_ ?_
    · simp
    · simpa using writable_array_map Literal.writable_toJson values
  | reference name =>
    refine .object ?_ ?_
    · simp
    · simpa using Writable.string name

theorem exactItems_readItems (values : List Literal) :
    isExact.exactItems (asRead.readItems (values.map Literal.toJson)) := by
  induction values with
  | nil => rfl
  | cons literal values ih =>
    have hread := Literal.ofJson?_asRead literal
    have hexact : literal.toJson.asRead.isExact := by
      cases literal with
      | string value => rfl
      | number value =>
        obtain ⟨x, hx, -⟩ := Option.map_eq_some_iff.mp hread
        exact Option.isSome_of_eq_some hx
    rw [List.map_cons, asRead.readItems, isExact.exactItems, hexact, ih]
    rfl

theorem depthItems_readItems (values : List Literal) :
    depth.depthItems (asRead.readItems (values.map Literal.toJson)) = 0 := by
  induction values with
  | nil => rfl
  | cons literal values ih =>
    rw [List.map_cons, asRead.readItems, depth.depthItems, ih]
    cases literal <;> rfl

/-- The three forms of types are told apart by being a string and by the name of their
field. -/
theorem ofJson?_asRead (type : TypeVariant) : ofJson? type.toJson.asRead = some type := by
  cases type with
  | simple type =>
    have hname := SimpleType.ofName?_name type
    simp [ofJson?, toJson, asRead, isExact, depth, maxJsonDepth, simpleOfJson?, hname]
  | restricted values =>
    have hvalues := listOf?_asRead Literal.ofJson?_asRead values
    rw [asRead] at hvalues
    simp [ofJson?, toJson, asRead, asRead.readFields, isExact, isExact.exactFields, depth,
      depth.depthFields, maxJsonDepth, exactItems_readItems, depthItems_readItems, simpleOfJson?,
      restrictedOfJson?, required?, valuesOf, hvalues]
  | reference name =>
    simp [ofJson?, toJson, asRead, asRead.readFields, isExact, isExact.exactFields, depth,
      depth.depthFields, maxJsonDepth, simpleOfJson?, restrictedOfJson?, referenceOfJson?,
      required?, valuesOf, text?]

end TypeVariant

namespace Property

theorem writable_toJson (property : Property) : Writable property.toJson := by
  have htypes := writable_array_map TypeVariant.writable_toJson property.types
  obtain ⟨name, mandatory, types, multiple⟩ := property
  dsimp only at htypes
  refine .object ?_ ?_
  · cases name <;> cases multiple <;> simp
  · cases name <;> cases multiple <;> simp [Writable.bool, Writable.string, htypes]

theorem ofJson?_asRead (property : Property) : ofJson? property.toJson.asRead = some property := by
  have htypes := listOf?_asRead TypeVariant.ofJson?_asRead property.types
  obtain ⟨name, mandatory, types, multiple⟩ := property
  rw [asRead] at htypes
  cases name <;> cases multiple <;>
    simp [ofJson?, toJson, asRead, asRead.readFields, allNamed, optional?, required?, valuesOf,
      textOrNull?, text?, bool?, typesOfJson?, htypes]

end Property

namespace Element

theorem writable_toJson (element : Element) : Writable element.toJson := by
  have hproperties := writable_array_map Property.writable_toJson element.properties
  refine .object ?_ ?_
  · simp
  · simpa using ⟨Writable.string element.name, hproperties⟩

theorem ofJson?_asRead (element : Element) : ofJson? element.toJson.asRead = some element := by
  have hproperties := listOf?_asRead Property.ofJson?_asRead element.properties
  rw [asRead] at hproperties
  simp [ofJson?, toJson, asRead, asRead.readFields, allNamed, required?, valuesOf, text?,
    hproperties]

theorem listOfJson?_asRead (elements : List Element) :
    listOfJson? (listToJson elements).asRead = some elements :=
  listOf?_asRead ofJson?_asRead elements

/-- Elements are read back from both texts, so that they become the same schema, or none
for the same reason. -/
theorem texts_read_back (elements : List Element) :
    listOfText? (compactText elements) = some elements ∧
    listOfText? (prettyText elements) = some elements ∧
    (listOfText? (compactText elements)).map Schema.build = some (Schema.build elements) ∧
    (listOfText? (prettyText elements)).map Schema.build = some (Schema.build elements) := by
  have hwritable : Writable (listToJson elements) := writable_array_map writable_toJson elements
  have hcompact : listOfText? (compactText elements) = some elements := by
    rw [listOfText?, compactText, ofText?_compact hwritable]
    exact listOfJson?_asRead elements
  have hpretty : listOfText? (prettyText elements) = some elements := by
    rw [listOfText?, prettyText, ofText?_pretty hwritable]
    exact listOfJson?_asRead elements
  rw [hcompact, hpretty]
  exact ⟨rfl, rfl, rfl, rfl⟩

end Element

end DeclSchema
