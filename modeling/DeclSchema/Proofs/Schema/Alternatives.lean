import DeclSchema.Proofs.Number.Places
import DeclSchema.Proofs.Schema.Restrictions

/-!
# Which enumerated values differ

The values that a restriction enumerates are texts, and each of them stands for a literal. No two
of the literals are the same, but literals are compared as what they are, a text with a text and
a number with a number: a text and a number stay apart although they may be written alike. This
is the only way in which a value is enumerated twice.
-/

namespace DeclSchema

namespace Literal

/-- One of the texts among some literals is what one of the numbers among them is written as. -/
def Ambiguous (values : List Literal) : Prop :=
  ∃ text x, .string text ∈ values ∧ .number x ∈ values ∧ (Literal.number x).toText = text

/-- Of two literals that are written alike, and are not the same, one is a text and the other
one a number. -/
theorem isNumber_ne_of_toText_eq {a b : Literal} (hne : ¬ a.same b) (h : a.toText = b.toText) :
    a.isNumber ≠ b.isNumber := by
  cases a with
  | string text =>
    cases b with
    | string other => exact absurd (beq_iff_eq.mpr h) hne
    | number y => exact Bool.false_ne_true
  | number x =>
    cases b with
    | string other => exact Bool.false_ne_true.symm
    | number y =>
      have heq : x = y := eq_of_toText_number h
      rw [heq] at hne
      exact absurd (Binary64.same_refl y) hne

theorem Ambiguous.of_toText_eq {values : List Literal} {a b : Literal} (ha : a ∈ values)
    (hb : b ∈ values) (hkind : a.isNumber ≠ b.isNumber) (h : a.toText = b.toText) :
    Ambiguous values := by
  cases a with
  | string text =>
    cases b with
    | string other => exact absurd rfl hkind
    | number y => exact ⟨text, y, ha, hb, h.symm⟩
  | number x =>
    cases b with
    | string other => exact ⟨other, x, hb, ha, h⟩
    | number y => exact absurd rfl hkind

/-- Literals no two of which are the same are written differently, unless a text and a number
are written alike. -/
theorem nodup_toText_iff {values : List Literal} (h : values.Pairwise fun a b => ¬ a.same b) :
    (values.map toText).Nodup ↔ ¬ Ambiguous values := by
  constructor
  · rintro hnodup ⟨text, x, htext, hx, heq⟩
    have hsame : Literal.number x = .string text := List.inj_on_of_nodup_map hnodup hx htext heq
    cases hsame
  · intro hambiguous
    refine List.pairwise_map.mpr (h.imp_of_mem fun ha hb hne heq => hambiguous ?_)
    exact .of_toText_eq ha hb (isNumber_ne_of_toText_eq hne heq) heq

/-- Where all literals are numbers none is written as another one. -/
theorem not_ambiguous_of_numbers {values : List Literal} (h : ∀ value ∈ values, value.isNumber) :
    ¬ Ambiguous values := by
  rintro ⟨text, x, htext, -, -⟩
  exact Bool.false_ne_true (h _ htext)

end Literal

namespace Resolution

open Schema TypeVariant

theorem flatMap_allowed_eq (types : List TypeVariant) :
    types.flatMap allowed = (types.filter isRestriction).flatMap allowed := by
  induction types with
  | nil => rfl
  | cons type rest ih =>
    cases type with
    | restricted values => exact congrArg (values ++ ·) ih
    | simple | reference => exact ih

/-- The values of well-formed types are those of one restriction among them. -/
theorem WellFormed.exists_restricted {types : List TypeVariant} (h : WellFormed types)
    (hne : allowedValues types ≠ []) :
    ∃ values, .restricted values ∈ types ∧ allowedValues types = values := by
  rw [allowedValues_eq, flatMap_allowed_eq] at hne ⊢
  have hone := h.one
  rcases hfilter : types.filter isRestriction with _ | ⟨type, _ | ⟨second, rest⟩⟩
  · rw [hfilter] at hne
    exact absurd rfl hne
  · have htype : type ∈ types.filter isRestriction := hfilter ▸ List.mem_singleton_self type
    obtain ⟨hmem, hrestriction⟩ := List.mem_filter.mp htype
    obtain ⟨values, rfl⟩ := exists_of_isRestriction hrestriction
    exact ⟨values, hmem, List.flatMap_singleton _ _⟩
  · rw [hfilter] at hone
    exact absurd hone (by simp)

end Resolution

namespace Conversion

open Schema Xml

/-- Each restriction of a schema that enumerates values does so for one restriction of a
property: one value for each literal, in order. No two of the literals are the same, and two of
the values are equal only where one stands for a text and the other one for a number that is
written as this text. Decimal numbers are never enumerated twice. -/
theorem enumerated_for_literals (options : ExtractionOptions) (source : String) (schema : Tag)
    (h : (ofSource options source).schema = .ok schema) :
    schema.Every fun tag => isEnumeration tag →
      ∃ element ∈ (Extraction.ofSource options source).elements,
        ∃ property ∈ element.properties, ∃ values, .restricted values ∈ property.types ∧
          (∀ child ∈ tag.children, child.name = "enumeration") ∧
          tag.children.map (·.value? "value") = values.map (some ·.toText) ∧
          (values.Pairwise fun a b => ¬ a.same b) ∧
          (values.Pairwise fun a b => a.toText = b.toText → a.isNumber ≠ b.isNumber) ∧
          ((tag.children.map (·.value? "value")).Nodup ↔ ¬ Literal.Ambiguous values) ∧
          (tag.value? "base" = some "xs:decimal" →
            (tag.children.map (·.value? "value")).Nodup) := by
  rw [schema_ofSource] at h
  refine (every_enumerates h).mono fun tag henumerates htag => ?_
  obtain ⟨element, helement, property, hproperty, henumerates⟩ := henumerates htag
  have hwellFormed := Extraction.sound_ofSource helement property hproperty
  have hne : allowedValues property.types ≠ [] := by
    intro hnil
    have hvalues := henumerates.values
    rw [hnil, List.map_nil, List.map_eq_nil_iff] at hvalues
    simp [isEnumeration, hvalues] at htag
  obtain ⟨values, hvalues, hallowed⟩ := hwellFormed.exists_restricted hne
  rw [hallowed] at henumerates
  obtain ⟨-, hdistinct⟩ := hwellFormed.proper _ hvalues
  have hnodup : (tag.children.map (·.value? "value")).Nodup ↔ ¬ Literal.Ambiguous values := by
    have htexts : values.map (some ·.toText) = (values.map Literal.toText).map some :=
      List.map_map.symm
    rw [henumerates.values, htexts, List.nodup_map_iff (Option.some_injective _)]
    exact Literal.nodup_toText_iff hdistinct
  refine ⟨element, helement, property, hproperty, values, hvalues, henumerates.names,
    henumerates.values, hdistinct, hdistinct.imp Literal.isNumber_ne_of_toText_eq, hnodup, ?_⟩
  exact fun hbase => hnodup.mpr (Literal.not_ambiguous_of_numbers (henumerates.numbers hbase))

/-- Two notations of one number, and a text that this number is not written as. -/
theorem enumerated_for_literals_notations :
    let source := "interface A \x7b k: 0x10 | '16.0' | 16 \x7d"
    ∃ schema, (ofSource {} source).schema = .ok schema ∧
      schema.Every fun tag => isEnumeration tag →
        (tag.children.map (·.value? "value")).Nodup := by
  intro source
  let sixteen : Binary64 := ⟨false, 2 ^ 52, -48, by decide, by decide, by decide, by decide⟩
  have helements : (Extraction.ofSource {} source).elements =
      [⟨"A", [⟨some "k", true, [.restricted [.number sixteen, .string "16.0"]], false⟩]⟩] := by
    decide +kernel
  have hprojectable : ∀ element ∈ (Extraction.ofSource {} source).elements,
      Projectable element := by
    rw [helements]
    decide
  obtain ⟨schema, hschema⟩ := exists_build hprojectable
  rw [← schema_ofSource] at hschema
  refine ⟨schema, hschema, (enumerated_for_literals {} source schema hschema).mono ?_⟩
  intro tag henumerated htag
  obtain ⟨element, helement, property, hproperty, values, hvalues, -, -, -, -, hnodup, -⟩ :=
    henumerated htag
  rw [helements, List.mem_singleton] at helement
  cases helement
  cases List.mem_singleton.mp hproperty
  cases List.mem_singleton.mp hvalues
  refine hnodup.mpr ?_
  rintro ⟨text, x, htext, hx, heq⟩
  have htext : text = "16.0" := by simpa using htext
  have hx : x = sixteen := by simpa using hx
  rw [htext, hx] at heq
  exact absurd heq (by decide +kernel)

/-- A text and a number that are written alike are enumerated side by side. -/
theorem not_enumerated_once :
    ∃ schema, (ofSource {} "interface A \x7b k: '1' | 1 \x7d").schema = .ok schema ∧
      ¬ schema.Every fun tag => isEnumeration tag →
        (tag.children.map (·.value? "value")).Nodup := by
  have hprojectable : ∀ element ∈ (Extraction.ofSource {} "interface A \x7b k: '1' | 1 \x7d").elements,
      Projectable element := by
    decide +kernel
  obtain ⟨schema, hschema⟩ := exists_build hprojectable
  rw [← schema_ofSource] at hschema
  have hrepeated : (ofSource {} "interface A \x7b k: '1' | 1 \x7d").schema.toOption.any fun schema =>
      (schema.children.flatMap fun declaration => declaration.children.flatMap fun type =>
        type.children.flatMap fun part => part.children.flatMap Tag.children).any fun tag =>
          isEnumeration tag && !decide (tag.children.map (·.value? "value")).Nodup := by
    decide +kernel
  rw [hschema] at hrepeated
  obtain ⟨tag, htag, hrepeats⟩ := List.any_eq_true.mp hrepeated
  obtain ⟨henumeration, hrepeats⟩ := Bool.and_eq_true_iff.mp hrepeats
  simp only [List.mem_flatMap] at htag
  obtain ⟨declaration, hdeclaration, type, htype, part, hpart, simpleType, hsimpleType, htag⟩ := htag
  refine ⟨schema, hschema, fun hevery => ?_⟩
  have hinner := (((hevery.child hdeclaration).child htype).child hpart).child hsimpleType
  obtain ⟨hnodup, -⟩ := Tag.every_iff.mp (hinner.child htag)
  rw [decide_eq_true (hnodup henumeration)] at hrepeats
  cases hrepeats

end Conversion

end DeclSchema
