import DeclSchema.Proofs.Schema.Restrictions
import DeclSchema.Proofs.Json.Number

/-!
# Enumerations of decimal numbers

Numbers are written to a schema with all their places. Whatever a number is, from the least
one above zero to the greatest, this notation is digits with a point between them or without
one (`isDecimalForm_toText`), which is what the base of decimal numbers allows. A literal that is
no finite number has no value, so that it never gets into a schema.
-/

namespace DeclSchema

/-- One digit or more. -/
def IsDigits (cs : List Char) : Prop :=
  cs ≠ [] ∧ ∀ c ∈ cs, c.isDigit

/-- Digits, and perhaps a point and more digits. -/
inductive IsUnsignedDecimal : List Char → Prop
  | whole {digits : List Char} (h : IsDigits digits) : IsUnsignedDecimal digits
  | fraction {digits places : List Char} (h : IsDigits digits) (h' : IsDigits places) :
    IsUnsignedDecimal (digits ++ '.' :: places)

/-- A form of a decimal number that a schema allows: it may have a minus sign, and it has no
exponent. -/
def IsDecimalForm (text : String) : Prop :=
  IsUnsignedDecimal text.toList ∨ ∃ rest, text.toList = '-' :: rest ∧ IsUnsignedDecimal rest

theorem isDigits_toDigits (n : Nat) : IsDigits (Nat.toDigits 10 n) :=
  ⟨Nat.toDigits_ne_nil, fun _ hc => isDigit_of_mem_toDigits hc⟩

theorem IsDigits.append {cs ds : List Char} (h : IsDigits cs) (h' : ∀ d ∈ ds, d.isDigit) :
    IsDigits (cs ++ ds) :=
  ⟨by simp [h.1], List.forall_mem_append.mpr ⟨h.2, h'⟩⟩

theorem IsDigits.prepend {cs ds : List Char} (h : ∀ c ∈ cs, c.isDigit) (h' : IsDigits ds) :
    IsDigits (cs ++ ds) :=
  ⟨by simp [h'.1], List.forall_mem_append.mpr ⟨h, h'.2⟩⟩

/-- The cases are those of where the point is: behind all digits, between two of them, or
before the first one. -/
theorem isUnsignedDecimal_positionalText (n : Numeral) :
    IsUnsignedDecimal (n.positionalText "") := by
  have hdigits := isDigits_toDigits n.digits
  unfold Numeral.positionalText
  dsimp only
  split_ifs with hwhole hpoint
  · rw [String.toList_empty, List.append_nil]
    exact .whole (hdigits.append fun c hc => Numeral.isDigit_of_mem_zeros hc)
  · have hbefore : IsDigits ((Nat.toDigits 10 n.digits).take
        ((Nat.toDigits 10 n.digits).length + n.exponent).toNat) := by
      constructor
      · simp [hdigits.1]
        omega
      · exact fun c hc => hdigits.2 c (List.mem_of_mem_take hc)
    have hbehind : IsDigits ((Nat.toDigits 10 n.digits).drop
        ((Nat.toDigits 10 n.digits).length + n.exponent).toNat) := by
      constructor
      · simp
        omega
      · exact fun c hc => hdigits.2 c (List.mem_of_mem_drop hc)
    exact .fraction hbefore hbehind
  · have hzero : IsDigits ['0'] := by
      unfold IsDigits
      decide
    exact .fraction hzero (.prepend (fun c hc => Numeral.isDigit_of_mem_zeros hc) hdigits)

/-- A number is written to a schema in the form of a decimal number. -/
theorem isDecimalForm_toText (value : Binary64) :
    IsDecimalForm (Literal.number value).toText := by
  have hpositional := isUnsignedDecimal_positionalText (value.shortest .up)
  simp only [IsDecimalForm, Literal.toText, Binary64.toText, Numeral.toText, Literal.layout,
    ↓reduceIte, String.toList_ofList]
  split_ifs
  · exact .inr ⟨_, rfl, hpositional⟩
  · exact .inl hpositional

namespace Schema

open Xml

/-- Values that are enumerated on the base of decimal numbers are written as such. -/
theorem Enumerates.decimals {values : List Literal} {restriction : Tag}
    (h : Enumerates values restriction) (hbase : restriction.value? "base" = some "xs:decimal") :
    ∀ child ∈ restriction.children, ∃ text, child.value? "value" = some text ∧
      IsDecimalForm text := by
  intro child hchild
  have hmem : child.value? "value" ∈ values.map (some ·.toText) := by
    rw [← h.values]
    exact List.mem_map_of_mem hchild
  obtain ⟨value, hvalue, htext⟩ := List.mem_map.mp hmem
  refine ⟨value.toText, htext.symm, ?_⟩
  cases value with
  | string text => cases h.numbers hbase _ hvalue
  | number value => exact isDecimalForm_toText value

end Schema

namespace Conversion

open Schema Xml

/-- Wherever a schema enumerates values on the base of decimal numbers, each of them is in the
form of a decimal number. -/
theorem decimals_valid (options : ExtractionOptions) (source : String) (schema : Tag)
    (h : (ofSource options source).schema = .ok schema) :
    schema.Every fun tag =>
      tag.name = "restriction" → tag.value? "base" = some "xs:decimal" →
        ∀ child ∈ tag.children, child.name = "enumeration" →
          ∃ text, child.value? "value" = some text ∧ IsDecimalForm text := by
  rw [schema_ofSource] at h
  refine (every_enumerates h).mono fun tag henumerates hname hbase child hchild hchildName => ?_
  have henumeration : isEnumeration tag := by
    simp only [isEnumeration, hname, beq_self_eq_true, Bool.true_and, List.any_eq_true,
      beq_iff_eq]
    exact ⟨child, hchild, hchildName⟩
  obtain ⟨element, -, property, -, hvalues⟩ := henumerates henumeration
  exact hvalues.decimals hbase child hchild

/-- Among the five values of this attribute are the greatest finite number and the least one
above zero. All of them are enumerated. -/
theorem decimals_valid_extremes :
    let source :=
      "interface A \x7b x: 0x10 | -1_0.50 | 1e-7 | 1.7976931348623157e308 | 5e-324 \x7d"
    let greatest := "17976931348623157" ++ String.ofList (List.replicate 292 '0')
    let least := "0." ++ String.ofList (List.replicate 323 '0') ++ "5"
    let inside (tags : List Tag) := tags.flatMap Tag.children
    ∃ schema, (ofSource {} source).schema = .ok schema ∧
      (∃ restriction ∈ inside (inside (inside (inside schema.children))),
        restriction.name = "restriction" ∧ restriction.value? "base" = some "xs:decimal" ∧
          (∀ child ∈ restriction.children, child.name = "enumeration") ∧
          restriction.children.map (·.value? "value") =
            [some "16", some "-10.5", some "0.0000001", some greatest, some least]) ∧
      schema.Every fun tag =>
        tag.name = "restriction" → tag.value? "base" = some "xs:decimal" →
          ∀ child ∈ tag.children, child.name = "enumeration" →
            ∃ text, child.value? "value" = some text ∧ IsDecimalForm text := by
  intro source greatest least inside
  have henumerated : (ofSource {} source).schema.toOption.any fun (schema : Tag) =>
      decide (∃ restriction ∈ inside (inside (inside (inside schema.children))),
        restriction.name = "restriction" ∧ restriction.value? "base" = some "xs:decimal" ∧
          (∀ child ∈ restriction.children, child.name = "enumeration") ∧
          restriction.children.map (·.value? "value") =
            [some "16", some "-10.5", some "0.0000001", some greatest, some least]) := by
    decide +kernel
  cases hschema : (ofSource {} source).schema with
  | error error =>
    rw [hschema] at henumerated
    cases henumerated
  | ok schema =>
    rw [hschema] at henumerated
    exact ⟨schema, rfl, of_decide_eq_true henumerated, decimals_valid {} source schema hschema⟩

end Conversion

end DeclSchema
