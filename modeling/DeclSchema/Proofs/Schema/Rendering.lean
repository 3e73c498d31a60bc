import DeclSchema.Proofs.Schema.Texts
import DeclSchema.Proofs.Xml.Processing
import DeclSchema.Schema.Basic

/-!
# Reading schemas back

What becomes of a schema that is written and read. A reader that undoes the layout and the
escapes finds the schema itself, so that no two schemas are written alike
(`read_back`). A processor, for which white space in a value is not what it was, finds the
schema exactly if the texts of its elements are unbroken (`processed_exactly`).
-/

namespace DeclSchema.Schema

open Xml

variable {elements others : List Element} {schema other : Tag}

theorem plain_build (h : build elements = .ok schema) : Plain schema :=
  (carries_build h).plain schema (List.mem_singleton_self schema)

/-- What holds of symbols holds of all values in a schema exactly if it holds of the texts of
the elements. -/
theorem forall_values_iff {P : String → Prop} (hsymbol : ∀ text, IsSymbol text → P text)
    (h : build elements = .ok schema) :
    (∀ value ∈ schema.values, P value) ↔ ∀ element ∈ elements, ∀ text ∈ element.texts, P text := by
  obtain ⟨-, horigin, hheld⟩ := Carries.singleton_iff.mp (carries_build h)
  rw [← List.forall_mem_flatMap]
  constructor
  · intro hvalues text htext
    exact hvalues text (hheld text htext)
  · intro htexts value hvalue
    exact (horigin value hvalue).elim (hsymbol value) (htexts value)

theorem isLegalText_of_isSymbol {text : String} (h : IsSymbol text) : isLegalText text := by
  rw [isLegalText_iff]
  intro c hc
  rcases Bool.or_eq_true_iff.mp (h c hc) with hname | hslash
  · exact isLegal_of_isNameChar hname
  · rw [eq_of_beq hslash]
    decide

theorem unbroken_of_isSymbol {text : String} (h : IsSymbol text) : Unbroken text := by
  intro c hc
  have hsymbol := h c hc
  refine ⟨?_, ?_, ?_⟩ <;> rintro rfl <;> exact absurd hsymbol (by decide)

/-- The value that is escaped between two quotes. -/
def unescape? (written : List Char) : Option String :=
  (expand? written).map String.ofList

theorem unescape?_escape (value : String) : unescape? (escape true value).toList = some value := by
  rw [unescape?, escape, String.toList_ofList, expand?_escape, Option.map_some, String.ofList_toList]

/-- A schema is read back from its text, whatever strings its elements have and however it is
indented. Schemas that are written alike are therefore the same. -/
theorem read_back (elements others : List Element) (schema other : Tag)
    (h : build elements = .ok schema) (h' : build others = .ok other) (level : Nat)
    (unit : String) (hunit : ∀ c ∈ unit.toList, c = ' ' ∨ c = '\t') :
    Tag.read? unescape? (schema.render level unit).toList = some schema ∧
      (schema.render level unit = other.render level unit → schema = other) := by
  have hread : ∀ {elements : List Element} {schema : Tag}, build elements = .ok schema →
      Tag.read? unescape? (schema.render level unit).toList = some schema := by
    intro elements schema h
    rw [read?_render (f := id) unescape?_escape (isGap_of_blank hunit) level (plain_build h)]
    exact congrArg some (Tag.mapValues_eq_self_iff.mpr fun _ _ => rfl)
  refine ⟨hread h, fun hrender => ?_⟩
  have hother := hread h'
  rw [← hrender, hread h] at hother
  exact Option.some.inj hother

/-- A markup-like literal is not taken for markup, nor an escaped one for what it escapes. -/
theorem read_back_markup :
    let element (literal : String) : Element := ⟨"A", [
      ⟨some "children", true, [.simple .string], false⟩,
      ⟨some "k\n", true, [.restricted [.string literal]], false⟩]⟩
    ∃ schema other, build [element "\"/><b c=\"&lt;"] = .ok schema ∧
      build [element "\"/><b c=\"<"] = .ok other ∧
      Tag.read? unescape? (schema.render 1 "\t").toList = some schema ∧
      schema.render 1 "\t" ≠ other.render 1 "\t" := by
  intro element
  have hback := read_back [element "\"/><b c=\"&lt;"] [element "\"/><b c=\"<"] _ _ rfl rfl 1 "\t"
    (by decide)
  refine ⟨_, _, rfl, rfl, hback.1, fun hrender => ?_⟩
  exact absurd (congrArg Tag.values (hback.2 hrender)) (by decide)

/-- A processor hands a schema of legal texts on with each value normalized, and finds the
values that were stored exactly if no text has white space other than blanks in it. -/
theorem processed_exactly (elements : List Element) (schema : Tag)
    (h : build elements = .ok schema)
    (hlegal : ∀ element ∈ elements, ∀ text ∈ element.texts, isLegalText text) (level : Nat)
    (unit : String) (hunit : ∀ c ∈ unit.toList, c = ' ' ∨ c = '\t') :
    Tag.process? (schema.render level unit) = some (schema.mapValues normalized) ∧
      (Tag.process? (schema.render level unit) = some schema ↔
        ∀ element ∈ elements, ∀ text ∈ element.texts, Unbroken text) := by
  have hprocess := process?_render (plain_build h) level hunit
    ((forall_values_iff (fun _ => isLegalText_of_isSymbol) h).mpr hlegal)
  refine ⟨hprocess, ?_⟩
  rw [hprocess, Option.some.injEq, Tag.mapValues_eq_self_iff,
    ← forall_values_iff (fun _ => unbroken_of_isSymbol) h]
  exact forall₂_congr fun value _ => normalized_eq_self_iff

/-- A literal with quotes, brackets and ampersands in it is handed on as it is. -/
theorem processed_exactly_quotes :
    let elements : List Element := [⟨"A", [
      ⟨some "children", true, [.simple .string], false⟩,
      ⟨some "k", true, [.restricted [.string "a \"b\" <&#10;>"]], false⟩]⟩]
    ∃ schema, build elements = .ok schema ∧
      Tag.process? (schema.render 0 Tag.defaultUnit) = some schema := by
  intro elements
  refine ⟨_, rfl, ?_⟩
  exact (processed_exactly elements _ rfl (by decide) 0 Tag.defaultUnit (by decide)).2.mpr (by decide)

/-- A literal of two lines is handed on as one of one line. -/
theorem not_processed_line_feed :
    let elements : List Element := [⟨"A", [
      ⟨some "children", true, [.simple .string], false⟩,
      ⟨some "k", true, [.restricted [.string "a\nb"]], false⟩]⟩]
    (∀ element ∈ elements, ∀ text ∈ element.texts, isLegalText text) ∧
      ∃ schema read, build elements = .ok schema ∧ Tag.process? schema.toText = some read ∧
        "a\nb" ∈ schema.values ∧ "a\nb" ∉ read.values ∧ "a b" ∈ read.values := by
  intro elements
  have hlegal : ∀ element ∈ elements, ∀ text ∈ element.texts, isLegalText text := by
    decide
  have hbuild : build elements = .ok _ := rfl
  have hprocess := process?_render (plain_build hbuild) 0
    (by decide : ∀ c ∈ Tag.defaultUnit.toList, c = ' ' ∨ c = '\t')
    ((forall_values_iff (fun _ => isLegalText_of_isSymbol) hbuild).mpr hlegal)
  exact ⟨hlegal, _, _, rfl, hprocess, by decide⟩

end DeclSchema.Schema
