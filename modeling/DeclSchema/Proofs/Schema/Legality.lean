import DeclSchema.CommandLine
import DeclSchema.Proofs.Extraction.Words
import DeclSchema.Proofs.Schema.Rendering

/-!
# Characters that schemas may not hold

Whether a source has a schema that a document may hold. Names of elements are words, so
that only keys and literals of attributes can have characters in them that no document
may hold: the schema of a source has one exactly if one of those texts does
(`legalText_exactly`), and a job with a check fails exactly then.
-/

namespace DeclSchema

namespace Xml

/-- A character of a word may be one of a name, and may always be one of a document. -/
theorem isLegalText_of_isWord {text : String} (h : Pattern.isWord text.toList) :
    isLegalText text := by
  have hlegal : ∀ {c : Char}, Pattern.continuesWord c → isLegal c := by
    intro c hc
    by_cases hdollar : c = '$'
    · subst hdollar
      decide
    · refine isLegal_of_isNameChar ?_
      simp only [Pattern.continuesWord, Pattern.startsWord, Bool.or_eq_true, beq_iff_eq,
        hdollar, or_false] at hc
      rcases hc with (halpha | rfl) | hdigit
      · simp [isNameChar, Char.isAlphanum, halpha]
      · decide
      · simp [isNameChar, Char.isAlphanum, hdigit]
  rw [isLegalText_iff]
  cases hchars : text.toList with
  | nil => exact List.forall_mem_nil _
  | cons c cs =>
    rw [hchars] at h
    obtain ⟨hstart, hrest⟩ := Bool.and_eq_true_iff.mp h
    rw [List.forall_mem_cons]
    refine ⟨hlegal ?_, fun d hd => hlegal (List.all_eq_true.mp hrest d hd)⟩
    rw [Pattern.continuesWord, hstart, Bool.true_or]

end Xml

namespace Extraction

/-- What holds of words holds of all texts of an element of a source exactly if it holds of
the keys and literals of its attributes. -/
theorem forall_texts_iff {P : String → Prop}
    (hword : ∀ text, Pattern.isWord text.toList → P text) {options : ExtractionOptions}
    {source : String} {element : Element} (h : element ∈ (ofSource options source).elements) :
    (∀ text ∈ element.texts, P text) ↔
      ∀ property ∈ element.attributes, ∀ text ∈ property.texts, P text := by
  have hcontent : ∀ property ∈ element.properties, property.isContent →
      ∀ text ∈ property.texts, P text := by
    intro property hproperty hcontent text htext
    rw [Property.texts, if_pos hcontent, Schema.mem_references] at htext
    exact hword text (isWord_reference h hproperty htext)
  rw [Element.texts, List.forall_mem_cons, and_iff_right (hword _ (isWord_name h)),
    List.forall_mem_flatMap]
  split_ifs
  · rfl
  · constructor
    · intro hall property hproperty
      exact hall property (List.mem_of_mem_filter hproperty)
    · intro hattributes property hproperty
      by_cases hkind : property.isContent
      · exact hcontent property hproperty hkind
      · exact hattributes property (List.mem_filter.mpr ⟨hproperty, by simpa using hkind⟩)

end Extraction

namespace CommandLine

theorem blank_unit {given : Given} {job : Job} (h : job? given = some job) :
    ∀ c ∈ job.unit.toList, c = ' ' ∨ c = '\t' := by
  have hindent : ∀ c ∈ (indentUnit given).toList, c = ' ' ∨ c = '\t' := by
    intro c hc
    unfold indentUnit at hc
    split at hc
    · exact .inr (List.mem_singleton.mp hc)
    · rw [String.toList_ofList] at hc
      exact .inl (List.eq_of_mem_replicate hc)
  unfold job? at h
  split at h
  · cases h
  · obtain ⟨input, -, rfl⟩ := Option.map_eq_some_iff.mp h
    exact hindent

/-- A check fails exactly for a schema with a character that no document may hold. -/
theorem output?_eq_illFormed_iff {job : Job} {source : String} {schema : Xml.Tag}
    (hschema : (Conversion.ofSource job.extraction source).schema = .ok schema)
    (hemit : job.emit = .schema) (hcheck : job.check) :
    job.output? source = .error .illFormed ↔ ¬ Xml.isLegalText (schema.render 0 job.unit) := by
  rw [Job.output?, hemit, hschema]
  by_cases hlegal : Xml.isLegalText (schema.render 0 job.unit) <;> simp [hcheck, hlegal]

end CommandLine

namespace Conversion

open Xml

theorem isLegalText_render_iff {options : ExtractionOptions} {source : String} {schema : Tag}
    (h : (ofSource options source).schema = .ok schema) (level : Nat) {unit : String}
    (hunit : ∀ c ∈ unit.toList, c = ' ' ∨ c = '\t') :
    isLegalText (schema.render level unit) ↔
      ∀ element ∈ (ofSource options source).extraction.elements,
        ∀ property ∈ element.attributes, ∀ text ∈ property.texts, isLegalText text := by
  rw [schema_ofSource] at h
  rw [extraction_ofSource,
    isLegalText_render (Schema.plain_build h) level (isLegalText_of_blank hunit),
    Schema.forall_values_iff (fun _ => Schema.isLegalText_of_isSymbol) h]
  exact forall₂_congr fun element helement =>
    Extraction.forall_texts_iff (fun _ => isLegalText_of_isWord) helement

/-- The schema of a source is made of characters that documents may hold exactly if the keys
and literals of the attributes are, however it is indented; and a job with a check refuses it
exactly if one of them is not. -/
theorem legalText_exactly (options : ExtractionOptions) (source : String) (schema : Tag)
    (h : (ofSource options source).schema = .ok schema) :
    let elements := (ofSource options source).extraction.elements
    (∀ (level : Nat) (unit : String), (∀ c ∈ unit.toList, c = ' ' ∨ c = '\t') →
      (isLegalText (schema.render level unit) ↔
        ∀ element ∈ elements, ∀ property ∈ element.attributes, ∀ text ∈ property.texts,
          isLegalText text)) ∧
    ∀ (given : CommandLine.Given) (job : CommandLine.Job), CommandLine.job? given = some job →
      job.extraction = options → job.emit = .schema → job.check →
        (job.output? source = .error .illFormed ↔
          ∃ element ∈ elements, ∃ property ∈ element.attributes, ∃ text ∈ property.texts,
            ¬ isLegalText text) := by
  intro elements
  refine ⟨fun level unit hunit => isLegalText_render_iff h level hunit, ?_⟩
  intro given job hjob hoptions hemit hcheck
  rw [← hoptions] at h
  rw [CommandLine.output?_eq_illFormed_iff h hemit hcheck,
    isLegalText_render_iff h 0 (CommandLine.blank_unit hjob), hoptions]
  simp [elements]

/-- A quoted key and a literal with an escaped tab in it pass the check. -/
theorem legalText_exactly_escaped_tab :
    let source := "interface A \x7b \"a<b\": \"x\\ty\" \x7d"
    let given : CommandLine.Given := { input := some "a.ts", check := true }
    ∃ schema job, (ofSource {} source).schema = .ok schema ∧
      CommandLine.job? given = some job ∧
      isLegalText (schema.render 0 job.unit) ∧ job.output? source ≠ .error .illFormed := by
  intro source given
  have helements : (Extraction.ofSource {} source).elements =
      [⟨"A", [⟨some "a<b", true, [.restricted [.string "x\ty"]], false⟩]⟩] := by
    decide +kernel
  have hprojectable : ∀ element ∈ (Extraction.ofSource {} source).elements,
      Schema.Projectable element := by
    rw [helements]
    decide
  have hlegal : ∀ element ∈ (Extraction.ofSource {} source).elements,
      ∀ property ∈ element.attributes, ∀ text ∈ property.texts, isLegalText text := by
    rw [helements]
    decide
  obtain ⟨schema, hschema⟩ := Schema.exists_build hprojectable
  rw [← schema_ofSource] at hschema
  rw [← extraction_ofSource] at hlegal
  obtain ⟨hrender, hcheck⟩ := legalText_exactly {} source schema hschema
  refine ⟨schema, _, hschema, rfl, (hrender 0 _ (by decide)).mpr hlegal, fun hfails => ?_⟩
  obtain ⟨element, helement, property, hproperty, text, htext, hillegal⟩ :=
    (hcheck given _ rfl rfl rfl rfl).mp hfails
  exact hillegal (hlegal element helement property hproperty text htext)

/-- An escaped control character in a literal is written as it is, and refused. -/
theorem not_legalText_escaped_control :
    let source := "interface A \x7b x: \"\\u0001\" \x7d"
    let given : CommandLine.Given := { input := some "a.ts", check := true }
    ∃ schema job, (ofSource {} source).schema = .ok schema ∧
      CommandLine.job? given = some job ∧
      ¬ isLegalText schema.toText ∧ job.output? source = .error .illFormed := by
  intro source given
  have helements : (Extraction.ofSource {} source).elements =
      [⟨"A", [⟨some "x", true, [.restricted [.string "\x01"]], false⟩]⟩] := by
    decide +kernel
  have hprojectable : ∀ element ∈ (Extraction.ofSource {} source).elements,
      Schema.Projectable element := by
    rw [helements]
    decide
  have hillegal : ¬ ∀ element ∈ (Extraction.ofSource {} source).elements,
      ∀ property ∈ element.attributes, ∀ text ∈ property.texts, isLegalText text := by
    rw [helements]
    decide
  obtain ⟨schema, hschema⟩ := Schema.exists_build hprojectable
  rw [← schema_ofSource] at hschema
  have hrender : ∀ unit : String, (∀ c ∈ unit.toList, c = ' ' ∨ c = '\t') →
      ¬ isLegalText (schema.render 0 unit) := by
    intro unit hunit
    rw [isLegalText_render_iff hschema 0 hunit, extraction_ofSource]
    exact hillegal
  obtain ⟨job, hjob, hoptions, hemit, hcheck⟩ : ∃ job, CommandLine.job? given = some job ∧
      job.extraction = {} ∧ job.emit = .schema ∧ job.check := ⟨_, rfl, rfl, rfl, rfl⟩
  refine ⟨schema, job, hschema, hjob, hrender Tag.defaultUnit (by decide), ?_⟩
  rw [← hoptions] at hschema
  rw [CommandLine.output?_eq_illFormed_iff hschema hemit hcheck]
  exact hrender job.unit (CommandLine.blank_unit hjob)

end Conversion

end DeclSchema
