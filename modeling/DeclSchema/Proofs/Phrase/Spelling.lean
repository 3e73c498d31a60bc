import DeclSchema.Proofs.Phrase.Basic

/-!
# Phrases as texts

The text of a phrase spells its tokens in front of every text that begins with a
character no word and no number goes on with. The marks between the parts of a phrase
begin with such characters, so that the parts can be taken one by one.
-/

namespace DeclSchema

open Pattern TokenStream

namespace DottedName

theorem print_cons (first second : Word) (others : List Word) :
    print ⟨first, second :: others⟩ = first.text ++ "." ++ print ⟨second, others⟩ :=
  String.intercalate_cons_cons

theorem startsWord_print (name : DottedName) :
    ∃ c rest, name.print.toList = c :: rest ∧ startsWord c := by
  obtain ⟨first, others⟩ := name
  obtain ⟨c, rest, htext, hc⟩ := exists_of_isWord first.spelled
  cases others with
  | nil => exact ⟨c, rest, htext, hc⟩
  | cons second others =>
    refine ⟨c, rest ++ ".".toList ++ (print ⟨second, others⟩).toList, ?_, hc⟩
    rw [print_cons, String.toList_append, String.toList_append, htext]
    rfl

theorem spells (name : DottedName) {tail : List Char} (htail : stops tail) :
    Spells name.print name.glyphs tail := by
  obtain ⟨first, others⟩ := name
  induction others generalizing first with
  | nil => exact .word_of_stops first.spelled htail
  | cons second others ih =>
    obtain ⟨c, rest, htext, hc⟩ := startsWord_print ⟨second, others⟩
    have hpoint : Spells "." [.inline .dot "."] ((print ⟨second, others⟩).toList ++ tail) := by
      rw [htext]
      exact .point hc
    have hfirst : Spells first.text [.inline .word first.text]
        (".".toList ++ ((print ⟨second, others⟩).toList ++ tail)) :=
      .word first.spelled (by decide)
    rw [print_cons]
    exact (hfirst.append hpoint).append (ih second)

end DottedName

namespace Category

theorem spells_separator (category : Category) {tail : List Char} :
    Spells category.separator [category.separatorGlyph] tail := by
  cases category <;> exact .marks _ rfl

theorem stops_separator (category : Category) (tail : List Char) :
    stops (category.separator.toList ++ tail) :=
  stops_append (by cases category <;> rfl) tail

end Category

namespace Phrase

theorem stops_others {category : Category} (others : Phrase (.others category))
    {tail : List Char} (htail : stops tail) : stops (others.print.toList ++ tail) := by
  cases others with
  | done => exact htail
  | more next others =>
    rw [print, String.append_assoc, String.toList_append, List.append_assoc]
    exact category.stops_separator _

theorem spells {part : Part} (t : Phrase part) {tail : List Char} (htail : stops tail) :
    Spells t.print t.glyphs tail := by
  induction t generalizing tail with
  | nullary returned ih => exact ((Spells.marks "()" rfl).append .arrow).append (ih htail)
  | function first others returned ihFirst ihOthers ihReturned =>
    have hparen : stops (")".toList ++ (" => ".toList ++ (returned.print.toList ++ tail))) :=
      stops_append rfl _
    have hothers := stops_others others hparen
    exact (((((Spells.marks "(" rfl).append (ihFirst hothers)).append (ihOthers rfl)).append
      (.marks ")" rfl)).append .arrow).append (ihReturned htail)
  | union first second others ihFirst ihSecond ihOthers =>
    exact (((ihFirst rfl).append (.marks " | " rfl)).append
      (ihSecond (stops_others others htail))).append (ihOthers htail)
  | ofIntersection operand ih => exact ih htail
  | intersection first second others ihFirst ihSecond ihOthers =>
    exact (((ihFirst rfl).append (.marks " & " rfl)).append
      (ihSecond (stops_others others htail))).append (ihOthers htail)
  | ofSuffixed operand ih => exact ih htail
  | array target ih => exact (ih rfl).append (.marks "[]" rfl)
  | indexed target index ihTarget ihIndex =>
    exact (((ihTarget rfl).append (.marks "[" rfl)).append (ihIndex rfl)).append (.marks "]" rfl)
  | keyword word kind h => exact .word_of_stops word.spelled htail
  | truth value => cases value <;> exact .word_of_stops rfl htail
  | string value => exact .string value
  | number negative numeral =>
    cases negative with
    | true => exact (Spells.marks "-" rfl).append (.numeral numeral.spelled htail)
    | false => exact .numeral numeral.spelled htail
  | reference name h => exact name.spells htail
  | applied name h hnew first others ihFirst ihOthers =>
    have hothers : stops (others.print.toList ++ (">".toList ++ tail)) := stops_others others rfl
    exact ((((name.spells rfl).append (.marks "<" rfl)).append (ihFirst hothers)).append
      (ihOthers rfl)).append (.marks ">" rfl)
  | query name =>
    have hword : Spells "typeof" [.inline .word "typeof"]
        (" ".toList ++ (name.print.toList ++ tail)) := .word_of_stops rfl rfl
    have htext : "typeof " = "typeof" ++ " " := by decide
    rw [print, htext]
    exact (hword.append (.marks " " rfl)).append (name.spells htail)
  | parenthesized inside ih =>
    exact ((Spells.marks "(" rfl).append (ih rfl)).append (.marks ")" rfl)
  | emptyTuple => exact .marks "[]" rfl
  | tuple first others ihFirst ihOthers =>
    have hothers : stops (others.print.toList ++ ("]".toList ++ tail)) := stops_others others rfl
    exact (((Spells.marks "[" rfl).append (ihFirst hothers)).append (ihOthers rfl)).append
      (.marks "]" rfl)
  | parameter name type ih =>
    exact ((Spells.word_of_stops name.spelled rfl).append (.marks ": " rfl)).append (ih htail)
  | element type ih => exact ih htail
  | spread type ih => exact Spells.ellipsis.append (ih htail)
  | done => exact .empty
  | more next others ihNext ihOthers =>
    exact ((Category.spells_separator _).append (ihNext (stops_others others htail))).append
      (ihOthers htail)

end Phrase

end DeclSchema
