import DeclSchema.Proofs.Json.Number

/-!
# Written values are read back

The text on one line and the text over indented lines differ in white space only
(`spaced_tight`, `spaced_indented`). A reader passes over it, so one induction on its fuel
serves both: what is read is the value that was written, its numbers in the units in which
their texts have them (`ofText?_compact`, `ofText?_pretty`).
-/

namespace DeclSchema.Json

theorem ofText?_controlDigits :
    ∀ code < 0x20, Digits.ofText? 16 ('0' :: '0' :: controlDigits code) = some code := by
  decide

theorem unitOfCode_toNat (c : Char) : unitOfCode c.toNat = .char c :=
  dif_pos c.valid

/-- What reading a string gives when a character stands before it. -/
def unitBefore (c : Char) : List StringUnit × List Char → List StringUnit × List Char
  | (units, rest) => (.char c :: units, rest)

theorem readUnits?_simpleEscape {letter c : Char} (h : simpleEscape? letter = some c)
    (hletter : letter ≠ 'u') (cs : List Char) :
    readUnits? ('\\' :: letter :: cs) = (readUnits? cs).map (unitBefore c) := by
  rw [readUnits?, h]
  · cases readUnits? cs <;> rfl
  · exact fun _ _ _ _ _ heq => absurd heq hletter

theorem readUnits?_controlDigits {c : Char} (h : c.toNat < 0x20) (cs : List Char) :
    readUnits? ('\\' :: 'u' :: '0' :: '0' :: controlDigits c.toNat ++ cs) =
      (readUnits? cs).map (unitBefore c) := by
  have hcode := ofText?_controlDigits c.toNat h
  rw [controlDigits] at hcode ⊢
  simp only [List.cons_append, List.nil_append]
  rw [readUnits?, hcode]
  cases readUnits? cs with
  | none => rfl
  | some read => exact congrArg (fun unit => some (unit :: read.1, read.2)) (unitOfCode_toNat c)

theorem readUnits?_plain {c : Char} (hquote : c ≠ '"') (hslash : c ≠ '\\')
    (hcontrol : ¬ c.toNat < 0x20) (cs : List Char) :
    readUnits? (c :: cs) = (readUnits? cs).map (unitBefore c) := by
  have hplain : ¬ (c = '\\' || decide (c.toNat < 0x20)) = true := by simp [hslash, hcontrol]
  rw [readUnits?, if_neg hplain]
  · rfl
  · exact hquote
  · exact fun _ _ _ _ _ heq => absurd heq hslash
  · exact fun _ _ heq => absurd heq hslash

/-- An escaped character is read as the character. -/
theorem readUnits?_escape (c : Char) (cs : List Char) :
    readUnits? (escape c ++ cs) = (readUnits? cs).map (unitBefore c) := by
  unfold escape
  split
  case h_8 hquote hslash _ _ _ _ _ =>
    split
    · next hcontrol => exact readUnits?_controlDigits hcontrol cs
    · next hcontrol => exact readUnits?_plain hquote hslash hcontrol cs
  all_goals exact readUnits?_simpleEscape rfl (by decide) cs

theorem readUnits?_flatMap_escape (cs rest : List Char) :
    readUnits? (cs.flatMap escape ++ '"' :: rest) = some (cs.map .char, rest) := by
  induction cs with
  | nil => rfl
  | cons c cs ih =>
    rw [List.flatMap_cons, List.append_assoc, readUnits?_escape, ih]
    rfl

theorem textOfUnits?_map_char (cs : List Char) : textOfUnits? (cs.map .char) = some cs := by
  induction cs with
  | nil => rfl
  | cons c cs ih =>
    rw [List.map_cons, textOfUnits?, ih]
    rfl

theorem toList_quote (text : String) :
    (quote text).toList = '"' :: (text.toList.flatMap escape ++ ['"']) := by
  rw [quote, String.toList_ofList, List.cons_append]

/-- A text in quotes is read as the text. -/
theorem readString?_quote (text : String) (rest : List Char) :
    readString? (text.toList.flatMap escape ++ '"' :: rest) = some (some text, rest) := by
  rw [readString?, readUnits?_flatMap_escape, Option.map_some]
  dsimp only
  rw [textOfUnits?_map_char, Option.map_some, String.ofList_toList]

/-- The white space of a text. -/
structure Spacing where
  /-- Before an item, a field or a closing bracket, by how deep it is. -/
  line : Nat → List Char
  /-- Before the value of a field. -/
  gap : List Char
  isSpace_line : ∀ depth, ∀ c ∈ line depth, isSpace c
  isSpace_gap : ∀ c ∈ gap, isSpace c

namespace Spacing

/-- No white space. -/
def tight : Spacing where
  line _ := []
  gap := []
  isSpace_line := by simp
  isSpace_gap := by simp

/-- A line of its own for each item and field. -/
def indented : Spacing where
  line depth := (newLine depth).toList
  gap := [' ']
  isSpace_line depth c hc := by
    rw [newLine, String.toList_ofList, List.mem_cons, List.mem_replicate] at hc
    rcases hc with rfl | ⟨-, rfl⟩ <;> rfl
  isSpace_gap := by simp [isSpace]

end Spacing

/-- A value with the white space of a text, as `compact` without any. -/
def spaced (s : Spacing) (depth : Nat) : Json → List Char
  | .array (item :: items) =>
    '[' :: (s.line (depth + 1) ++ (spaced s (depth + 1) item ++
      (moreItems (depth + 1) items ++ (s.line depth ++ [']']))))
  | .object ((name, value) :: fields) =>
    '{' :: (s.line (depth + 1) ++ ((stringText name).toList ++ (':' :: (s.gap ++
      (spaced s (depth + 1) value ++
        (moreFields (depth + 1) fields ++ (s.line depth ++ ['}'])))))))
  | value => value.compact.toList
where
  /-- The items behind the first one. -/
  moreItems (depth : Nat) : List Json → List Char
    | [] => []
    | item :: items => ',' :: (s.line depth ++ (spaced s depth item ++ moreItems depth items))
  /-- The fields behind the first one. -/
  moreFields (depth : Nat) : List (Option String × Json) → List Char
    | [] => []
    | (name, value) :: fields =>
      ',' :: (s.line depth ++ ((stringText name).toList ++ (':' :: (s.gap ++
        (spaced s depth value ++ moreFields depth fields)))))

/-- A comma before each text but the first. -/
theorem toList_intercalate_cons (text : String) (texts : List String) :
    (",".intercalate (text :: texts)).toList =
      text.toList ++ texts.flatMap fun text => ',' :: text.toList := by
  induction texts generalizing text with
  | nil => simp
  | cons next texts ih =>
    rw [String.intercalate_cons_cons, String.toList_append, String.toList_append, ih]
    simp

mutual

theorem spaced_tight (depth : Nat) : ∀ json : Json, spaced .tight depth json = json.compact.toList
  | .array (item :: items) => by
    rw [spaced, compact, compact.compactItems, String.toList_append, String.toList_append,
      toList_intercalate_cons, spaced_tight, moreItems_tight]
    simp [Spacing.tight]
  | .object ((name, value) :: fields) => by
    rw [spaced, compact, compact.compactFields, String.toList_append, String.toList_append,
      toList_intercalate_cons, spaced_tight, moreFields_tight]
    simp [Spacing.tight]
  | .null | .bool _ | .number _ | .string _ | .array [] | .object [] => rfl

theorem moreItems_tight (depth : Nat) : ∀ items : List Json,
    spaced.moreItems .tight depth items =
      (compact.compactItems items).flatMap fun text => ',' :: text.toList
  | [] => rfl
  | item :: items => by
    rw [spaced.moreItems, compact.compactItems, spaced_tight, moreItems_tight]
    simp [Spacing.tight]

theorem moreFields_tight (depth : Nat) : ∀ fields : List (Option String × Json),
    spaced.moreFields .tight depth fields =
      (compact.compactFields fields).flatMap fun text => ',' :: text.toList
  | [] => rfl
  | (name, value) :: fields => by
    rw [spaced.moreFields, compact.compactFields, spaced_tight, moreFields_tight]
    simp [Spacing.tight]

end

mutual

theorem spaced_indented (depth : Nat) :
    ∀ json : Json, spaced .indented depth json = (json.pretty depth).toList
  | .array (item :: items) => by
    rw [spaced, pretty, pretty.prettyItems, String.toList_append, String.toList_append,
      String.toList_append, toList_intercalate_cons, spaced_indented, moreItems_indented]
    · simp [Spacing.indented]
    · exact fun h => nomatch h
  | .object ((name, value) :: fields) => by
    rw [spaced, pretty, pretty.prettyFields, String.toList_append, String.toList_append,
      String.toList_append, toList_intercalate_cons, spaced_indented, moreFields_indented]
    · simp [Spacing.indented]
    · exact fun h => nomatch h
  | .null | .bool _ | .number _ | .string _ | .array [] | .object [] => rfl

theorem moreItems_indented (depth : Nat) : ∀ items : List Json,
    spaced.moreItems .indented depth items =
      (pretty.prettyItems depth items).flatMap fun text => ',' :: text.toList
  | [] => rfl
  | item :: items => by
    rw [spaced.moreItems, pretty.prettyItems, spaced_indented, moreItems_indented]
    simp [Spacing.indented]

theorem moreFields_indented (depth : Nat) : ∀ fields : List (Option String × Json),
    spaced.moreFields .indented depth fields =
      (pretty.prettyFields depth fields).flatMap fun text => ',' :: text.toList
  | [] => rfl
  | (name, value) :: fields => by
    rw [spaced.moreFields, pretty.prettyFields, spaced_indented, moreFields_indented]
    simp [Spacing.indented]

end

/-- The value that the text of a value is read as: its numbers may have other units. -/
def asRead : Json → Json
  | .number value => .number value.asRead
  | .array items => .array (readItems items)
  | .object fields => .object (readFields fields)
  | value => value
where
  /-- The items of an array. -/
  readItems : List Json → List Json
    | [] => []
    | item :: items => asRead item :: readItems items
  /-- The fields of an object. -/
  readFields : List (Option String × Json) → List (Option String × Json)
    | [] => []
    | (name, value) :: fields => (name, asRead value) :: readFields fields

/-- The values whose texts are read back: all strings have a text, and a zero is a single
digit. -/
inductive Writable : Json → Prop
  | null : Writable .null
  | bool (value : Bool) : Writable (.bool value)
  | number {value : Numeral} (h : value.digits = 0 → value.exponent = 0) : Writable (.number value)
  | string (text : String) : Writable (.string (some text))
  | array {items : List Json} (h : ∀ item ∈ items, Writable item) : Writable (.array items)
  | object {fields : List (Option String × Json)} (hnames : ∀ field ∈ fields, field.1.isSome)
    (h : ∀ field ∈ fields, Writable field.2) : Writable (.object fields)

theorem skipSpace_append {blank cs : List Char} (hblank : ∀ c ∈ blank, isSpace c)
    (hcs : ∀ c ∈ cs.head?, isSpace c = false) : skipSpace (blank ++ cs) = cs := by
  rw [skipSpace, List.dropWhile_append_of_pos hblank]
  cases cs with
  | nil => rfl
  | cons c cs => exact List.dropWhile_cons_of_neg (by simp [hcs c rfl])

theorem ended_nil : Ended [] :=
  fun _ hc => nomatch hc

theorem ended_append {blank cs : List Char} (hblank : ∀ c ∈ blank, isSpace c) (h : Ended cs) :
    Ended (blank ++ cs) := by
  cases blank with
  | nil => exact h
  | cons c blank =>
    intro d hd
    cases hd
    exact .inl (hblank c List.mem_cons_self)

theorem ended_cons {c : Char} {cs : List Char} (h : c = ',' ∨ c = ']' ∨ c = '}') :
    Ended (c :: cs) := by
  intro d hd
  cases hd
  exact .inr h

/-- A number starts with a minus sign or a digit. -/
theorem exists_head_toText {n : Numeral} (hzero : n.digits = 0 → n.exponent = 0) :
    ∃ c cs, (n.toText layout).toList = c :: cs ∧ (c = '-' ∨ c.isDigit) := by
  obtain ⟨d, htext, -⟩ := Numeral.exists_decimal hzero
  obtain ⟨c, cs, hcs, hdigit⟩ := d.exists_head_text
  rw [Numeral.toText, String.toList_ofList, ← htext]
  split
  · exact ⟨_, _, rfl, .inl rfl⟩
  · exact ⟨c, cs, hcs, .inr hdigit⟩

theorem isSpace_of_number {c : Char} (h : c = '-' ∨ c.isDigit) : isSpace c = false := by
  rw [isSpace, Bool.eq_false_iff]
  intro hspace
  simp only [Bool.or_eq_true, beq_iff_eq] at hspace
  rcases hspace with ((rfl | rfl) | rfl) | rfl <;> exact absurd h (by decide)

theorem readValue?_number {c : Char} (h : c = '-' ∨ c.isDigit) {blank : List Char}
    (hblank : ∀ c ∈ blank, isSpace c) (fuel : Nat) (cs : List Char) :
    readValue? (fuel + 1) (blank ++ c :: cs) = readNumber? (c :: cs) := by
  rw [readValue?, skipSpace_append hblank (by rintro d ⟨⟩; exact isSpace_of_number h)]
  dsimp only
  split <;> first | rfl | exact absurd h (by decide)

theorem readValue?_bracket {blank : List Char} (hblank : ∀ c ∈ blank, isSpace c) (fuel : Nat)
    (cs : List Char) :
    readValue? (fuel + 1) (blank ++ '[' :: cs) =
      match skipSpace cs with
      | ']' :: rest => some (array [], rest)
      | rest => (readItems? fuel rest).map fun (items, rest) => (array items, rest) := by
  rw [readValue?, skipSpace_append hblank (by rintro d ⟨⟩; rfl)]
  rfl

theorem readValue?_brace {blank : List Char} (hblank : ∀ c ∈ blank, isSpace c) (fuel : Nat)
    (cs : List Char) :
    readValue? (fuel + 1) (blank ++ '{' :: cs) =
      match skipSpace cs with
      | '}' :: rest => some (object [], rest)
      | rest => (readFields? fuel rest).map fun (fields, rest) => (object fields, rest) := by
  rw [readValue?, skipSpace_append hblank (by rintro d ⟨⟩; rfl)]
  rfl

theorem readValue?_array {blank line : List Char} (hblank : ∀ c ∈ blank, isSpace c)
    (hline : ∀ c ∈ line, isSpace c) {c : Char} (hspace : isSpace c = false) (hbracket : c ≠ ']')
    (fuel : Nat) (cs : List Char) :
    readValue? (fuel + 1) (blank ++ '[' :: (line ++ c :: cs)) =
      (readItems? fuel (c :: cs)).map fun (items, rest) => (.array items, rest) := by
  rw [readValue?_bracket hblank, skipSpace_append hline (by rintro d ⟨⟩; exact hspace)]
  split
  · next heq => exact absurd (List.head_eq_of_cons_eq heq) hbracket
  · rfl

theorem readValue?_object {blank line : List Char} (hblank : ∀ c ∈ blank, isSpace c)
    (hline : ∀ c ∈ line, isSpace c) (fuel : Nat) (cs : List Char) :
    readValue? (fuel + 1) (blank ++ '{' :: (line ++ '"' :: cs)) =
      (readFields? fuel ('"' :: cs)).map fun (fields, rest) => (.object fields, rest) := by
  rw [readValue?_brace hblank, skipSpace_append hline (by rintro d ⟨⟩; rfl)]
  rfl

/-- What stands in front of a value is told from white space and closing brackets. -/
theorem exists_head_spaced (s : Spacing) (depth : Nat) {json : Json} (h : Writable json) :
    ∃ c cs, spaced s depth json = c :: cs ∧ isSpace c = false ∧ c ≠ ']' := by
  cases h with
  | null => exact ⟨_, _, rfl, rfl, by decide⟩
  | bool value => cases value <;> exact ⟨_, _, rfl, rfl, by decide⟩
  | @number value hzero =>
    obtain ⟨c, cs, hcs, hc⟩ := exists_head_toText hzero
    refine ⟨c, cs, hcs, isSpace_of_number hc, ?_⟩
    rintro rfl
    exact absurd hc (by decide)
  | string text => exact ⟨_, _, toList_quote text, rfl, by decide⟩
  | @array items h =>
    cases items <;> exact ⟨_, _, rfl, rfl, by decide⟩
  | @object fields _ h =>
    cases fields <;> exact ⟨_, _, rfl, rfl, by decide⟩

/-- What a reader of a given fuel reads. The blank is what white space may stand in front,
the close what stands before the closing bracket. -/
structure ReadsBack (s : Spacing) (fuel : Nat) : Prop where
  value : ∀ {json : Json} (depth : Nat) {blank rest : List Char}, Writable json →
    (∀ c ∈ blank, isSpace c) → Ended rest → 2 * (spaced s depth json).length ≤ fuel →
    readValue? fuel (blank ++ (spaced s depth json ++ rest)) = some (json.asRead, rest)
  items : ∀ {item : Json} {items : List Json} (depth : Nat) (rest : List Char)
    {blank close : List Char}, Writable (.array (item :: items)) → (∀ c ∈ blank, isSpace c) → (∀ c ∈ close, isSpace c) →
    2 * (spaced s depth item ++ spaced.moreItems s depth items).length + 1 ≤ fuel →
    readItems? fuel (blank ++ (spaced s depth item ++ (spaced.moreItems s depth items ++
      (close ++ ']' :: rest)))) = some (asRead.readItems (item :: items), rest)
  fields : ∀ {name : String} {value : Json} {fields : List (Option String × Json)} (depth : Nat)
    (rest : List Char) {blank close : List Char},
    Writable (.object ((some name, value) :: fields)) → (∀ c ∈ blank, isSpace c) →
    (∀ c ∈ close, isSpace c) →
    2 * (spaced s depth value ++ spaced.moreFields s depth fields).length + 1 ≤ fuel →
    readFields? fuel (blank ++ ((stringText (some name)).toList ++ (':' :: (s.gap ++
      (spaced s depth value ++ (spaced.moreFields s depth fields ++
        (close ++ '}' :: rest))))))) =
      some (asRead.readFields ((some name, value) :: fields), rest)

theorem readsBack_value {s : Spacing} {fuel : Nat} (ih : ReadsBack s fuel)
    {json : Json} {depth : Nat} {blank rest : List Char} (hjson : Writable json)
    (hblank : ∀ c ∈ blank, isSpace c) (hrest : Ended rest)
    (hfuel : 2 * (spaced s depth json).length ≤ fuel + 1) :
    readValue? (fuel + 1) (blank ++ (spaced s depth json ++ rest)) = some (json.asRead, rest) := by
  cases hjson with
  | null =>
    rw [readValue?, skipSpace_append hblank (by rintro c ⟨⟩; rfl)]
    rfl
  | bool value =>
    cases value <;>
    · rw [readValue?, skipSpace_append hblank (by rintro c ⟨⟩; rfl)]
      rfl
  | @number value hzero =>
    obtain ⟨c, cs, hcs, hc⟩ := exists_head_toText hzero
    have hread := readNumber?_toText hzero hrest
    rw [hcs] at hread
    have hspaced : spaced s depth (.number value) = c :: cs := hcs
    rw [hspaced]
    exact (readValue?_number hc hblank fuel (cs ++ rest)).trans hread
  | string text =>
    have htext : spaced s depth (.string (some text)) ++ rest =
        '"' :: (text.toList.flatMap escape ++ '"' :: rest) := by
      simp [spaced, compact, stringText, toList_quote]
    rw [htext, readValue?, skipSpace_append hblank (by rintro c ⟨⟩; rfl)]
    dsimp only
    rw [readString?_quote]
    rfl
  | @array items h =>
    cases items with
    | nil =>
      rw [readValue?, skipSpace_append hblank (by rintro c ⟨⟩; rfl)]
      rfl
    | cons item items =>
      have hclose := s.isSpace_line depth
      rw [spaced, List.length_cons, List.length_append, List.length_append, List.length_append]
        at hfuel
      have hitems := ih.items (depth + 1) rest (.array h) (List.forall_mem_nil _)
        hclose (by rw [List.length_append]; omega)
      obtain ⟨c, cs, hcs, hspace, hbracket⟩ := exists_head_spaced s (depth + 1) (h item (by simp))
      rw [List.nil_append] at hitems
      rw [hcs, List.cons_append] at hitems
      rw [spaced, hcs]
      simp only [List.cons_append, List.append_assoc, List.nil_append]
      rw [readValue?_array hblank (s.isSpace_line _) hspace hbracket, hitems]
      rfl
  | @object fields hnames h =>
    cases fields with
    | nil =>
      rw [readValue?, skipSpace_append hblank (by rintro c ⟨⟩; rfl)]
      rfl
    | cons field fields =>
      obtain ⟨name, value⟩ := field
      obtain ⟨name, rfl⟩ := Option.isSome_iff_exists.mp (hnames _ List.mem_cons_self)
      have hclose := s.isSpace_line depth
      rw [spaced] at hfuel
      simp only [List.length_cons, List.length_append] at hfuel
      have hfields := ih.fields (depth + 1) rest (.object hnames h) (List.forall_mem_nil _)
        hclose (by rw [List.length_append]; omega)
      rw [List.nil_append] at hfields
      rw [stringText, Option.getD_some, toList_quote] at hfields
      rw [spaced, stringText, Option.getD_some, toList_quote]
      simp only [List.cons_append, List.append_assoc, List.nil_append] at hfields ⊢
      rw [readValue?_object hblank (s.isSpace_line _), hfields]
      rfl

theorem readsBack_items {s : Spacing} {fuel : Nat} (ih : ReadsBack s fuel)
    {item : Json} {items : List Json} {depth : Nat} {blank close rest : List Char}
    (h : Writable (.array (item :: items))) (hblank : ∀ c ∈ blank, isSpace c)
    (hclose : ∀ c ∈ close, isSpace c)
    (hfuel : 2 * (spaced s depth item ++ spaced.moreItems s depth items).length + 1 ≤ fuel + 1) :
    readItems? (fuel + 1) (blank ++ (spaced s depth item ++ (spaced.moreItems s depth items ++
      (close ++ ']' :: rest)))) = some (asRead.readItems (item :: items), rest) := by
  cases h with
  | array h =>
    rw [List.length_append] at hfuel
    cases items with
    | nil =>
      have hended : Ended (close ++ ']' :: rest) :=
        ended_append hclose (ended_cons (.inr (.inl rfl)))
      have hvalue := ih.value depth (h item List.mem_cons_self) hblank hended (by omega)
      rw [readItems?, spaced.moreItems, List.nil_append, hvalue]
      dsimp only
      rw [skipSpace_append hclose (by rintro c ⟨⟩; rfl)]
      rfl
    | cons next items =>
      rw [spaced.moreItems, List.length_cons, List.length_append, List.length_append] at hfuel
      have hitems := ih.items depth rest
        (.array fun json hjson => h json (List.mem_cons_of_mem _ hjson)) (s.isSpace_line depth)
        hclose (by rw [List.length_append]; omega)
      have hended : Ended (',' :: (s.line depth ++ (spaced s depth next ++
          (spaced.moreItems s depth items ++ (close ++ ']' :: rest))))) := ended_cons (.inl rfl)
      have hvalue := ih.value depth (h item List.mem_cons_self) hblank hended (by omega)
      rw [readItems?, spaced.moreItems]
      simp only [List.cons_append, List.append_assoc]
      rw [hvalue]
      dsimp only
      rw [skipSpace, List.dropWhile_cons_of_neg (by decide)]
      exact congrArg (Option.map fun read => (item.asRead :: read.1, read.2)) hitems

/-- A field is read by its name and its value. -/
theorem readFields?_field {blank : List Char} (hblank : ∀ c ∈ blank, isSpace c) (fuel : Nat)
    (name : String) (cs : List Char) :
    readFields? (fuel + 1) (blank ++ ((stringText (some name)).toList ++ (':' :: cs))) =
      match readValue? fuel cs with
      | none => none
      | some (value, rest) =>
        match skipSpace rest with
        | ',' :: rest =>
          (readFields? fuel rest).map fun (fields, rest) => ((some name, value) :: fields, rest)
        | '}' :: rest => some ([(some name, value)], rest)
        | _ => none := by
  have hname := readString?_quote name (':' :: cs)
  have hcolon : skipSpace (':' :: cs) = ':' :: cs := List.dropWhile_cons_of_neg (by decide)
  rw [readFields?, stringText, Option.getD_some, toList_quote, List.cons_append,
    skipSpace_append hblank (by rintro c ⟨⟩; rfl), List.append_assoc, List.singleton_append]
  split
  · next behind heq =>
    cases heq
    rw [hname]
    dsimp only
    rw [hcolon]
    rfl
  · next hquote => exact absurd rfl (hquote _)

theorem readsBack_fields {s : Spacing} {fuel : Nat} (ih : ReadsBack s fuel)
    {name : String} {value : Json} {fields : List (Option String × Json)} {depth : Nat}
    {blank close rest : List Char}
    (h : Writable (.object ((some name, value) :: fields))) (hblank : ∀ c ∈ blank, isSpace c)
    (hclose : ∀ c ∈ close, isSpace c)
    (hfuel : 2 * (spaced s depth value ++ spaced.moreFields s depth fields).length + 1 ≤ fuel + 1) :
    readFields? (fuel + 1) (blank ++ ((stringText (some name)).toList ++ (':' :: (s.gap ++
      (spaced s depth value ++ (spaced.moreFields s depth fields ++
        (close ++ '}' :: rest))))))) =
      some (asRead.readFields ((some name, value) :: fields), rest) := by
  cases h with
  | object hnames h =>
    rw [List.length_append] at hfuel
    rw [readFields?_field hblank]
    cases fields with
    | nil =>
      have hended : Ended (close ++ '}' :: rest) :=
        ended_append hclose (ended_cons (.inr (.inr rfl)))
      have hvalue := ih.value depth (h (some name, value) List.mem_cons_self) s.isSpace_gap hended
        (by dsimp only; omega)
      rw [spaced.moreFields, List.nil_append, hvalue]
      dsimp only
      rw [skipSpace_append hclose (by rintro c ⟨⟩; rfl)]
      rfl
    | cons next fields =>
      obtain ⟨next, nextValue⟩ := next
      obtain ⟨next, rfl⟩ := Option.isSome_iff_exists.mp
        (hnames _ (List.mem_cons_of_mem _ List.mem_cons_self))
      rw [spaced.moreFields] at hfuel
      simp only [List.length_cons, List.length_append] at hfuel
      have hfields := ih.fields depth rest
        (.object (fun field hfield => hnames field (List.mem_cons_of_mem _ hfield))
          fun field hfield => h field (List.mem_cons_of_mem _ hfield)) (s.isSpace_line depth)
        hclose (by rw [List.length_append]; omega)
      have hended : Ended (',' :: (s.line depth ++ ((stringText (some next)).toList ++ (':' ::
          (s.gap ++ (spaced s depth nextValue ++ (spaced.moreFields s depth fields ++
            (close ++ '}' :: rest)))))))) := ended_cons (.inl rfl)
      have hvalue := ih.value depth (h (some name, value) List.mem_cons_self) s.isSpace_gap hended
        (by dsimp only; omega)
      rw [spaced.moreFields]
      simp only [List.cons_append, List.append_assoc]
      rw [hvalue]
      dsimp only
      rw [skipSpace, List.dropWhile_cons_of_neg (by decide)]
      exact congrArg (Option.map fun read => ((some name, value.asRead) :: read.1, read.2)) hfields

theorem readsBack (s : Spacing) (fuel : Nat) : ReadsBack s fuel := by
  induction fuel with
  | zero =>
    refine ⟨fun {json} depth _ _ hjson _ _ hfuel => ?_, fun _ _ _ _ _ hfuel => ?_,
      fun _ _ _ _ _ hfuel => ?_⟩
    · -- No text of a value is empty.
      obtain ⟨c, cs, hcs, -⟩ := exists_head_spaced s depth hjson
      rw [hcs, List.length_cons] at hfuel
      omega
    · omega
    · omega
  | succ fuel ih => exact ⟨fun _ => readsBack_value ih, fun _ _ => readsBack_items ih,
    fun _ _ => readsBack_fields ih⟩

/-- A text with the white space of some layout is read back. -/
theorem ofText?_spaced (s : Spacing) (depth : Nat) {json : Json} (h : Writable json) :
    ofText? (String.ofList (spaced s depth json)) = some json.asRead := by
  have hread := (readsBack s (2 * (spaced s depth json).length + 2)).value depth h
    (List.forall_mem_nil _) ended_nil (by omega)
  rw [List.nil_append, List.append_nil] at hread
  rw [ofText?, String.toList_ofList, hread]
  rfl

theorem ofText?_compact {json : Json} (h : Writable json) :
    ofText? json.compact = some json.asRead := by
  rw [← ofText?_spaced .tight 0 h, spaced_tight, String.ofList_toList]

theorem ofText?_pretty {json : Json} (h : Writable json) :
    ofText? (json.pretty 0) = some json.asRead := by
  rw [← ofText?_spaced .indented 0 h, spaced_indented, String.ofList_toList]

end DeclSchema.Json
