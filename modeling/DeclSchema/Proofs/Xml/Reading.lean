import DeclSchema.Proofs.Xml.Plain
import DeclSchema.Token.Quoted
import Mathlib.Data.List.Basic

/-!
# Reading documents

A reader for documents of tags alone. It takes a text one character at a time: `step` says
what a character does, and `Reads` what a text does to the tags that are open and to the
parts that are behind it. How the characters between two quotes become a value is left to
a parameter, which differs between a reader that undoes `escape` and a processor that
also normalizes values.

`read?_render` is the result: what is read from a plain document as it is written is the
document, with each value as the parameter gives it.
-/

namespace DeclSchema.Xml

/-- The character that a reference stands for, by what stands between the ampersand and
the semicolon. -/
def referenced? : List Char → Option Char
  | ['a', 'm', 'p'] => some '&'
  | ['l', 't'] => some '<'
  | ['g', 't'] => some '>'
  | ['q', 'u', 'o', 't'] => some '"'
  | ['a', 'p', 'o', 's'] => some '\''
  | '#' :: 'x' :: digits => (Digits.ofText? 16 digits >>= Quoted.charOfCode?).filter isLegal
  | '#' :: digits => (Digits.ofText? 10 digits >>= Quoted.charOfCode?).filter isLegal
  | _ => none

/-- What is read of a value: its characters so far, and what is read of the reference that
the last character belongs to. -/
structure Expansion where
  done : List Char
  reference : Option (List Char)

/-- What one more character of a value means. -/
def Expansion.step (state : Expansion) (c : Char) : Option Expansion :=
  match state.reference with
  | none =>
    if c = '&' then some ⟨state.done, some []⟩
    else if c = '<' then none
    else some ⟨state.done ++ [c], none⟩
  | some letters =>
    if c = ';' then (referenced? letters).map fun d => ⟨state.done ++ [d], none⟩
    else some ⟨state.done, some (letters ++ [c])⟩

/-- A value with the characters that its references stand for. There is none if a reference
stands for nothing, or where markup begins. -/
def expand? (cs : List Char) : Option (List Char) :=
  match cs.foldlM Expansion.step ⟨[], none⟩ with
  | some ⟨done, none⟩ => some done
  | _ => none

theorem expand_escapeChar (done : List Char) (c : Char) :
    (escapeChar true c).foldlM Expansion.step ⟨done, none⟩ = some ⟨done ++ [c], none⟩ := by
  unfold escapeChar
  split
  · rfl
  · rfl
  · rfl
  · rfl
  · next hamp hlt _ _ => simp [Expansion.step, show c ≠ '&' from hamp, show c ≠ '<' from hlt]

/-- Expanding undoes escaping. -/
theorem expand?_escape (cs : List Char) : expand? (cs.flatMap (escapeChar true)) = some cs := by
  have hrun : ∀ done, (cs.flatMap (escapeChar true)).foldlM Expansion.step ⟨done, none⟩ =
      some ⟨done ++ cs, none⟩ := by
    induction cs with
    | nil => simp
    | cons c rest ih =>
      intro done
      rw [List.flatMap_cons, List.foldlM_append, expand_escapeChar]
      simp [ih]
  simp [expand?, hrun]

/-- Whether a character may stand between tags. -/
def isGap (c : Char) : Bool :=
  c == ' ' || c == '\t' || c == '\n' || c == '\r'

/-- A tag that is open, and what stands before it. -/
structure Opened where
  name : String
  attributes : List (String × String)
  before : List Content

/-- Where a character stands. -/
inductive Position where
  /-- Between tags. -/
  | between
  /-- Behind the bracket that begins a tag. -/
  | begun
  /-- In the name of a tag that opens. -/
  | naming (letters : List Char)
  /-- In a tag, behind its name or one of its attributes. -/
  | inside (name : String) (attributes : List (String × String))
  /-- In the key of an attribute. -/
  | keying (name : String) (attributes : List (String × String)) (letters : List Char)
  /-- Behind the key and the equals sign. -/
  | keyed (name : String) (attributes : List (String × String)) (key : String)
  /-- In the value of an attribute. -/
  | valuing (name : String) (attributes : List (String × String)) (key : String)
    (written : List Char)
  /-- Behind the slash at the end of a tag without content. -/
  | ending (name : String) (attributes : List (String × String))
  /-- In the name of a tag that closes. -/
  | closing (letters : List Char)

/-- What is read of a document: the tags that are open, innermost first, what stands in the
innermost one, and where the next character stands. -/
structure Reading where
  opened : List Opened
  parts : List Content
  position : Position

/-- The name of a tag, from its name as it stands in a document. -/
def localName? (letters : List Char) : Option String :=
  (letters.dropPrefix? (qualifiedName "").toList).map String.ofList

namespace Reading

/-- What a character in a tag means, behind its name or one of its attributes. -/
def stepInside (state : Reading) (name : String) (attributes : List (String × String))
    (c : Char) : Option Reading :=
  if isGap c then some { state with position := .inside name attributes }
  else if isNameChar c then some { state with position := .keying name attributes [c] }
  else if c = '/' then some { state with position := .ending name attributes }
  else if c = '>' then some ⟨⟨name, attributes, state.parts⟩ :: state.opened, [], .between⟩
  else none

/-- What the end of a tag that closes means. -/
def close (state : Reading) (letters : List Char) : Option Reading :=
  match state.opened with
  | [] => none
  | tag :: opened =>
    if localName? letters = some tag.name then
      some ⟨opened, tag.before ++ [.tag tag.name tag.attributes state.parts], .between⟩
    else none

variable (decode? : List Char → Option String)

/-- What one more character of a document means. -/
def step (state : Reading) (c : Char) : Option Reading :=
  match state.position with
  | .between =>
    if isGap c then some state
    else if c = '<' then some { state with position := .begun }
    else none
  | .begun =>
    if isNameChar c then some { state with position := .naming [c] }
    else if c = '/' then some { state with position := .closing [] }
    else none
  | .naming letters =>
    if isNameChar c then some { state with position := .naming (letters ++ [c]) }
    else localName? letters >>= fun name => state.stepInside name [] c
  | .inside name attributes => state.stepInside name attributes c
  | .keying name attributes letters =>
    if isNameChar c then some { state with position := .keying name attributes (letters ++ [c]) }
    else if c = '=' then
      some { state with position := .keyed name attributes (String.ofList letters) }
    else none
  | .keyed name attributes key =>
    if c = '"' then some { state with position := .valuing name attributes key [] } else none
  | .valuing name attributes key written =>
    if c = '"' then
      (decode? written).map fun value =>
        { state with position := .inside name (attributes ++ [(key, value)]) }
    else some { state with position := .valuing name attributes key (written ++ [c]) }
  | .ending name attributes =>
    if c = '>' then some ⟨state.opened, state.parts ++ [.tag name attributes []], .between⟩
    else none
  | .closing letters =>
    if isNameChar c then some { state with position := .closing (letters ++ [c]) }
    else if c = '>' then state.close letters
    else none

end Reading

/-- The tag that a text is. There must be nothing but gaps before and behind it. -/
def Tag.read? (decode? : List Char → Option String) (cs : List Char) : Option Tag :=
  match cs.foldlM (Reading.step decode?) ⟨[], [], .between⟩ with
  | some ⟨[], [part], .between⟩ => part.tag?
  | _ => none

/-- From one state a text leads to another. -/
def Reads (decode? : List Char → Option String) (state : Reading) (cs : List Char)
    (state' : Reading) : Prop :=
  cs.foldlM (Reading.step decode?) state = some state'

namespace Reads

variable {decode? : List Char → Option String} {state state' state'' : Reading}
variable {opened : List Opened} {parts : List Content}
variable {name : String} {attributes : List (String × String)}

theorem nil : Reads decode? state [] state := rfl

theorem cons {c : Char} {cs : List Char} (h : state.step decode? c = some state')
    (h' : Reads decode? state' cs state'') : Reads decode? state (c :: cs) state'' := by
  rw [Reads, List.foldlM_cons, h]
  exact h'

theorem append {cs ds : List Char} (h : Reads decode? state cs state')
    (h' : Reads decode? state' ds state'') : Reads decode? state (cs ++ ds) state'' := by
  rw [Reads, List.foldlM_append, h]
  exact h'

theorem single {c : Char} (h : state.step decode? c = some state') :
    Reads decode? state [c] state' :=
  cons h nil

/-- Gaps between tags are skipped. -/
theorem gaps {cs : List Char} (h : ∀ c ∈ cs, isGap c) :
    Reads decode? ⟨opened, parts, .between⟩ cs ⟨opened, parts, .between⟩ := by
  induction cs with
  | nil => exact nil
  | cons c rest ih =>
    obtain ⟨hc, hrest⟩ := List.forall_mem_cons.mp h
    exact cons (if_pos hc) (ih hrest)

/-- A position that collects letters of a name collects all of them. -/
theorem letters (position : List Char → Position)
    (hstep : ∀ {letters c}, isNameChar c →
      Reading.step decode? ⟨opened, parts, position letters⟩ c =
        some ⟨opened, parts, position (letters ++ [c])⟩)
    {cs : List Char} (h : ∀ c ∈ cs, isNameChar c) (before : List Char) :
    Reads decode? ⟨opened, parts, position before⟩ cs
      ⟨opened, parts, position (before ++ cs)⟩ := by
  induction cs generalizing before with
  | nil => simpa using nil
  | cons c rest ih =>
    obtain ⟨hc, hrest⟩ := List.forall_mem_cons.mp h
    have hbehind := ih hrest (before ++ [c])
    rw [List.append_assoc] at hbehind
    exact cons (hstep hc) hbehind

/-- The characters of a value are collected up to the quote behind them. -/
theorem written {key : String} {cs : List Char} (h : '"' ∉ cs) (before : List Char) :
    Reads decode? ⟨opened, parts, .valuing name attributes key before⟩ cs
      ⟨opened, parts, .valuing name attributes key (before ++ cs)⟩ := by
  induction cs generalizing before with
  | nil => simpa using nil
  | cons c rest ih =>
    obtain ⟨hc, hrest⟩ := not_or.mp (mt List.mem_cons.mpr h)
    have hbehind := ih hrest (before ++ [c])
    rw [List.append_assoc] at hbehind
    exact cons (if_neg (Ne.symm hc)) hbehind

end Reads

/-- A state in a tag, behind its name or one of its attributes. In the name itself only a
character that does not belong to it means the same as behind it. -/
def Inside (decode? : List Char → Option String) (opened : List Opened) (parts : List Content)
    (name : String) (attributes : List (String × String)) (state : Reading) : Prop :=
  ∀ c, isNameChar c = false →
    state.step decode? c = Reading.stepInside ⟨opened, parts, .between⟩ name attributes c

section

variable {decode? : List Char → Option String} {f : String → String}
variable {opened : List Opened} {parts : List Content} {state : Reading}
variable {name : String} {attributes : List (String × String)}

theorem inside_inside :
    Inside decode? opened parts name attributes ⟨opened, parts, .inside name attributes⟩ :=
  fun _ _ => rfl

theorem localName?_qualifiedName (name : String) :
    localName? (qualifiedName name).toList = some name := by
  have hletters : (qualifiedName name).toList = (qualifiedName "").toList ++ name.toList := by
    simp [qualifiedName]
  have hdrop : ((qualifiedName name).toList).dropPrefix? (qualifiedName "").toList =
      some name.toList :=
    List.dropPrefix?_eq_some_iff.mpr ⟨_, hletters, beq_self_eq_true _⟩
  rw [localName?, hdrop, Option.map_some, String.ofList_toList]

theorem inside_naming :
    Inside decode? opened parts name []
      ⟨opened, parts, .naming (qualifiedName name).toList⟩ := by
  intro c hc
  simp only [Reading.step, hc, Bool.false_eq_true, if_false, localName?_qualifiedName]
  rfl

theorem isNameChar_qualifiedName (h : IsName name) :
    ∀ c ∈ (qualifiedName name).toList, isNameChar c := by
  simp only [qualifiedName, String.toList_append, List.forall_mem_append]
  exact ⟨by decide, h.2⟩

/-- The start of a tag leads behind its name. -/
theorem reads_naming (h : IsName name) :
    Reads decode? ⟨opened, parts, .between⟩ ("<" ++ qualifiedName name).toList
      ⟨opened, parts, .naming (qualifiedName name).toList⟩ := by
  have hletters := isNameChar_qualifiedName h
  cases hname : (qualifiedName name).toList with
  | nil => simp [qualifiedName, namespaceLetters] at hname
  | cons c rest =>
    obtain ⟨hc, hrest⟩ := List.forall_mem_cons.mp (hname ▸ hletters)
    have hbegin : (⟨opened, parts, .between⟩ : Reading).step decode? '<' =
        some ⟨opened, parts, .begun⟩ := rfl
    rw [String.toList_append, hname]
    refine .cons hbegin (.cons (if_pos hc) (.letters .naming (fun hc => if_pos hc) hrest [c]))

theorem isNameChar_of_isGap {c : Char} (h : isGap c) : isNameChar c = false := by
  simp only [isGap, Bool.or_eq_true, beq_iff_eq] at h
  rcases h with ((rfl | rfl) | rfl) | rfl <;> decide

/-- A character of a name begins a key. -/
theorem stepInside_of_isNameChar {c : Char} (h : isNameChar c) :
    state.stepInside name attributes c =
      some ⟨state.opened, state.parts, .keying name attributes [c]⟩ := by
  have hgap : ¬ isGap c := by
    intro hgap
    simp [isNameChar_of_isGap hgap] at h
  rw [Reading.stepInside, if_neg hgap, if_pos h]

/-- No quote is left in a value as it is written. -/
theorem quote_not_mem_escape (value : String) : '"' ∉ (escape true value).toList := by
  have hchar : ∀ c, '"' ∉ escapeChar true c := by
    refine escapeChar_cases (P := fun _ written => '"' ∉ written) (by decide) fun c hc hquote => ?_
    obtain rfl := List.mem_singleton.mp hquote
    exact hc (by decide)
  rw [escape, String.toList_ofList, List.mem_flatMap]
  rintro ⟨c, -, hc⟩
  exact hchar c hc

/-- An attribute as it is written leads behind it, with the value that it has. -/
theorem reads_attribute (hdecode : ∀ value, decode? (escape true value).toList = some (f value))
    (hinside : Inside decode? opened parts name attributes state) {key : String}
    (hkey : IsName key) (value : String) :
    Reads decode? state (attributeText (key, value)).toList
      ⟨opened, parts, .inside name (attributes ++ [(key, f value)])⟩ := by
  cases hletters : key.toList with
  | nil => exact absurd hletters hkey.1
  | cons c rest =>
    obtain ⟨hc, hrest⟩ := List.forall_mem_cons.mp (hletters ▸ hkey.2)
    have htext : (attributeText (key, value)).toList =
        ' ' :: c :: (rest ++ ('=' :: '"' :: ((escape true value).toList ++ ['"']))) := by
      simp [attributeText, hletters]
    have hgap : state.step decode? ' ' = some ⟨opened, parts, .inside name attributes⟩ :=
      hinside ' ' (by decide)
    have hkeying : Reading.step decode? ⟨opened, parts, .inside name attributes⟩ c =
        some ⟨opened, parts, .keying name attributes [c]⟩ := stepInside_of_isNameChar hc
    have hend : Reading.step decode?
        ⟨opened, parts, .valuing name attributes key (escape true value).toList⟩ '"' =
        some ⟨opened, parts, .inside name (attributes ++ [(key, f value)])⟩ := by
      simp [Reading.step, hdecode]
    rw [htext]
    refine .cons hgap (.cons hkeying (.append
      (.letters (.keying name attributes) (fun hc => if_pos hc) hrest [c]) ?_))
    refine .cons rfl (.cons rfl (.append ?_ (.single hend)))
    simpa [← hletters] using Reads.written (quote_not_mem_escape value) []

/-- Attributes as they are written lead behind them. -/
theorem reads_attributes (hdecode : ∀ value, decode? (escape true value).toList = some (f value))
    {pairs : List (String × String)} (hkeys : ∀ pair ∈ pairs, IsName pair.1)
    (hinside : Inside decode? opened parts name attributes state) :
    ∃ state', Reads decode? state (String.join (pairs.map attributeText)).toList state' ∧
      Inside decode? opened parts name
        (attributes ++ pairs.map fun (key, value) => (key, f value)) state' := by
  induction pairs generalizing attributes state with
  | nil => exact ⟨state, .nil, by simpa using hinside⟩
  | cons pair rest ih =>
    obtain ⟨hkey, hrest⟩ := List.forall_mem_cons.mp hkeys
    have hbehind : Inside decode? opened parts name (attributes ++ [(pair.1, f pair.2)])
        ⟨opened, parts, .inside name (attributes ++ [(pair.1, f pair.2)])⟩ := inside_inside
    obtain ⟨state', hreads, hinside'⟩ := ih hrest hbehind
    refine ⟨state', ?_, by simpa using hinside'⟩
    rw [List.map_cons, String.join_cons, String.toList_append]
    exact (reads_attribute hdecode hinside hkey pair.2).append hreads

/-- The start of a tag leads behind its attributes. -/
theorem reads_opening (hdecode : ∀ value, decode? (escape true value).toList = some (f value))
    (hname : IsName name) (hkeys : ∀ pair ∈ attributes, IsName pair.1) :
    ∃ state, Reads decode? ⟨opened, parts, .between⟩ (openingText name attributes).toList state ∧
      Inside decode? opened parts name (attributes.map fun (key, value) => (key, f value))
        state := by
  obtain ⟨state, hreads, hinside⟩ := reads_attributes hdecode hkeys inside_naming
  refine ⟨state, ?_, by simpa using hinside⟩
  rw [openingText, String.toList_append]
  exact (reads_naming hname).append hreads

/-- The end of a tag leads behind the whole tag. -/
theorem reads_closing (hname : IsName name) {before : List Content} :
    Reads decode? ⟨⟨name, attributes, before⟩ :: opened, parts, .between⟩
      (closingText name).toList
      ⟨opened, before ++ [.tag name attributes parts], .between⟩ := by
  have hend : Reading.step decode?
      ⟨⟨name, attributes, before⟩ :: opened, parts, .closing (qualifiedName name).toList⟩ '>' =
      some ⟨opened, before ++ [.tag name attributes parts], .between⟩ := by
    simp [Reading.step, Reading.close, localName?_qualifiedName, show isNameChar '>' = false from rfl]
  have htext : (closingText name).toList = '<' :: '/' :: ((qualifiedName name).toList ++ ['>']) := by
    simp [closingText]
  rw [htext]
  refine .cons rfl (.cons rfl (.append ?_ (.single hend)))
  exact .letters .closing (fun hc => if_pos hc) (isNameChar_qualifiedName hname) []

end

section

variable {decode? : List Char → Option String} {f : String → String} {unit : String}

/-- Blanks and tabs are gaps. -/
theorem isGap_of_blank (hunit : ∀ c ∈ unit.toList, c = ' ' ∨ c = '\t') :
    ∀ c ∈ unit.toList, isGap c := by
  intro c hc
  rcases hunit c hc with rfl | rfl <;> decide

theorem isGap_indentation (hunit : ∀ c ∈ unit.toList, isGap c) (depth : Nat) :
    ∀ c ∈ (indentation unit depth).toList, isGap c := by
  rw [indentation, String.toList_join, List.forall_mem_flatMap]
  intro copy hcopy
  rw [List.eq_of_mem_replicate hcopy]
  exact hunit

/-- A line leads where its text does. -/
theorem reads_line (hunit : ∀ c ∈ unit.toList, isGap c) (level : Nat) {opened : List Opened}
    {parts : List Content} {line : Line} {state : Reading}
    (h : Reads decode? ⟨opened, parts, .between⟩ line.text.toList state) :
    Reads decode? ⟨opened, parts, .between⟩ (laidOut level unit [line]) state := by
  rw [laidOut, List.flatMap_singleton]
  exact .cons rfl (.append (.gaps (isGap_indentation hunit _)) h)

/-- Lines of one tag behind another lead behind all of them. -/
theorem reads_siblings (level : Nat) {opened : List Opened} {lines : Tag → List Line}
    {tags : List Tag}
    (h : ∀ tag ∈ tags, ∀ parts, Reads decode? ⟨opened, parts, .between⟩
      (laidOut level unit (lines tag))
      ⟨opened, parts ++ [Content.ofTag (tag.mapValues f)], .between⟩)
    (parts : List Content) :
    Reads decode? ⟨opened, parts, .between⟩ (laidOut level unit (tags.flatMap lines))
      ⟨opened, parts ++ (tags.map (Tag.mapValues f)).map Content.ofTag, .between⟩ := by
  induction tags generalizing parts with
  | nil => simpa [laidOut] using Reads.nil
  | cons tag rest ih =>
    obtain ⟨htag, hrest⟩ := List.forall_mem_cons.mp h
    rw [List.flatMap_cons, laidOut_append]
    refine (htag parts).append ?_
    simpa using ih hrest (parts ++ [Content.ofTag (tag.mapValues f)])

/-- The lines of a plain tag lead behind it. -/
theorem reads_lines (hdecode : ∀ value, decode? (escape true value).toList = some (f value))
    (hunit : ∀ c ∈ unit.toList, isGap c) (level : Nat) {tag : Tag} (h : Plain tag) (depth : Nat)
    (opened : List Opened) (parts : List Content) :
    Reads decode? ⟨opened, parts, .between⟩
      (laidOut level unit ((Content.ofTag tag).lines depth))
      ⟨opened, parts ++ [Content.ofTag (tag.mapValues f)], .between⟩ := by
  induction h generalizing depth opened parts with
  | @intro tag name keys textless children ih =>
    have hplain : Plain tag := .intro name keys textless children
    obtain ⟨state, hopening, hinside⟩ := reads_opening hdecode name keys
    have hmapped : Content.ofTag (tag.mapValues f) =
        .tag tag.name (tag.attributes.map fun (key, value) => (key, f value))
          ((tag.children.map (Tag.mapValues f)).map Content.ofTag) := by
      rw [← Tag.children_mapValues, ← (hplain.mapValues f).content_eq]
      rfl
    rw [lines_plain hplain, hmapped]
    split_ifs with hnil
    · refine reads_line hunit level ?_
      rw [String.toList_append, hnil]
      refine hopening.append (.cons (hinside '/' (by decide)) (.single ?_))
      rfl
    · rw [List.cons_append, ← List.singleton_append, laidOut_append, laidOut_append]
      refine .append (reads_line hunit level ?_) (.append
        (reads_siblings level (fun child hchild parts => ih child hchild _ _ parts) [])
        (reads_line hunit level (reads_closing name)))
      rw [String.toList_append]
      exact hopening.append (.single (hinside '>' (by decide)))

/-- A document as it is written is read as the document, with each value as it is decoded. -/
theorem read?_render (hdecode : ∀ value, decode? (escape true value).toList = some (f value))
    (hunit : ∀ c ∈ unit.toList, isGap c) (level : Nat) {tag : Tag} (h : Plain tag) :
    Tag.read? decode? (tag.render level unit).toList = some (tag.mapValues f) := by
  have hlines : Reads decode? ⟨[], [], .between⟩ (laidOut level unit tag.lines)
      ⟨[], [Content.ofTag (tag.mapValues f)], .between⟩ :=
    reads_lines hdecode hunit level h 0 [] []
  -- The line end that `laidOut` has before the first line is skipped.
  rw [laidOut_lines, Reads, List.foldlM_cons] at hlines
  rw [Tag.read?, show List.foldlM _ _ _ = _ from hlines]
  rfl

end

end DeclSchema.Xml
