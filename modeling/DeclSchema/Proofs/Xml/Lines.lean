import DeclSchema.Proofs.Xml.Plain

/-!
# Layout and content

A document can be written part by part, where each tag indents its own opening and closing and
begins a new line for each part in it. `Content.write` does so, with four forms of tags: those
without content, those with nothing but text, and those with tags alone or with tags and text.
It says the same as the lines of a document, joined and indented. The lines are all there is to
the content: level and unit of the indentation change what stands in front of each line, and
nothing else, and where no line ends within a name, a value or a text no other lines say the
same.
-/

namespace DeclSchema.Xml

namespace Content

/-- A part of a document, written at a level of indentation. -/
def write (unit : String) (level : Nat) : Content → String
  | .text value => indentation unit level ++ escape false value
  | .tag name attributes content =>
    let opening := indentation unit level ++ openingText name attributes
    if content.isEmpty then
      opening ++ "/>"
    else if content.all isText then
      opening ++ ">" ++ inlineText content ++ closingText name
    else
      opening ++ ">" ++ writeAll unit (level + 1) content ++ "\n" ++ indentation unit level ++
        closingText name
where
  /-- Several parts, each on lines of its own. -/
  writeAll (unit : String) (level : Nat) : List Content → String
    | [] => ""
    | part :: rest => "\n" ++ write unit level part ++ writeAll unit level rest

theorem toList_writeAll (unit : String) (level : Nat) (parts : List Content) :
    (write.writeAll unit level parts).toList =
      parts.flatMap fun part => '\n' :: (part.write unit level).toList := by
  induction parts with
  | nil => rfl
  | cons part rest ih => simp [write.writeAll, ih]

end Content

theorem laidOut_cons (level : Nat) (unit : String) (line : Line) (lines : List Line) :
    laidOut level unit (line :: lines) =
      '\n' :: ((indentation unit (level + line.depth)).toList ++ line.text.toList) ++
        laidOut level unit lines :=
  List.flatMap_cons

/-- The lines of a part are what is written of it. -/
theorem laidOut_eq_write (level : Nat) (unit : String) (part : Content) (depth : Nat) :
    laidOut level unit (part.lines depth) = '\n' :: (part.write unit (level + depth)).toList := by
  induction part using Content.induction generalizing depth with
  | text value => simp [Content.lines, Content.write, laidOut]
  | tag name attributes content ih =>
    have hcontent : laidOut level unit (Content.lines.linesOf (depth + 1) content) =
        (Content.write.writeAll unit (level + depth + 1) content).toList := by
      rw [linesOf_eq, Content.toList_writeAll, laidOut, List.flatMap_assoc]
      exact List.flatMap_congr fun part hpart => ih part hpart (depth + 1)
    rw [Content.lines, Content.write]
    split_ifs
    · simp [laidOut]
    · simp [laidOut]
    · rw [List.cons_append, laidOut_cons, laidOut_append, hcontent]
      simp [laidOut]

/-- A tag as text is what is written of it part by part. -/
theorem Tag.render_eq_write (tag : Tag) (level : Nat) (unit : String) :
    tag.render level unit = (Content.ofTag tag).write unit level := by
  have hlines := (laidOut_lines tag level unit).symm.trans
    (laidOut_eq_write level unit (Content.ofTag tag) 0)
  exact String.toList_inj.mp (List.cons.inj hlines).2

/-- A text in which no line ends. -/
def OneLine (text : String) : Prop :=
  '\n' ∉ text.toList

instance (text : String) : Decidable (OneLine text) :=
  inferInstanceAs (Decidable (¬ _))

namespace OneLine

variable {text other : String}

theorem append (h : OneLine text) (hother : OneLine other) : OneLine (text ++ other) := by
  unfold OneLine
  rw [String.toList_append, List.mem_append, not_or]
  exact ⟨h, hother⟩

theorem join {texts : List String} (h : ∀ text ∈ texts, OneLine text) :
    OneLine (String.join texts) := by
  unfold OneLine
  rw [String.toList_join, List.mem_flatMap]
  rintro ⟨text, htext, hmem⟩
  exact h text htext hmem

/-- No character but a line end is written as one. -/
theorem escape (h : OneLine text) (inValue : Bool) : OneLine (escape inValue text) := by
  have hchar : ∀ c : Char, '\n' ∈ escapeChar inValue c → c = '\n' := by
    intro c hc
    unfold escapeChar at hc
    split at hc
    · exact absurd hc (by decide)
    · exact absurd hc (by decide)
    · exact absurd hc (by decide)
    · cases inValue <;> exact absurd hc (by decide)
    · exact (List.mem_singleton.mp hc).symm
  unfold OneLine Xml.escape
  rw [String.toList_ofList, List.mem_flatMap]
  rintro ⟨c, hc, hend⟩
  rw [hchar c hend] at hc
  exact h hc

theorem qualifiedName {name : String} (h : OneLine name) : OneLine (qualifiedName name) :=
  (show OneLine (namespaceLetters ++ ":") by decide).append h

theorem closingText {name : String} (h : OneLine name) : OneLine (closingText name) :=
  ((show OneLine "</" by decide).append h.qualifiedName).append (show OneLine ">" by decide)

theorem openingText {name : String} {attributes : List (String × String)} (h : OneLine name)
    (hattributes : ∀ pair ∈ attributes, OneLine pair.1 ∧ OneLine pair.2) :
    OneLine (openingText name attributes) := by
  refine ((show OneLine "<" by decide).append h.qualifiedName).append
    (join (List.forall_mem_map.mpr ?_))
  intro pair hpair
  obtain ⟨hkey, hvalue⟩ := hattributes pair hpair
  exact ((((show OneLine " " by decide).append hkey).append (show OneLine "=\"" by decide)).append
    (hvalue.escape true)).append (show OneLine "\"" by decide)

end OneLine

/-- No line ends within a name, an attribute or a text of a part of a document. -/
inductive Content.OneLine : Content → Prop
  | text {value : String} (value_oneLine : Xml.OneLine value) : OneLine (.text value)
  | tag {name : String} {attributes : List (String × String)} {content : List Content}
    (name_oneLine : Xml.OneLine name)
    (attributes_oneLine : ∀ pair ∈ attributes, Xml.OneLine pair.1 ∧ Xml.OneLine pair.2)
    (parts : ∀ part ∈ content, OneLine part) : OneLine (.tag name attributes content)

theorem oneLine_inlineText {parts : List Content} (h : ∀ part ∈ parts, part.OneLine) :
    OneLine (Content.inlineText parts) := by
  induction parts with
  | nil => exact List.not_mem_nil
  | cons part rest ih =>
    obtain ⟨hpart, hrest⟩ := List.forall_mem_cons.mp h
    cases hpart with
    | text hvalue => exact (hvalue.escape false).append (ih hrest)
    | tag _ _ _ => exact ih hrest

theorem oneLine_lines {part : Content} (h : part.OneLine) (depth : Nat) :
    ∀ line ∈ part.lines depth, OneLine line.text := by
  induction h generalizing depth with
  | text hvalue => exact List.forall_mem_singleton.mpr (hvalue.escape false)
  | @tag name attributes content hname hattributes hparts ih =>
    have hopening := hname.openingText hattributes
    have hend : OneLine ">" := by decide
    rw [Content.lines]
    split_ifs
    · exact List.forall_mem_singleton.mpr (hopening.append (show OneLine "/>" by decide))
    · exact List.forall_mem_singleton.mpr
        (((hopening.append hend).append (oneLine_inlineText hparts)).append hname.closingText)
    · rw [linesOf_eq, List.cons_append, List.forall_mem_cons, List.forall_mem_append,
        List.forall_mem_singleton, List.forall_mem_flatMap]
      exact ⟨hopening.append hend, fun part hpart => ih part hpart (depth + 1), hname.closingText⟩

/-- Texts on one line can be told from what they are when they are joined. -/
theorem eq_of_intercalate_eq {texts others : List String} (hne : texts ≠ []) (hne' : others ≠ [])
    (h : ∀ text ∈ texts, OneLine text) (h' : ∀ text ∈ others, OneLine text)
    (heq : "\n".intercalate texts = "\n".intercalate others) : texts = others := by
  have hsplit : ∀ {texts : List String}, texts ≠ [] → (∀ text ∈ texts, OneLine text) →
      List.splitOn '\n' ("\n".intercalate texts).toList = texts.map String.toList := by
    intro texts hne h
    rw [String.toList_intercalate]
    exact List.splitOn_intercalate '\n' (List.forall_mem_map.mpr h) (by simpa using hne)
  have hlists : texts.map String.toList = others.map String.toList := by
    rw [← hsplit hne h, ← hsplit hne' h', heq]
  exact List.map_injective_iff.mpr (fun _ _ => String.toList_injective) hlists

/-- Lines as a text, the lines indented by a unit for each level. -/
def joined (level : Nat) (unit : String) (lines : List Line) : String :=
  "\n".intercalate (lines.map fun line => indentation unit (level + line.depth) ++ line.text)

@[simp] theorem indentation_empty (depth : Nat) : indentation "" depth = "" := by
  induction depth with
  | zero => rfl
  | succ depth ih =>
    rw [indentation, List.replicate_succ, String.join_cons, String.empty_append]
    exact ih

theorem length_indentation (unit : String) (depth : Nat) :
    (indentation unit depth).length = depth * unit.length := by
  simp [indentation]

/-- What is indented is not empty. -/
theorem joined_ne_empty {lines : List Line} (hne : lines ≠ []) : joined 1 " " lines ≠ "" := by
  obtain ⟨line, rest, rfl⟩ := List.exists_cons_of_ne_nil hne
  have hindent : indentation " " (1 + line.depth) ≠ "" := by
    intro hempty
    have hlength := congrArg String.length hempty
    rw [length_indentation, show " ".length = 1 by decide, show "".length = 0 by decide] at hlength
    omega
  cases rest with
  | nil => simp [joined, hindent]
  | cons other rest => simp [joined, hindent, String.intercalate_cons_cons]

/-- Lines are determined by the texts they are written as. -/
theorem eq_of_joined_eq {lines others : List Line} (hne : lines ≠ [])
    (h : ∀ line ∈ lines, OneLine line.text) (h' : ∀ line ∈ others, OneLine line.text)
    (heq : ∀ level unit, joined level unit lines = joined level unit others) : lines = others := by
  have hne' : others ≠ [] := by
    rintro rfl
    exact joined_ne_empty hne (heq 1 " ")
  have hindented : ∀ unit : String, (∀ depth, OneLine (indentation unit depth)) →
      (lines.map fun line => indentation unit (0 + line.depth) ++ line.text) =
        others.map fun line => indentation unit (0 + line.depth) ++ line.text := by
    intro unit hunit
    apply eq_of_intercalate_eq (by simpa using hne) (by simpa using hne') _ _ (heq 0 unit)
    · exact List.forall_mem_map.mpr fun line hline => (hunit _).append (h line hline)
    · exact List.forall_mem_map.mpr fun line hline => (hunit _).append (h' line hline)
  -- Without indentation the texts are left, and with it the depths show in the lengths.
  have htexts : lines.map Line.text = others.map Line.text := by
    simpa using hindented "" (by simp [OneLine])
  have hlengths := hindented " " (fun depth => by simp [OneLine, indentation])
  refine List.ext_getElem (by simpa using congrArg List.length htexts) fun i hi hi' => ?_
  have htext := List.getElem_of_eq htexts (by rwa [List.length_map] : i < _)
  have hlength := congrArg String.length
    (List.getElem_of_eq hlengths (by rwa [List.length_map] : i < _))
  rw [List.getElem_map, List.getElem_map] at htext hlength
  rw [String.length_append, String.length_append, htext, length_indentation, length_indentation,
    show " ".length = 1 by decide] at hlength
  have hdepth : lines[i].depth = others[i].depth := by omega
  exact congrArg₂ Line.mk hdepth htext

theorem lines_ne_nil (part : Content) (depth : Nat) : part.lines depth ≠ [] := by
  cases part with
  | text value => exact List.cons_ne_nil _ _
  | tag name attributes content =>
    rw [Content.lines]
    split_ifs <;> exact List.cons_ne_nil _ _

/-- The first line of a part and its last one stand at its depth. -/
theorem depth_of_outer_lines (part : Content) (depth : Nat) :
    (part.lines depth).head?.map Line.depth = some depth ∧
      (part.lines depth).getLast?.map Line.depth = some depth := by
  cases part with
  | text value => exact ⟨rfl, rfl⟩
  | tag name attributes content =>
    rw [Content.lines]
    split_ifs
    · exact ⟨rfl, rfl⟩
    · exact ⟨rfl, rfl⟩
    · rw [List.getLast?_concat]
      exact ⟨rfl, rfl⟩

/-- Level and unit of the indentation change what stands in front of the lines of a tag, and
nothing else. Where no line ends within it, its lines are the only ones of which this holds. The
first line and the last one stand at the outermost depth. -/
theorem layout_of_lines {tag : Tag} (h : (Content.ofTag tag).OneLine) :
    ∃ lines : List Line,
      (∀ level unit, tag.render level unit = joined level unit lines ∧
        (Content.ofTag tag).write unit level = joined level unit lines) ∧
      (∀ line ∈ lines, OneLine line.text) ∧
      lines.head?.map Line.depth = some 0 ∧ lines.getLast?.map Line.depth = some 0 ∧
      ∀ others : List Line, (∀ line ∈ others, OneLine line.text) →
        (∀ level unit, tag.render level unit = joined level unit others) → others = lines := by
  have honeLine : ∀ line ∈ tag.lines, OneLine line.text := oneLine_lines h 0
  obtain ⟨hfirst, hlast⟩ := depth_of_outer_lines (Content.ofTag tag) 0
  refine ⟨tag.lines, fun level unit => ⟨rfl, ?_⟩, honeLine, hfirst, hlast, ?_⟩
  · rw [← Tag.render_eq_write]
    rfl
  · intro others hothers hrender
    exact (eq_of_joined_eq (lines_ne_nil _ 0) honeLine hothers hrender).symm

/-- A tag with text, an empty tag and a tag with nothing but text in it. -/
theorem layout_of_lines_mixed :
    let empty : Content := .tag "element" [("name", "a<b")] []
    let worded : Content := .tag "documentation" [] [.text "x & ", .text "y"]
    let tag : Tag := ⟨"schema", [], [.text "free", empty, worded]⟩
    (Content.ofTag tag).OneLine ∧
    ∃ lines : List Line, lines.length = 5 ∧ tag.render 1 "\t" = joined 1 "\t" lines ∧
      (Content.ofTag tag).write "  " 0 = joined 0 "  " lines := by
  intro empty worded tag
  have hempty : empty.OneLine := .tag (by decide) (by decide) (List.forall_mem_nil _)
  have hworded : worded.OneLine := by
    refine .tag (by decide) (List.forall_mem_nil _) ?_
    exact List.forall_mem_cons.mpr
      ⟨.text (by decide), List.forall_mem_singleton.mpr (.text (by decide))⟩
  have htag : (Content.ofTag tag).OneLine := by
    refine .tag (by decide) (List.forall_mem_nil _) ?_
    exact List.forall_mem_cons.mpr ⟨.text (by decide), List.forall_mem_cons.mpr
      ⟨hempty, List.forall_mem_singleton.mpr hworded⟩⟩
  obtain ⟨lines, hlines, -, -, -, hunique⟩ := layout_of_lines htag
  have hself : tag.lines = lines :=
    hunique tag.lines (oneLine_lines htag 0) fun level unit => rfl
  exact ⟨htag, lines, by rw [← hself]; rfl, (hlines 1 "\t").1, (hlines 0 "  ").2⟩

end DeclSchema.Xml
