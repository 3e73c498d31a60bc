import DeclSchema.Proofs.Xml.Reading
import DeclSchema.Token.Pattern

/-!
# What a processor hands on

An XML 1.0 processor refuses a document with characters that no document may hold. It
makes every line end of the document a line feed, replaces the white space that is left in
the value of an attribute by blanks, and then expands references. `Tag.process?` is a
processor for documents of tags alone.

A plain document is refused exactly if one of its values holds an illegal character
(`isLegalText_render`); otherwise each value is handed on as `normalized` has it
(`process?_render`), which is the value itself exactly if it is `Unbroken`.
-/

namespace DeclSchema.Xml

theorem isLegalText_iff {text : String} : isLegalText text ↔ ∀ c ∈ text.toList, isLegal c :=
  List.all_eq_true

theorem isLegalText_append {text other : String} :
    isLegalText (text ++ other) ↔ isLegalText text ∧ isLegalText other := by
  simp [isLegalText]

theorem isLegal_of_isNameChar {c : Char} (h : isNameChar c) : isLegal c := by
  have hrange : 0x20 ≤ c.toNat ∧ c.toNat ≤ 0x7E := by
    simp only [isNameChar, Char.isAlphanum, Pattern.isAlpha_iff, Char.isDigit, Bool.or_eq_true,
      Bool.and_eq_true, decide_eq_true_eq, beq_iff_eq, Char.le_def, UInt32.le_iff_toNat_le,
      Char.ext_iff, ← UInt32.toNat_inj] at h
    have hvalue : c.toNat = c.val.toNat := rfl
    simp at h
    omega
  simp only [isLegal, Bool.or_eq_true, Bool.and_eq_true, decide_eq_true_eq]
  omega

theorem isLegalText_of_isName {text : String} (h : IsName text) : isLegalText text :=
  isLegalText_iff.mpr fun c hc => isLegal_of_isNameChar (h.2 c hc)

/-- Blanks and tabs are legal. -/
theorem isLegalText_of_blank {unit : String} (hunit : ∀ c ∈ unit.toList, c = ' ' ∨ c = '\t') :
    isLegalText unit := by
  rw [isLegalText_iff]
  intro c hc
  rcases hunit c hc with rfl | rfl <;> decide

theorem isLegalText_escape {text : String} :
    isLegalText (escape true text) ↔ isLegalText text := by
  have hchar : ∀ c, (∀ d ∈ escapeChar true c, isLegal d) ↔ isLegal c :=
    escapeChar_cases (P := fun c written => (∀ d ∈ written, isLegal d) ↔ isLegal c) (by decide)
      fun c _ => List.forall_mem_singleton
  rw [isLegalText_iff, isLegalText_iff, escape, String.toList_ofList, List.forall_mem_flatMap]
  exact forall₂_congr fun c _ => hchar c

theorem isLegalText_qualifiedName {name : String} (h : IsName name) :
    isLegalText (qualifiedName name) := by
  rw [qualifiedName, isLegalText_append]
  exact ⟨by decide, isLegalText_of_isName h⟩

theorem isLegalText_closingText {name : String} (h : IsName name) :
    isLegalText (closingText name) := by
  rw [closingText, isLegalText_append, isLegalText_append]
  exact ⟨⟨by decide, isLegalText_qualifiedName h⟩, by decide⟩

theorem isLegalText_attributeText {key : String} (h : IsName key) (value : String) :
    isLegalText (attributeText (key, value)) ↔ isLegalText value := by
  simp +decide only [attributeText, isLegalText_append, isLegalText_escape, isLegalText_of_isName h,
    true_and, and_true]

theorem isLegalText_openingText {name : String} {attributes : List (String × String)}
    (hname : IsName name) (hkeys : ∀ pair ∈ attributes, IsName pair.1) :
    isLegalText (openingText name attributes) ↔ ∀ pair ∈ attributes, isLegalText pair.2 := by
  have hjoin : isLegalText (String.join (attributes.map attributeText)) ↔
      ∀ pair ∈ attributes, isLegalText (attributeText pair) := by
    rw [isLegalText_iff, String.toList_join, List.forall_mem_flatMap, List.forall_mem_map]
    exact forall₂_congr fun pair _ => isLegalText_iff.symm
  have hbefore : isLegalText ("<" ++ qualifiedName name) :=
    isLegalText_append.mpr ⟨by decide, isLegalText_qualifiedName hname⟩
  rw [openingText, isLegalText_append, and_iff_right hbefore, hjoin]
  exact forall₂_congr fun pair hpair => isLegalText_attributeText (hkeys pair hpair) pair.2

theorem isLegalText_indentation {unit : String} (h : isLegalText unit) (depth : Nat) :
    isLegalText (indentation unit depth) := by
  rw [isLegalText_iff, indentation, String.toList_join, List.forall_mem_flatMap]
  intro copy hcopy
  rw [List.eq_of_mem_replicate hcopy]
  exact isLegalText_iff.mp h

/-- Whether all lines are made of legal characters. -/
theorem forall_laidOut {level : Nat} {unit : String} (hunit : isLegalText unit)
    {lines : List Line} :
    (∀ c ∈ laidOut level unit lines, isLegal c) ↔ ∀ line ∈ lines, isLegalText line.text := by
  rw [laidOut, List.forall_mem_flatMap]
  refine forall₂_congr fun line _ => ?_
  rw [List.forall_mem_cons, List.forall_mem_append, and_iff_right (by decide), ← isLegalText_iff,
    and_iff_right (isLegalText_indentation hunit _), isLegalText_iff]

/-- The lines of a plain tag are legal exactly if the values in it are. -/
theorem forall_lines {tag : Tag} (h : Plain tag) (depth : Nat) :
    (∀ line ∈ (Content.ofTag tag).lines depth, isLegalText line.text) ↔
      ∀ value ∈ tag.values, isLegalText value := by
  induction h generalizing depth with
  | @intro tag name keys textless children ih =>
    have hopening : ∀ ending, isLegalText ending →
        (isLegalText (openingText tag.name tag.attributes ++ ending) ↔
          ∀ pair ∈ tag.attributes, isLegalText pair.2) := by
      intro ending hending
      rw [isLegalText_append, and_iff_left hending, isLegalText_openingText name keys]
    rw [lines_plain (.intro name keys textless children), Tag.forall_mem_values]
    split_ifs with hnil
    · rw [List.forall_mem_singleton, hopening _ (by decide)]
      simp [hnil]
    · have hinner : ∀ child ∈ tag.children,
          ((∀ line ∈ (Content.ofTag child).lines (depth + 1), isLegalText line.text) ↔
            ∀ value ∈ child.values, isLegalText value) := fun child hchild =>
        ih child hchild (depth + 1)
      rw [List.forall_mem_append, List.forall_mem_cons, List.forall_mem_singleton,
        List.forall_mem_flatMap, hopening _ (by decide), forall₂_congr hinner,
        and_iff_left (isLegalText_closingText name)]

/-- A plain document is written with legal characters exactly if its values are made of
them. -/
theorem isLegalText_render {tag : Tag} (h : Plain tag) (level : Nat) {unit : String}
    (hunit : isLegalText unit) :
    isLegalText (tag.render level unit) ↔ ∀ value ∈ tag.values, isLegalText value := by
  have hrender : (∀ c ∈ (tag.render level unit).toList, isLegal c) ↔
      ∀ c ∈ laidOut level unit tag.lines, isLegal c := by
    rw [laidOut_lines, List.forall_mem_cons, and_iff_right (by decide)]
  rw [isLegalText_iff, hrender, forall_laidOut hunit]
  exact forall_lines h 0

/-- A text with each line end as a line feed. -/
def lineEnds : List Char → List Char
  | '\r' :: '\n' :: rest => '\n' :: lineEnds rest
  | '\r' :: rest => '\n' :: lineEnds rest
  | c :: rest => c :: lineEnds rest
  | [] => []

theorem lineEnds_cons {c : Char} (h : c ≠ '\r') (rest : List Char) :
    lineEnds (c :: rest) = c :: lineEnds rest :=
  lineEnds.eq_3 c rest (fun _ hc _ => h hc) h

theorem lineEnds_return {rest : List Char} (h : rest.head? ≠ some '\n') :
    lineEnds ('\r' :: rest) = '\n' :: lineEnds rest := by
  refine lineEnds.eq_2 rest fun behind hrest => h ?_
  rw [hrest, List.head?_cons]

/-- A text that is divided where no line end is keeps its line ends. -/
theorem lineEnds_append {cs ds : List Char}
    (h : cs.getLast? ≠ some '\r' ∨ ds.head? ≠ some '\n') :
    lineEnds (cs ++ ds) = lineEnds cs ++ lineEnds ds := by
  have hrest : ∀ {c : Char} {rest : List Char},
      ((c :: rest).getLast? ≠ some '\r' ∨ ds.head? ≠ some '\n') →
      rest.getLast? ≠ some '\r' ∨ ds.head? ≠ some '\n' := by
    intro c rest h
    refine h.imp_left fun hlast hrest => hlast ?_
    rw [List.getLast?_cons, hrest, Option.getD_some]
  induction cs using lineEnds.induct with
  | case1 rest ih =>
    rw [List.cons_append, List.cons_append, lineEnds, lineEnds, ih (hrest (hrest h)),
      List.cons_append]
  | case2 rest hfeed ih =>
    cases rest with
    | nil =>
      have hds : ds.head? ≠ some '\n' := by simpa using h
      exact lineEnds_return hds
    | cons c rest =>
      have hc : c ≠ '\n' := fun hc => hfeed rest (by rw [hc])
      rw [List.cons_append, lineEnds_return (by simpa using hc), lineEnds_return (by simpa using hc),
        ih (hrest h), List.cons_append]
  | case3 c rest _ hc ih =>
    rw [List.cons_append, lineEnds_cons hc, lineEnds_cons hc, ih (hrest h), List.cons_append]
  | case4 => rfl

/-- A text without carriage returns keeps all its characters. -/
theorem lineEnds_eq_self {cs : List Char} (h : '\r' ∉ cs) : lineEnds cs = cs := by
  induction cs with
  | nil => rfl
  | cons c rest ih =>
    obtain ⟨hc, hrest⟩ := not_or.mp (mt List.mem_cons.mpr h)
    rw [lineEnds_cons (Ne.symm hc), ih hrest]

/-- A text with its line ends as line feeds. -/
def withFeeds (text : String) : String :=
  String.ofList (lineEnds text.toList)

theorem escapeChar_return : escapeChar true '\r' = ['\r'] := rfl

theorem escapeChar_feed : escapeChar true '\n' = ['\n'] := rfl

/-- Where no line feed stands first, none does after escaping. -/
theorem head?_flatMap_escapeChar {cs : List Char} (h : cs.head? ≠ some '\n') :
    (cs.flatMap (escapeChar true)).head? ≠ some '\n' := by
  have hchar : ∀ c, escapeChar true c ≠ [] ∧ ((escapeChar true c).head? = some '\n' → c = '\n') :=
    escapeChar_cases (P := fun c written => written ≠ [] ∧ (written.head? = some '\n' → c = '\n'))
      (by decide) fun c _ => ⟨List.cons_ne_nil _ _, Option.some.inj⟩
  cases cs with
  | nil => exact h
  | cons c rest =>
    obtain ⟨hne, hfeed⟩ := hchar c
    rw [List.flatMap_cons, List.head?_append_of_ne_nil _ hne]
    rw [List.head?_cons] at h
    exact fun hhead => h (congrArg some (hfeed hhead))

theorem return_not_mem_escapeChar {c : Char} (h : c ≠ '\r') : '\r' ∉ escapeChar true c :=
  escapeChar_cases (P := fun c written => c ≠ '\r' → '\r' ∉ written) (by decide)
    (fun c _ hc hreturn => hc (List.mem_singleton.mp hreturn).symm) c h

/-- Line ends are not touched by escaping. -/
theorem lineEnds_flatMap_escapeChar (cs : List Char) :
    lineEnds (cs.flatMap (escapeChar true)) = (lineEnds cs).flatMap (escapeChar true) := by
  induction cs using lineEnds.induct with
  | case1 rest ih =>
    rw [lineEnds, List.flatMap_cons, List.flatMap_cons, List.flatMap_cons, escapeChar_return,
      escapeChar_feed, ← ih]
    rfl
  | case2 rest hfeed ih =>
    have hrest : rest.head? ≠ some '\n' := by
      intro hhead
      obtain ⟨behind, rfl⟩ := List.head?_eq_some_iff.mp hhead
      exact hfeed behind rfl
    rw [lineEnds_return hrest, List.flatMap_cons, List.flatMap_cons, escapeChar_return,
      escapeChar_feed, ← ih]
    exact lineEnds_return (head?_flatMap_escapeChar hrest)
  | case3 c rest _ hc ih =>
    have hlast : (escapeChar true c).getLast? ≠ some '\r' := fun hlast =>
      return_not_mem_escapeChar hc (List.mem_of_getLast? hlast)
    rw [lineEnds_cons hc, List.flatMap_cons, List.flatMap_cons, lineEnds_append (.inl hlast),
      lineEnds_eq_self (return_not_mem_escapeChar hc), ih]
  | case4 => rfl

theorem withFeeds_escape (value : String) :
    withFeeds (escape true value) = escape true (withFeeds value) := by
  simp [withFeeds, escape, lineEnds_flatMap_escapeChar]

theorem withFeeds_append {text other : String}
    (h : text.toList.getLast? ≠ some '\r' ∨ other.toList.head? ≠ some '\n') :
    withFeeds (text ++ other) = withFeeds text ++ withFeeds other := by
  simp [withFeeds, lineEnds_append h]

theorem withFeeds_eq_self {text : String} (h : '\r' ∉ text.toList) : withFeeds text = text := by
  rw [withFeeds, lineEnds_eq_self h, String.ofList_toList]

theorem return_not_mem_of_isName {name : String} (h : IsName name) : '\r' ∉ name.toList :=
  fun hreturn => absurd (h.2 _ hreturn) (by decide)

theorem withFeeds_attributeText {key : String} (h : IsName key) (value : String) :
    withFeeds (attributeText (key, value)) = attributeText (key, withFeeds value) := by
  have hbefore : '\r' ∉ (" " ++ key ++ "=\"").toList := by
    simpa using return_not_mem_of_isName h
  have hlast : (" " ++ key ++ "=\"").toList.getLast? ≠ some '\r' := fun hlast =>
    hbefore (List.mem_of_getLast? hlast)
  have hquote : withFeeds "\"" = "\"" := by
    decide
  rw [attributeText, withFeeds_append (.inr (by decide)), withFeeds_append (.inl hlast),
    withFeeds_eq_self hbefore, withFeeds_escape, hquote]
  rfl

theorem withFeeds_openingText {name : String} {attributes : List (String × String)}
    (hname : IsName name) (hkeys : ∀ pair ∈ attributes, IsName pair.1) :
    withFeeds (openingText name attributes) =
      openingText name (attributes.map fun (key, value) => (key, withFeeds value)) := by
  have hhead : ∀ attributes : List (String × String),
      (String.join (attributes.map attributeText)).toList.head? ≠ some '\n' := by
    intro attributes
    cases attributes with
    | nil => simp
    | cons pair rest => simp [attributeText]
  have hjoin : withFeeds (String.join (attributes.map attributeText)) =
      String.join ((attributes.map fun (key, value) => (key, withFeeds value)).map
        attributeText) := by
    induction attributes with
    | nil => rfl
    | cons pair rest ih =>
      obtain ⟨hkey, hrest⟩ := List.forall_mem_cons.mp hkeys
      rw [List.map_cons, String.join_cons, withFeeds_append (.inr (hhead rest)),
        withFeeds_attributeText hkey, ih hrest, List.map_cons, List.map_cons, String.join_cons]
  have hbefore : '\r' ∉ ("<" ++ qualifiedName name).toList := by
    simpa [qualifiedName, namespaceLetters] using return_not_mem_of_isName hname
  rw [openingText, withFeeds_append (.inr (hhead _)), withFeeds_eq_self hbefore, hjoin, openingText]

/-- The lines of a plain document with its line ends as line feeds are those of the document
with its values changed so. -/
theorem lines_withFeeds {tag : Tag} (h : Plain tag) (depth : Nat) :
    (Content.ofTag (tag.mapValues withFeeds)).lines depth =
      ((Content.ofTag tag).lines depth).map fun line => ⟨line.depth, withFeeds line.text⟩ := by
  induction h generalizing depth with
  | @intro tag name keys textless children ih =>
    have hplain : Plain tag := .intro name keys textless children
    have hopening : ∀ ending : String, ending.toList.head? ≠ some '\n' →
        '\r' ∉ ending.toList → withFeeds (openingText tag.name tag.attributes ++ ending) =
          openingText tag.name (tag.attributes.map fun (key, value) => (key, withFeeds value)) ++
            ending := by
      intro ending hhead hreturn
      rw [withFeeds_append (.inr hhead), withFeeds_openingText name keys, withFeeds_eq_self hreturn]
    have hclosing : withFeeds (closingText tag.name) = closingText tag.name := by
      refine withFeeds_eq_self ?_
      simpa [closingText, qualifiedName, namespaceLetters] using return_not_mem_of_isName name
    have hchildren : (tag.children.map (Tag.mapValues withFeeds)).flatMap
          (fun child => (Content.ofTag child).lines (depth + 1)) =
        (tag.children.flatMap fun child => (Content.ofTag child).lines (depth + 1)).map
          fun line => ⟨line.depth, withFeeds line.text⟩ := by
      rw [List.flatMap_map, List.map_flatMap]
      exact List.flatMap_congr fun child hchild => ih child hchild (depth + 1)
    rw [lines_plain (hplain.mapValues _), lines_plain hplain, Tag.children_mapValues, hchildren]
    simp only [List.map_eq_nil_iff, Tag.name_mapValues, Tag.attributes_mapValues]
    split_ifs with hnil
    · rw [List.map_singleton, hopening _ (by decide) (by decide)]
    · rw [List.map_append, List.map_cons, List.map_singleton,
        hopening _ (by decide) (by decide), hclosing]

/-- Every line of a plain document ends with a bracket. -/
theorem getLast?_lines {tag : Tag} (h : Plain tag) (depth : Nat) :
    ∀ line ∈ (Content.ofTag tag).lines depth, line.text.toList.getLast? = some '>' := by
  induction h generalizing depth with
  | @intro tag name keys textless children ih =>
    rw [lines_plain (.intro name keys textless children)]
    split_ifs with hnil
    · simp
    · rw [List.forall_mem_append, List.forall_mem_cons, List.forall_mem_flatMap,
        List.forall_mem_singleton]
      refine ⟨⟨by simp, fun child hchild => ih child hchild (depth + 1)⟩, ?_⟩
      rw [closingText, String.toList_append]
      exact List.getLast?_concat

theorem lineEnds_laidOut {level : Nat} {unit : String} (hunit : '\r' ∉ unit.toList)
    {lines : List Line} (h : ∀ line ∈ lines, line.text.toList.getLast? = some '>') :
    lineEnds (laidOut level unit lines) =
      laidOut level unit (lines.map fun line => ⟨line.depth, withFeeds line.text⟩) := by
  have hindentation : ∀ depth, '\r' ∉ (indentation unit depth).toList := by
    intro depth
    rw [indentation, String.toList_join, List.mem_flatMap]
    rintro ⟨copy, hcopy, hreturn⟩
    rw [List.eq_of_mem_replicate hcopy] at hreturn
    exact hunit hreturn
  induction lines with
  | nil => rfl
  | cons line rest ih =>
    obtain ⟨hline, hrest⟩ := List.forall_mem_cons.mp h
    have hcharacters : lineEnds ('\n' ::
          ((indentation unit (level + line.depth)).toList ++ line.text.toList)) =
        '\n' :: ((indentation unit (level + line.depth)).toList ++
          (withFeeds line.text).toList) := by
      rw [lineEnds_cons (by decide), lineEnds_append (.inl fun hlast =>
        hindentation _ (List.mem_of_getLast? hlast)), lineEnds_eq_self (hindentation _), withFeeds,
        String.toList_ofList]
    have hlast : ('\n' :: ((indentation unit (level + line.depth)).toList ++
        line.text.toList)).getLast? ≠ some '\r' := by
      simp [List.getLast?_cons, List.getLast?_append, hline]
    have hbehind := ih hrest
    rw [laidOut] at hbehind
    rw [laidOut, List.flatMap_cons, lineEnds_append (.inl hlast), hcharacters, hbehind]
    rfl

/-- The line ends of a plain document are those of its values and those between its lines. -/
theorem lineEnds_render {tag : Tag} (h : Plain tag) (level : Nat) {unit : String}
    (hunit : '\r' ∉ unit.toList) :
    lineEnds (tag.render level unit).toList =
      ((tag.mapValues withFeeds).render level unit).toList := by
  have hlines : lineEnds (laidOut level unit tag.lines) =
      laidOut level unit (tag.mapValues withFeeds).lines := by
    rw [Tag.lines, Tag.lines, lines_withFeeds h]
    exact lineEnds_laidOut hunit (getLast?_lines h 0)
  rw [laidOut_lines, laidOut_lines, lineEnds_cons (by decide)] at hlines
  exact List.tail_eq_of_cons_eq hlines

/-- A character of a value, with white space as a blank. -/
def blankFor (c : Char) : Char :=
  if c = '\t' ∨ c = '\n' ∨ c = '\r' then ' ' else c

/-- The value that is meant by what stands between two quotes. -/
def valueOfWritten? (written : List Char) : Option String :=
  (expand? (written.map blankFor)).map String.ofList

/-- A document as a processor hands it on. -/
def Tag.process? (text : String) : Option Tag :=
  if isLegalText text then Tag.read? valueOfWritten? (lineEnds text.toList) else none

/-- A text with white space as blanks. -/
def withBlanks (text : String) : String :=
  String.ofList (text.toList.map blankFor)

/-- A value as it is handed on. White space in it is written as it is. -/
def normalized (value : String) : String :=
  withBlanks (withFeeds value)

theorem map_blankFor_escapeChar (c : Char) :
    (escapeChar true c).map blankFor = escapeChar true (blankFor c) := by
  refine escapeChar_cases (P := fun c written => written.map blankFor = escapeChar true (blankFor c))
    (by decide) (fun c hc => ?_) c
  have hblank : blankFor c ∉ marks := by
    unfold blankFor
    split_ifs
    · decide
    · exact hc
  rw [escapeChar_of_not_mem hblank, List.map_singleton]

theorem valueOfWritten?_escape (value : String) :
    valueOfWritten? (escape true value).toList = some (withBlanks value) := by
  have hwritten : (escape true value).toList.map blankFor =
      (value.toList.map blankFor).flatMap (escapeChar true) := by
    rw [escape, String.toList_ofList, List.map_flatMap, List.flatMap_map]
    exact List.flatMap_congr fun c _ => map_blankFor_escapeChar c
  rw [valueOfWritten?, hwritten, expand?_escape]
  rfl

/-- Each value of a plain document with legal characters is handed on as it is normalized. -/
theorem process?_render {tag : Tag} (h : Plain tag) (level : Nat) {unit : String}
    (hunit : ∀ c ∈ unit.toList, c = ' ' ∨ c = '\t')
    (hlegal : ∀ value ∈ tag.values, isLegalText value) :
    Tag.process? (tag.render level unit) = some (tag.mapValues normalized) := by
  have hunitReturn : '\r' ∉ unit.toList := fun hreturn => by
    simpa using hunit _ hreturn
  rw [Tag.process?, if_pos ((isLegalText_render h level (isLegalText_of_blank hunit)).mpr hlegal),
    lineEnds_render h level hunitReturn,
    read?_render valueOfWritten?_escape (isGap_of_blank hunit) level (h.mapValues _),
    Tag.mapValues_mapValues]
  rfl

/-- Whether there is no white space but blanks in a text: no tab, line feed or carriage
return. -/
def Unbroken (text : String) : Prop :=
  ∀ c ∈ text.toList, c ≠ '\t' ∧ c ≠ '\n' ∧ c ≠ '\r'

instance (text : String) : Decidable (Unbroken text) :=
  inferInstanceAs (Decidable (∀ c ∈ text.toList, _))

/-- Normalization keeps the unbroken values, and no others. -/
theorem normalized_eq_self_iff {value : String} : normalized value = value ↔ Unbroken value := by
  constructor
  · intro h c hc
    rw [← h, normalized, withBlanks, String.toList_ofList] at hc
    obtain ⟨d, -, rfl⟩ := List.mem_map.mp hc
    unfold blankFor
    split_ifs with hd
    · decide
    · simpa [not_or] using hd
  · intro h
    have hreturn : '\r' ∉ value.toList := fun hc => (h _ hc).2.2 rfl
    have hmap : value.toList.map blankFor = value.toList := by
      refine (List.map_congr_left fun c hc => ?_).trans (List.map_id _)
      obtain ⟨htab, hfeed, hreturn⟩ := h c hc
      simp [blankFor, htab, hfeed, hreturn]
    rw [normalized, withFeeds_eq_self hreturn, withBlanks, hmap, String.ofList_toList]

end DeclSchema.Xml
