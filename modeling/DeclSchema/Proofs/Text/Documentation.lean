import DeclSchema.Text.DocTag
import Mathlib.Data.List.TakeWhile

/-!
# Documentation as it is written

Tags are written into a documentation comment one line after the other: each line begins with
a margin, a tag with an at sign behind it, and the comment of a tag may go on over any number
of lines. What is read from such a text are the tags, each with its lines joined by single
spaces (`DocTag.read_as_written`). Whatever else a comment holds, the tags that are read from
it are clean: a name without white space, and a comment without line feeds and without white
space at its ends.

Lines are read one by one, the tags before a line being there already. `addLine_description`,
`foldl_addLine_lines` and `addLine_clean` say what one line changes; a whole comment follows by
induction on its lines.
-/

namespace DeclSchema

namespace Text

/-- No white space stands at either end of the text. -/
structure Trimmed (cs : List Char) : Prop where
  front : ∀ c ∈ cs.head?, isBlank c = false
  back : ∀ c ∈ cs.getLast?, isBlank c = false

theorem trimmed_iff {cs : List Char} :
    Trimmed cs ↔ cs.head?.all (!isBlank ·) ∧ cs.getLast?.all (!isBlank ·) := by
  simp only [Option.all_eq_true, Bool.not_eq_true']
  exact ⟨fun h => ⟨h.front, h.back⟩, fun h => ⟨h.1, h.2⟩⟩

instance (cs : List Char) : Decidable (Trimmed cs) :=
  decidable_of_iff _ trimmed_iff.symm

theorem trimStart_eq_self {cs : List Char} (h : ∀ c ∈ cs.head?, isBlank c = false) :
    trimStart cs = cs := by
  cases cs with
  | nil => rfl
  | cons c cs => exact List.dropWhile_cons_of_neg (by simp [h c rfl])

theorem trimEnd_eq_self {cs : List Char} (h : ∀ c ∈ cs.getLast?, isBlank c = false) :
    trimEnd cs = cs := by
  have hreverse : trimStart cs.reverse = cs.reverse := trimStart_eq_self (by simpa using h)
  exact (congrArg List.reverse hreverse).trans cs.reverse_reverse

theorem Trimmed.trim_eq {cs : List Char} (h : Trimmed cs) : trim cs = cs := by
  rw [trim, trimStart_eq_self h.front, trimEnd_eq_self h.back]

theorem trim_append (blanks : List Char) (h : ∀ c ∈ blanks, isBlank c) (cs : List Char) :
    trim (blanks ++ cs) = trim cs :=
  congrArg trimEnd (List.dropWhile_append_of_pos h)

theorem trimEnd_append {blanks : List Char} (h : ∀ c ∈ blanks, isBlank c) (cs : List Char) :
    trimEnd (cs ++ blanks) = trimEnd cs := by
  rw [trimEnd, List.reverse_append, List.dropWhile_append_of_pos (by simpa using h)]
  rfl

theorem head?_trimStart (cs : List Char) : ∀ c ∈ (trimStart cs).head?, isBlank c = false := by
  intro c hc
  have hhead := List.head?_dropWhile_not isBlank cs
  rw [trimStart] at hc
  rw [Option.mem_def.mp hc] at hhead
  exact hhead

theorem trimmed_trim (cs : List Char) : Trimmed (trim cs) where
  front := by
    intro c hc
    -- What is trimmed off the end leaves the beginning as it is.
    have hprefix : trim cs <+: trimStart cs := by
      rw [← List.reverse_suffix, trim, trimEnd, List.reverse_reverse]
      exact List.dropWhile_suffix _
    obtain ⟨rest, hrest⟩ := hprefix
    refine head?_trimStart cs c ?_
    rw [← hrest, List.head?_append, Option.mem_def.mp hc]
    rfl
  back := by
    rw [trim, trimEnd, List.getLast?_reverse]
    exact head?_trimStart (trimStart cs).reverse

theorem trim_subset (cs : List Char) : trim cs ⊆ cs := by
  have hend : ∀ ds : List Char, trimEnd ds ⊆ ds := fun ds c hc =>
    List.mem_reverse.mp (List.dropWhile_subset _ (List.mem_reverse.mp hc))
  exact List.Subset.trans (hend _) (List.dropWhile_subset _)

theorem lines_eq_splitOn (cs : List Char) : lines cs = cs.splitOn '\n' := by
  rw [List.splitOn_eq_splitOnP]
  induction cs with
  | nil => rfl
  | cons c cs ih =>
    rw [lines, ih, List.splitOnP_cons_eq_if_modifyHead]
    simp only [beq_iff_eq]
    split
    · rfl
    · obtain ⟨line, rest, hlines⟩ := List.exists_cons_of_ne_nil (ih ▸ lines_ne_nil cs)
      rw [hlines]
      rfl

/-- Lines with line feeds between them are read back. -/
theorem lines_intercalate {rows : List (List Char)} (hne : rows ≠ [])
    (h : ∀ row ∈ rows, '\n' ∉ row) : lines (['\n'].intercalate rows) = rows := by
  rw [lines_eq_splitOn]
  exact List.splitOn_intercalate '\n' h hne

theorem newline_notMem_of_mem_lines {cs line : List Char} (h : line ∈ lines cs) :
    '\n' ∉ line := by
  induction cs generalizing line with
  | nil => simp_all [lines]
  | cons c cs ih =>
    rw [lines] at h
    by_cases hfeed : c = '\n'
    · rw [if_pos hfeed] at h
      rcases List.mem_cons.mp h with rfl | h
      · exact List.not_mem_nil
      · exact ih h
    · obtain ⟨first, rest, hlines⟩ := List.exists_cons_of_ne_nil (lines_ne_nil cs)
      rw [if_neg hfeed, hlines] at h
      rcases List.mem_cons.mp h with rfl | h
      · have hfirst := ih (hlines ▸ List.mem_cons_self)
        exact fun hmem => (List.mem_cons.mp hmem).elim (hfeed ·.symm) hfirst
      · exact ih (hlines ▸ List.mem_cons_of_mem _ h)

end Text

namespace DocTag

/-- The text goes on with what the lines before it say: it begins neither with an at sign,
which would announce a tag, nor with a star, which would belong to the margin. -/
def Continues (text : String) : Prop :=
  text.toList.head? ≠ some '@' ∧ text.toList.head? ≠ some '*'

instance (text : String) : Decidable (Continues text) :=
  inferInstanceAs (Decidable (_ ∧ _))

/-- A line that describes something in front of the tags. It may be empty. -/
structure Description where
  text : String
  trimmed : Text.Trimmed text.toList
  single : '\n' ∉ text.toList
  continues : Continues text

/-- The line as it stands in a comment. -/
def Description.row (description : Description) : String :=
  " * " ++ description.text

/-- The text can stand on a line as the comment on a tag: it is not empty, and has neither white
space at its ends nor line feeds in it. -/
structure IsLine (line : String) : Prop where
  ne_empty : line ≠ ""
  trimmed : Text.Trimmed line.toList
  single : '\n' ∉ line.toList

instance (line : String) : Decidable (IsLine line) :=
  decidable_of_iff (_ ∧ _ ∧ _) ⟨fun h => ⟨h.1, h.2.1, h.2.2⟩, fun h => ⟨h.1, h.2, h.3⟩⟩

/-- A tag with the lines of the comment on it, of which there may be none. The first of them
stands behind the name of the tag. -/
structure Written where
  name : String
  lines : List String
  name_ne_empty : name ≠ ""
  solid : ∀ c ∈ name.toList, Text.isBlank c = false
  isLine : ∀ line ∈ lines, IsLine line
  continues : ∀ line ∈ lines.tail, Continues line

/-- What is written: the lines of the comment are one text. -/
def Written.tag (tag : Written) : DocTag :=
  ⟨tag.name, if tag.lines.isEmpty then none else some (" ".intercalate tag.lines)⟩

/-- A line that the comment on a tag goes on over. -/
def continuation (line : String) : String :=
  " *   " ++ line

/-- The line that names the tag. -/
def Written.heading (tag : Written) : String :=
  match tag.lines with
  | [] => " * @" ++ tag.name
  | first :: _ => " * @" ++ tag.name ++ " " ++ first

/-- All lines of the tag: the one that names it, and those that its comment goes on over. -/
def Written.rows (tag : Written) : List String :=
  tag.heading :: tag.lines.tail.map continuation

/-- A documentation comment with some lines of description and some tags. -/
def written (description : List Description) (tags : List Written) : String :=
  "\n".intercalate
    ("/**" :: (description.map Description.row ++ tags.flatMap Written.rows) ++ [" */"])

/-- The margin of a line, a star with white space around it, is no part of its text. -/
theorem stripMargin_row (indent : List Char) {text : List Char}
    (hindent : ∀ c ∈ indent, Text.isBlank c) (htext : Text.Trimmed text)
    (hstar : text.head? ≠ some '*') :
    stripMargin (' ' :: '*' :: (indent ++ text)) = text := by
  have hfront : Text.trim (' ' :: '*' :: (indent ++ text)) =
      Text.trimEnd ('*' :: (indent ++ text)) := rfl
  rw [stripMargin, hfront]
  by_cases hnil : text = []
  · subst hnil
    rw [List.append_nil, ← List.singleton_append, Text.trimEnd_append hindent]
    rfl
  · have hlast : ('*' :: (indent ++ text)).getLast? = text.getLast? := by
      rw [← List.cons_append, List.getLast?_append, List.getLast?_eq_some_getLast hnil]
      rfl
    have hhead : (indent ++ text).head? ≠ some '*' := by
      cases indent with
      | nil => exact hstar
      | cons c indent =>
        intro hc
        have hblank := hindent c List.mem_cons_self
        rw [Option.some.inj hc] at hblank
        exact absurd hblank (by decide)
    have hdrop : ('*' :: (indent ++ text)).dropWhile (· == '*') = indent ++ text := by
      rw [List.dropWhile_cons_of_pos (by rfl)]
      cases hrest : indent ++ text with
      | nil => rfl
      | cons c rest =>
        rw [hrest] at hhead
        exact List.dropWhile_cons_of_neg (by simpa using hhead)
    rw [Text.trimEnd_eq_self (hlast ▸ htext.back), hdrop, Text.trim_append _ hindent, htext.trim_eq]

/-- A name that is read off a line ends before white space or with the line. -/
theorem ofLine?_append {name rest : List Char} (hne : name ≠ [])
    (hname : ∀ c ∈ name, Text.isBlank c = false) (hrest : ∀ c ∈ rest.head?, Text.isBlank c) :
    ofLine? (name ++ rest) = some ⟨String.ofList name,
      if (Text.trim rest).isEmpty then none else some (String.ofList (Text.trim rest))⟩ := by
  have hsolid : ∀ c ∈ name, !Text.isBlank c := fun c hc => by rw [hname c hc]; rfl
  have hstop : rest.takeWhile (!Text.isBlank ·) = [] ∧ rest.dropWhile (!Text.isBlank ·) = rest := by
    cases rest with
    | nil => exact ⟨rfl, rfl⟩
    | cons c rest => simp [hrest c rfl]
  have htake : (name ++ rest).takeWhile (!Text.isBlank ·) = name := by
    rw [List.takeWhile_append_of_pos hsolid, hstop.1, List.append_nil]
  have hdrop : (name ++ rest).dropWhile (!Text.isBlank ·) = rest := by
    rw [List.dropWhile_append_of_pos hsolid, hstop.2]
  obtain ⟨c, cs, rfl⟩ := List.exists_cons_of_ne_nil hne
  rw [ofLine?, htake, hdrop]

section

variable {line text : List Char}

/-- A line without text changes nothing. -/
theorem addLine_blank (h : stripMargin line = []) (tags : List DocTag) :
    addLine tags line = tags := by
  unfold addLine
  rw [h]

/-- A line that names a tag begins one. -/
theorem addLine_tag {tag : DocTag} (h : stripMargin line = '@' :: text)
    (htag : ofLine? text = some tag) (tags : List DocTag) : addLine tags line = tag :: tags := by
  unfold addLine
  rw [h]
  simp only [htag]

/-- Any other line goes on with the last tag. -/
theorem addLine_text (h : stripMargin line = text) (hne : text ≠ [])
    (hsign : text.head? ≠ some '@') (last : DocTag) (before : List DocTag) :
    addLine (last :: before) line = last.extend (String.ofList text) :: before := by
  obtain ⟨c, cs, rfl⟩ := List.exists_cons_of_ne_nil hne
  unfold addLine
  rw [h]
  simp_all

/-- Before the first tag such a line means nothing. -/
theorem addLine_nil (h : stripMargin line = text) (hsign : text.head? ≠ some '@') :
    addLine [] line = [] := by
  unfold addLine
  rw [h]
  cases text with
  | nil => rfl
  | cons c cs => simp_all

end

theorem addLine_description (description : Description) :
    addLine [] description.row.toList = [] := by
  have hrow : stripMargin description.row.toList = description.text.toList := by
    rw [Description.row, String.toList_append]
    exact stripMargin_row [' '] (List.all_eq_true.mp rfl) description.trimmed
      description.continues.2
  exact addLine_nil hrow description.continues.1

theorem foldl_addLine_descriptions (descriptions : List Description) :
    (descriptions.map (·.row.toList)).foldl addLine [] = [] := by
  induction descriptions with
  | nil => rfl
  | cons description descriptions ih =>
    rw [List.map_cons, List.foldl_cons, addLine_description, ih]

theorem IsLine.toList_ne_nil {line : String} (h : IsLine line) : line.toList ≠ [] :=
  fun hnil => h.ne_empty (String.toList_eq_nil_iff.mp hnil)

theorem addLine_heading (tag : Written) (tags : List DocTag) :
    addLine tags tag.heading.toList = ⟨tag.name, tag.lines.head?⟩ :: tags := by
  obtain ⟨name, lines, hne, hsolid, hlines, -⟩ := tag
  have hname : name.toList ≠ [] := fun hnil => hne (String.toList_eq_nil_iff.mp hnil)
  -- Behind the at sign stands the name, and behind the name the first line.
  have hheading : ∀ {rest : List Char}, Text.Trimmed ('@' :: (name.toList ++ rest)) →
      (∀ c ∈ rest.head?, Text.isBlank c) →
      addLine tags (' ' :: '*' :: ' ' :: '@' :: (name.toList ++ rest)) =
        ⟨name, if (Text.trim rest).isEmpty then none else some (String.ofList (Text.trim rest))⟩ ::
          tags := by
    intro rest htrimmed hrest
    have hrow := stripMargin_row [' '] (List.all_eq_true.mp rfl) htrimmed (by simp)
    have htag := ofLine?_append hname hsolid hrest
    rw [String.ofList_toList] at htag
    exact addLine_tag hrow htag tags
  cases lines with
  | nil =>
    have htrimmed : Text.Trimmed ('@' :: (name.toList ++ [])) := by
      refine ⟨by rintro _ ⟨⟩; rfl, fun c hc => hsolid c ?_⟩
      rw [List.append_nil, List.getLast?_cons_of_ne_nil hname] at hc
      exact List.mem_of_getLast? hc
    have hrow := hheading htrimmed (by simp)
    rw [List.append_nil] at hrow
    refine Eq.trans (congrArg (addLine tags) ?_) hrow
    exact String.toList_append
  | cons first rest =>
    have hfirst := hlines first List.mem_cons_self
    have htrimmed : Text.Trimmed ('@' :: (name.toList ++ ' ' :: first.toList)) := by
      refine ⟨by rintro _ ⟨⟩; rfl, fun c hc => hfirst.trimmed.back c ?_⟩
      rwa [← List.cons_append, List.getLast?_append, List.getLast?_cons_of_ne_nil
        hfirst.toList_ne_nil, List.getLast?_eq_some_getLast hfirst.toList_ne_nil,
        Option.some_or, ← List.getLast?_eq_some_getLast] at hc
    have htrim : Text.trim (' ' :: first.toList) = first.toList :=
      (Text.trim_append [' '] (List.all_eq_true.mp rfl) _).trans hfirst.trimmed.trim_eq
    have hrow := hheading htrimmed (by rintro _ ⟨⟩; rfl)
    rw [htrim, List.isEmpty_eq_false_iff.mpr hfirst.toList_ne_nil] at hrow
    simpa [Written.heading] using hrow

/-- The lines that a comment goes on over are joined to it by single spaces. -/
theorem foldl_addLine_lines {lines : List String} (hlines : ∀ line ∈ lines, IsLine line)
    (hcontinues : ∀ line ∈ lines, Continues line) (name text : String) (before : List DocTag) :
    (lines.map (continuation · |>.toList)).foldl addLine (⟨name, some text⟩ :: before) =
      ⟨name, some (" ".intercalate (text :: lines))⟩ :: before := by
  induction lines generalizing text with
  | nil => simp
  | cons line lines ih =>
    rw [List.forall_mem_cons] at hlines hcontinues
    have hrow : stripMargin (continuation line).toList = line.toList := by
      rw [continuation, String.toList_append]
      exact stripMargin_row [' ', ' ', ' '] (List.all_eq_true.mp rfl) hlines.1.trimmed
        hcontinues.1.2
    rw [List.map_cons, List.foldl_cons,
      addLine_text hrow hlines.1.toList_ne_nil hcontinues.1.1, String.ofList_toList]
    exact (ih hlines.2 hcontinues.2 _).trans (by simp)

/-- All lines of a tag add the tag. -/
theorem foldl_addLine_rows (tag : Written) (before : List DocTag) :
    (tag.rows.map String.toList).foldl addLine before = tag.tag :: before := by
  rw [Written.rows, List.map_cons, List.foldl_cons, addLine_heading, List.map_map]
  obtain ⟨name, lines, -, -, hlines, hcontinues⟩ := tag
  cases lines with
  | nil => rfl
  | cons first rest =>
    exact foldl_addLine_lines (List.forall_mem_cons.mp hlines).2 hcontinues name first before

theorem foldl_addLine_written (tags : List Written) (before : List DocTag) :
    ((tags.flatMap Written.rows).map String.toList).foldl addLine before =
      (tags.map Written.tag).reverse ++ before := by
  induction tags generalizing before with
  | nil => rfl
  | cons tag tags ih =>
    rw [List.flatMap_cons, List.map_append, List.foldl_append, foldl_addLine_rows, ih]
    simp

/-- Of a comment the text between its marks is read. -/
theorem body_enclosed {text : List Char} (hfront : text.head? ≠ some '/')
    (hback : text.getLast? ≠ some '/') :
    body ("/**".toList ++ text ++ "*/".toList) = text := by
  have hopenings : ∀ {cs : List Char}, cs.head? ≠ some '/' → dropOpenings cs = cs := by
    intro cs hcs
    cases cs with
    | nil => rfl
    | cons c cs =>
      unfold dropOpenings
      split
      · simp_all
      · rfl
  have hclosings : ∀ {cs : List Char}, cs.head? ≠ some '/' → dropClosingsReversed cs = cs := by
    intro cs hcs
    cases cs with
    | nil => rfl
    | cons c cs =>
      unfold dropClosingsReversed
      split
      · simp_all
      · rfl
  have hrest : dropOpenings ("/**".toList ++ text ++ "*/".toList) = text ++ "*/".toList := by
    show dropOpenings (text ++ "*/".toList) = _
    refine hopenings ?_
    cases text with
    | nil => decide
    | cons c cs => exact hfront
  have hreverse : (text ++ "*/".toList).reverse = '/' :: '*' :: text.reverse := by
    rw [List.reverse_append]
    rfl
  rw [body, hrest, hreverse, dropClosingsReversed, hclosings (by rwa [List.head?_reverse]),
    List.reverse_reverse]

/-- No line that is written has a line feed in it. -/
theorem newline_notMem_rows (tag : Written) : ∀ row ∈ tag.rows, '\n' ∉ row.toList := by
  obtain ⟨name, lines, -, hsolid, hlines, -⟩ := tag
  have hname : '\n' ∉ name.toList := fun hmem => absurd (hsolid _ hmem) (by decide)
  intro row hrow
  rcases List.mem_cons.mp hrow with rfl | hrow
  · cases lines with
    | nil => simpa [Written.heading] using hname
    | cons first rest =>
      have hfirst := (hlines first List.mem_cons_self).single
      simpa [Written.heading] using ⟨hname, hfirst⟩
  · obtain ⟨line, hline, rfl⟩ := List.mem_map.mp hrow
    have hsingle := (hlines line (List.mem_of_mem_tail hline)).single
    simpa [continuation] using hsingle

/-- The lines of a comment, the marks around it left out. -/
theorem lines_body_rows {rows : List String} (hrows : ∀ row ∈ rows, '\n' ∉ row.toList) :
    Text.lines (body ("\n".intercalate ("/**" :: rows ++ [" */"])).toList) =
      [] :: rows.map String.toList ++ [[' ']] := by
  have hlast : ∀ first last : String, "\n".intercalate (first :: rows ++ [last]) =
      "\n".intercalate (first :: rows) ++ "\n" ++ last := fun first last => by
    rw [String.intercalate_append_of_ne_nil (by simp) (by simp), String.intercalate_singleton]
  have hmarks : "\n".intercalate ("/**" :: rows ++ [" */"]) =
      "/**" ++ "\n".intercalate ("" :: rows ++ [" "]) ++ "*/" := by
    rw [hlast, hlast, show "/**" = "/**" ++ "" from rfl, String.intercalate_cons_append,
      show " */" = " " ++ "*/" from rfl]
    simp only [String.append_assoc, String.empty_append]
  have hfront : ("\n".intercalate ("" :: rows ++ [" "])).toList.head? ≠ some '/' := by
    obtain ⟨first, rest, hcons⟩ : ∃ first rest, rows ++ [" "] = first :: rest :=
      List.exists_cons_of_ne_nil (by simp)
    simp [hcons]
  have hback : ("\n".intercalate ("" :: rows ++ [" "])).toList.getLast? ≠ some '/' := by
    rw [hlast, String.toList_append, List.getLast?_append]
    simp
  rw [hmarks, String.toList_append, String.toList_append, body_enclosed hfront hback,
    String.toList_intercalate]
  have hsingle : ∀ row ∈ [] :: rows.map String.toList ++ [[' ']], '\n' ∉ row := by
    simpa [or_imp, forall_and] using hrows
  have hlines := Text.lines_intercalate (by simp) hsingle
  simpa using hlines

/-- What is written is read. -/
theorem ofComment_written (description : List Description) (tags : List Written) :
    ofComment (written description tags) = tags.map Written.tag := by
  have hrows : ∀ row ∈ description.map Description.row ++ tags.flatMap Written.rows,
      '\n' ∉ row.toList := by
    rw [List.forall_mem_append, List.forall_mem_map]
    refine ⟨fun line _ => ?_, fun row hrow => ?_⟩
    · simpa [Description.row] using line.single
    · obtain ⟨tag, -, hrow⟩ := List.mem_flatMap.mp hrow
      exact newline_notMem_rows tag row hrow
  rw [ofComment, written, lines_body_rows hrows, List.cons_append, List.foldl_cons,
    List.foldl_append, addLine_blank rfl, List.map_append, List.foldl_append, List.map_map]
  have hdescription := foldl_addLine_descriptions description
  have htags := foldl_addLine_written tags []
  rw [show String.toList ∘ Description.row = (·.row.toList) from rfl, hdescription, htags,
    List.append_nil]
  rw [List.foldl_cons, List.foldl_nil, addLine_blank rfl, List.reverse_reverse]

/-- The name of the tag is a word without white space, and the comment on it, if there is one,
is a single line. -/
structure Clean (tag : DocTag) : Prop where
  name_ne_empty : tag.name ≠ ""
  solid : ∀ c ∈ tag.name.toList, Text.isBlank c = false
  comment : ∀ text ∈ tag.comment, IsLine text

theorem isLine_ofList {text : List Char} (hne : text ≠ []) (htrimmed : Text.Trimmed text)
    (hsingle : '\n' ∉ text) : IsLine (String.ofList text) where
  ne_empty hempty := hne (String.ofList_injective hempty)
  trimmed := by rwa [String.toList_ofList]
  single := by rwa [String.toList_ofList]

/-- Two lines with a space between them are one line. -/
theorem IsLine.join {text line : String} (htext : IsLine text) (hline : IsLine line) :
    IsLine (text ++ " " ++ line) where
  ne_empty hempty := by
    have hlist := congrArg String.toList hempty
    simp at hlist
  trimmed := by
    rw [String.toList_append, String.toList_append, List.append_assoc]
    refine ⟨fun c hc => htext.trimmed.front c ?_, fun c hc => hline.trimmed.back c ?_⟩
    · rwa [List.head?_append, List.head?_eq_some_head htext.toList_ne_nil, Option.some_or,
        ← List.head?_eq_some_head] at hc
    · rwa [List.getLast?_append, List.getLast?_append,
        List.getLast?_eq_some_getLast hline.toList_ne_nil, Option.some_or, Option.some_or,
        ← List.getLast?_eq_some_getLast] at hc
  single := by simpa using ⟨htext.single, hline.single⟩

theorem Clean.extend {tag : DocTag} (h : tag.Clean) {line : String} (hline : IsLine line) :
    (tag.extend line).Clean := by
  obtain ⟨name, comment⟩ := tag
  refine ⟨?_, ?_, fun text htext => ?_⟩
  · cases comment <;> exact h.name_ne_empty
  · cases comment <;> exact h.solid
  · cases comment with
    | none =>
      cases htext
      exact hline
    | some before =>
      cases htext
      exact (h.comment before rfl).join hline

theorem clean_of_ofLine? {text : List Char} {tag : DocTag} (h : ofLine? text = some tag)
    (hsingle : '\n' ∉ text) : tag.Clean := by
  unfold ofLine? at h
  split at h
  · cases h
  · next name hname =>
    cases h
    have hsolid : ∀ c ∈ text.takeWhile (!Text.isBlank ·), Text.isBlank c = false :=
      fun c hc => by simpa using List.mem_takeWhile_imp hc
    refine ⟨fun hempty => hname (String.ofList_injective hempty), ?_, fun comment hcomment => ?_⟩
    · simpa using hsolid
    · split at hcomment
      · cases hcomment
      · next hne =>
        cases hcomment
        refine isLine_ofList (by simpa using hne) (Text.trimmed_trim _) fun hmem => hsingle ?_
        exact List.dropWhile_subset _ (Text.trim_subset _ hmem)

theorem stripMargin_subset (line : List Char) : stripMargin line ⊆ line :=
  List.Subset.trans (Text.trim_subset _)
    (List.Subset.trans (List.dropWhile_subset _) (Text.trim_subset _))

/-- One more line leaves the tags clean. -/
theorem addLine_clean {tags : List DocTag} {line : List Char} (h : ∀ tag ∈ tags, tag.Clean)
    (hline : '\n' ∉ line) : ∀ tag ∈ addLine tags line, tag.Clean := by
  have hsingle : '\n' ∉ stripMargin line := fun hmem => hline (stripMargin_subset line hmem)
  unfold addLine
  split
  · exact h
  · next rest hstrip =>
    split
    · exact h
    · next tag htag =>
      refine List.forall_mem_cons.mpr ⟨clean_of_ofLine? htag fun hmem => hsingle ?_, h⟩
      rw [hstrip]
      exact List.mem_cons_of_mem _ hmem
  · exact h
  · next last before hne _ =>
    rw [List.forall_mem_cons] at h
    have htext := isLine_ofList hne (Text.trimmed_trim _) hsingle
    exact List.forall_mem_cons.mpr ⟨h.1.extend htext, h.2⟩

/-- Whatever a comment holds, its tags are clean. -/
theorem clean_of_mem_ofComment (comment : String) : ∀ tag ∈ ofComment comment, tag.Clean := by
  have hfold : ∀ (lines : List (List Char)) (tags : List DocTag), (∀ line ∈ lines, '\n' ∉ line) →
      (∀ tag ∈ tags, tag.Clean) → ∀ tag ∈ lines.foldl addLine tags, tag.Clean := by
    intro lines
    induction lines with
    | nil => exact fun tags _ htags => htags
    | cons line lines ih =>
      intro tags hlines htags
      rw [List.forall_mem_cons] at hlines
      exact ih _ hlines.2 (addLine_clean htags hlines.1)
  intro tag htag
  rw [ofComment, List.mem_reverse] at htag
  exact hfold _ [] (fun _ => Text.newline_notMem_of_mem_lines) (List.forall_mem_nil _) tag htag

/-- A comment with any lines of description and any tags is read as those tags, each with the
lines of its comment joined by single spaces. The tags of any comment at all have names without
white space, and comments that are single lines. -/
theorem read_as_written :
    (∀ (description : List Description) (tags : List Written),
      ofComment (written description tags) = tags.map Written.tag) ∧
    ∀ (comment : String), ∀ tag ∈ ofComment comment, tag.Clean :=
  ⟨ofComment_written, clean_of_mem_ofComment⟩

/-- A tag without a comment, and one whose comment goes on over a second line. -/
theorem read_as_written_vector :
    ofComment "/**\n * A point.\n * @schema\n * @deprecated use\n *   Vector instead\n */" =
        [⟨"schema", none⟩, ⟨"deprecated", some "use Vector instead"⟩] ∧
      Clean ⟨"deprecated", some "use Vector instead"⟩ := by
  have hsolid : ∀ name : List Char, name.all (!Text.isBlank ·) → ∀ c ∈ name,
      Text.isBlank c = false := fun name h c hc =>
    (Bool.not_eq_true' _).mp (List.all_eq_true.mp h c hc)
  let description : Description := ⟨"A point.", by decide, by decide, by decide⟩
  let schema : Written :=
    ⟨"schema", [], by decide, hsolid _ (by decide), by decide, by decide⟩
  let deprecated : Written :=
    ⟨"deprecated", ["use", "Vector instead"], by decide, hsolid _ (by decide), by decide,
      by decide⟩
  have hread : ofComment
      "/**\n * A point.\n * @schema\n * @deprecated use\n *   Vector instead\n */" =
      [⟨"schema", none⟩, ⟨"deprecated", some "use Vector instead"⟩] :=
    read_as_written.1 [description] [schema, deprecated]
  have hclean := read_as_written.2
    "/**\n * A point.\n * @schema\n * @deprecated use\n *   Vector instead\n */"
  rw [hread] at hclean
  exact ⟨hread, hclean _ (List.mem_cons_of_mem _ List.mem_cons_self)⟩

end DocTag

end DeclSchema
