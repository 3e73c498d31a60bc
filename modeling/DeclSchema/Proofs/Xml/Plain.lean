import DeclSchema.Xml.Layout
import Mathlib.Data.List.Basic

/-!
# Documents of tags alone

The documents that schemas are written as hold no text: what varies in them is the values
of attributes. `Plain` says that a document is of this kind, `Tag.values` lists its values
in order, and `Tag.mapValues` changes each of them. The lines of a plain document have a
description by the tags in it, which is the only one that later proofs use.
-/

namespace DeclSchema.Xml

/-- A statement about every character in a list is decided along the list, and not by going
through all characters that there are. -/
instance decidableForallMem (cs : List Char) (P : Char → Prop) [DecidablePred P] :
    Decidable (∀ c ∈ cs, P c) :=
  List.decidableBAll P cs

/-- Whether a character may stand in a name. -/
def isNameChar (c : Char) : Bool :=
  c.isAlphanum || c == ':' || c == '-' || c == '_' || c == '.'

/-- Whether a text is a name. -/
def IsName (text : String) : Prop :=
  text.toList ≠ [] ∧ ∀ c ∈ text.toList, isNameChar c

instance (text : String) : Decidable (IsName text) :=
  inferInstanceAs (Decidable (_ ∧ _))

/-- The characters that are written as references in a value. -/
def marks : List Char :=
  ['&', '<', '>', '"']

/-- A character that is no mark is written as it is. -/
theorem escapeChar_of_not_mem {c : Char} (h : c ∉ marks) : escapeChar true c = [c] := by
  unfold escapeChar
  split
  · exact absurd (by decide) h
  · exact absurd (by decide) h
  · exact absurd (by decide) h
  · exact absurd (by decide) h
  · rfl

/-- What holds of the few marks as they are written, and of all other characters, holds of
every character as it is written. -/
theorem escapeChar_cases {P : Char → List Char → Prop}
    (hmarks : ∀ c ∈ marks, P c (escapeChar true c)) (hothers : ∀ c ∉ marks, P c [c]) (c : Char) :
    P c (escapeChar true c) := by
  by_cases h : c ∈ marks
  · exact hmarks c h
  · rw [escapeChar_of_not_mem h]
    exact hothers c h

/-- A tag and all tags in it have names and named attributes, and there is no text in
them. -/
inductive Plain : Tag → Prop
  | intro {tag : Tag} (name : IsName tag.name) (keys : ∀ pair ∈ tag.attributes, IsName pair.1)
    (textless : ∀ part ∈ tag.content, part.isText = false)
    (children : ∀ child ∈ tag.children, Plain child) : Plain tag

namespace Content

/-- Every part of a document is text, or a tag with parts that are smaller. -/
@[elab_as_elim]
theorem induction {motive : Content → Prop} (text : ∀ value, motive (.text value))
    (tag : ∀ name attributes content, (∀ part ∈ content, motive part) →
      motive (.tag name attributes content)) : ∀ part, motive part :=
  @Content.rec motive (fun parts => ∀ part ∈ parts, motive part) text tag
    (List.forall_mem_nil motive) fun _ _ hpart hrest => List.forall_mem_cons.mpr ⟨hpart, hrest⟩

/-- The values of attributes in a part of a document, in order. -/
def values : Content → List String
  | .text _ => []
  | .tag _ attributes content => attributes.map (·.2) ++ valuesOf content
where
  /-- The values in several parts. -/
  valuesOf : List Content → List String
    | [] => []
    | part :: rest => values part ++ valuesOf rest

/-- A part of a document with each value of an attribute changed. -/
def mapValues (f : String → String) : Content → Content
  | .text value => .text value
  | .tag name attributes content =>
    .tag name (attributes.map fun (key, value) => (key, f value)) (mapValuesOf content)
where
  /-- The same for several parts. -/
  mapValuesOf : List Content → List Content
    | [] => []
    | part :: rest => mapValues f part :: mapValuesOf rest

theorem valuesOf_eq (parts : List Content) : values.valuesOf parts = parts.flatMap values := by
  induction parts with
  | nil => rfl
  | cons part rest ih => simp [values.valuesOf, ih]

theorem mapValuesOf_eq (f : String → String) (parts : List Content) :
    mapValues.mapValuesOf f parts = parts.map (mapValues f) := by
  induction parts with
  | nil => rfl
  | cons part rest ih => simp [mapValues.mapValuesOf, ih]

/-- A change keeps a part of a document exactly if it keeps all values in it. -/
theorem mapValues_eq_self_iff {f : String → String} {part : Content} :
    part.mapValues f = part ↔ ∀ value ∈ part.values, f value = value := by
  have hmap : ∀ {α : Type} {g : α → α} {items : List α},
      items.map g = items ↔ ∀ item ∈ items, g item = item := by
    intro α g items
    simpa using List.map_inj_left (f := g) (g := id)
  induction part using induction with
  | text value => simp [mapValues, values]
  | tag name attributes content ih =>
    have hcontent : content.map (mapValues f) = content ↔
        ∀ value ∈ content.flatMap values, f value = value := by
      rw [hmap, List.forall_mem_flatMap]
      exact forall₂_congr ih
    have hattributes : (attributes.map fun (key, value) => (key, f value)) = attributes ↔
        ∀ value ∈ attributes.map (·.2), f value = value := by
      rw [hmap, List.forall_mem_map]
      exact forall₂_congr fun pair _ => by simp [Prod.ext_iff]
    rw [mapValues, values, mapValuesOf_eq, valuesOf_eq, List.forall_mem_append, ← hcontent,
      ← hattributes]
    simp

theorem mapValues_mapValues (f g : String → String) (part : Content) :
    (part.mapValues f).mapValues g = part.mapValues (g ∘ f) := by
  induction part using induction with
  | text value => rfl
  | tag name attributes content ih =>
    have hcontent : (content.map (mapValues f)).map (mapValues g) =
        content.map (mapValues (g ∘ f)) := by
      rw [List.map_map]
      exact List.map_congr_left ih
    simp only [mapValues, mapValuesOf_eq, hcontent, List.map_map]
    rfl

theorem ofTag_injective : Function.Injective ofTag := by
  intro tag other h
  exact Option.some.inj (congrArg tag? h)

end Content

theorem mem_setValue {key value : String} {attributes : List (String × String)}
    {pair : String × String} (h : pair ∈ setValue key value attributes) :
    pair = (key, value) ∨ pair ∈ attributes := by
  induction attributes with
  | nil => exact .inl (List.mem_singleton.mp h)
  | cons first rest ih =>
    rw [setValue] at h
    split at h
    · rcases List.mem_cons.mp h with rfl | h
      · exact .inl rfl
      · exact .inr (List.mem_cons_of_mem _ h)
    · rcases List.mem_cons.mp h with rfl | h
      · exact .inr List.mem_cons_self
      · exact (ih h).imp_right (List.mem_cons_of_mem _)

/-- A key that is not there is put behind the others. -/
theorem setValue_of_absent {key : String} (value : String) {attributes : List (String × String)}
    (h : ∀ pair ∈ attributes, pair.1 ≠ key) :
    setValue key value attributes = attributes ++ [(key, value)] := by
  induction attributes with
  | nil => rfl
  | cons first rest ih =>
    obtain ⟨hfirst, hrest⟩ := List.forall_mem_cons.mp h
    rw [setValue, if_neg hfirst, ih hrest, List.cons_append]

namespace Tag

@[simp] theorem attributes_new (name : String) : (new name).attributes = [] := rfl

@[simp] theorem attributes_set (tag : Tag) (key value : String) :
    (tag.set key value).attributes = setValue key value tag.attributes := rfl

@[simp] theorem attributes_addTag (tag child : Tag) :
    (tag.addTag child).attributes = tag.attributes := rfl

@[simp] theorem attributes_addTags (tag : Tag) (tags : List Tag) :
    (tag.addTags tags).attributes = tag.attributes := rfl

@[simp] theorem attributes_sortBy (tag : Tag) (rank : Content → Int) :
    (tag.sortBy rank).attributes = tag.attributes := rfl

/-- Sorting changes the order of the tags in a tag, and nothing else. -/
theorem children_sortBy (tag : Tag) (rank : Content → Int) :
    (tag.sortBy rank).children.Perm tag.children :=
  (List.mergeSort_perm _ _).filterMap _

/-- The values of attributes in a tag and the tags in it, in order. -/
def values (tag : Tag) : List String :=
  (Content.ofTag tag).values

/-- A tag with each value of an attribute in it changed. -/
def mapValues (f : String → String) (tag : Tag) : Tag :=
  ⟨tag.name, tag.attributes.map fun (key, value) => (key, f value),
    tag.content.map (Content.mapValues f)⟩

theorem ofTag_mapValues (f : String → String) (tag : Tag) :
    Content.ofTag (tag.mapValues f) = (Content.ofTag tag).mapValues f := by
  rw [Content.ofTag, Content.ofTag, Content.mapValues, Content.mapValuesOf_eq]
  rfl

@[simp] theorem name_mapValues (f : String → String) (tag : Tag) :
    (tag.mapValues f).name = tag.name := rfl

@[simp] theorem attributes_mapValues (f : String → String) (tag : Tag) :
    (tag.mapValues f).attributes = tag.attributes.map fun (key, value) => (key, f value) := rfl

@[simp] theorem children_mapValues (f : String → String) (tag : Tag) :
    (tag.mapValues f).children = tag.children.map (mapValues f) := by
  have hchild : ∀ part : Content,
      (part.mapValues f).tag? = part.tag?.map (mapValues f) := by
    intro part
    cases part with
    | text value => rfl
    | tag name attributes content =>
      rw [Content.mapValues, Content.mapValuesOf_eq]
      rfl
  simp [children, mapValues, List.filterMap_map, List.map_filterMap, hchild]

/-- A change keeps a tag exactly if it keeps all values in it. -/
theorem mapValues_eq_self_iff {f : String → String} {tag : Tag} :
    tag.mapValues f = tag ↔ ∀ value ∈ tag.values, f value = value := by
  rw [values, ← Content.mapValues_eq_self_iff, ← ofTag_mapValues]
  exact Content.ofTag_injective.eq_iff.symm

theorem mapValues_mapValues (f g : String → String) (tag : Tag) :
    (tag.mapValues f).mapValues g = tag.mapValues (g ∘ f) := by
  apply Content.ofTag_injective
  simp only [ofTag_mapValues, Content.mapValues_mapValues]

/-- A value in a tag is one of its own, or one of a tag in it. -/
theorem mem_values {tag : Tag} {value : String} :
    value ∈ tag.values ↔ (∃ pair ∈ tag.attributes, pair.2 = value) ∨
      ∃ child ∈ tag.children, value ∈ child.values := by
  have hparts : (∃ part ∈ tag.content, value ∈ part.values) ↔
      ∃ child ∈ tag.children, value ∈ child.values := by
    simp only [children, List.mem_filterMap]
    constructor
    · rintro ⟨part, hpart, hvalue⟩
      cases part with
      | text text => cases hvalue
      | tag name attributes content => exact ⟨_, ⟨_, hpart, rfl⟩, hvalue⟩
    · rintro ⟨child, ⟨part, hpart, hchild⟩, hvalue⟩
      cases part with
      | text text => cases hchild
      | tag name attributes content =>
        cases hchild
        exact ⟨_, hpart, hvalue⟩
  rw [← hparts, values, Content.ofTag, Content.values, Content.valuesOf_eq]
  simp

theorem forall_mem_values {tag : Tag} {P : String → Prop} :
    (∀ value ∈ tag.values, P value) ↔ (∀ pair ∈ tag.attributes, P pair.2) ∧
      ∀ child ∈ tag.children, ∀ value ∈ child.values, P value := by
  constructor
  · intro h
    exact ⟨fun pair hpair => h _ (mem_values.mpr (.inl ⟨pair, hpair, rfl⟩)),
      fun child hchild value hvalue => h _ (mem_values.mpr (.inr ⟨child, hchild, hvalue⟩))⟩
  · rintro ⟨hattributes, hchildren⟩ value hvalue
    rcases mem_values.mp hvalue with ⟨pair, hpair, rfl⟩ | ⟨child, hchild, hvalue⟩
    · exact hattributes pair hpair
    · exact hchildren child hchild value hvalue

@[simp] theorem values_new (name : String) : (new name).values = [] := rfl

theorem mem_values_set {tag : Tag} {key : String} (habsent : ∀ pair ∈ tag.attributes, pair.1 ≠ key)
    {value other : String} : other ∈ (tag.set key value).values ↔ other ∈ tag.values ∨ other = value := by
  rw [mem_values, mem_values, attributes_set, setValue_of_absent value habsent, children_set]
  simp only [List.mem_append, List.mem_singleton, or_and_right, exists_or, exists_eq_left,
    or_right_comm, eq_comm (a := value)]

theorem mem_values_addTags {tag : Tag} {tags : List Tag} {value : String} :
    value ∈ (tag.addTags tags).values ↔ value ∈ tag.values ∨ ∃ child ∈ tags, value ∈ child.values := by
  rw [mem_values, mem_values, attributes_addTags, children_addTags]
  simp only [List.mem_append, or_and_right, exists_or, or_assoc]

theorem mem_values_sortBy {tag : Tag} {rank : Content → Int} {value : String} :
    value ∈ (tag.sortBy rank).values ↔ value ∈ tag.values := by
  rw [mem_values, mem_values, attributes_sortBy]
  simp only [(tag.children_sortBy rank).mem_iff]

end Tag

namespace Plain

variable {tag child : Tag}

/-- The content of a plain tag is the tags in it. -/
theorem content_eq (h : Plain tag) : tag.content = tag.children.map Content.ofTag := by
  obtain ⟨-, -, textless, -⟩ := h
  rw [Tag.children, List.map_filterMap]
  refine (List.filterMap_eq_map_iff_forall_eq_some.mpr ?_).trans (List.map_id _) |>.symm
  intro part hpart
  cases part with
  | text value => cases textless _ hpart
  | tag name attributes content => rfl

theorem new {name : String} (h : IsName name) : Plain (Tag.new name) := by
  constructor <;> simp [h]

theorem set {key : String} (h : Plain tag) (hkey : IsName key) (value : String) :
    Plain (tag.set key value) := by
  obtain ⟨name, keys, textless, children⟩ := h
  refine ⟨name, ?_, textless, children⟩
  intro pair hpair
  rcases mem_setValue hpair with rfl | hpair
  · exact hkey
  · exact keys pair hpair

theorem addTags {tags : List Tag} (h : Plain tag) (htags : ∀ other ∈ tags, Plain other) :
    Plain (tag.addTags tags) := by
  obtain ⟨name, keys, textless, children⟩ := h
  refine ⟨name, keys, ?_, ?_⟩
  · rw [Tag.content_addTags, List.forall_mem_append]
    exact ⟨textless, by simp [Content.ofTag, Content.isText]⟩
  · rw [Tag.children_addTags, List.forall_mem_append]
    exact ⟨children, htags⟩

theorem sortBy (h : Plain tag) (rank : Content → Int) : Plain (tag.sortBy rank) := by
  obtain ⟨name, keys, textless, children⟩ := h
  refine ⟨name, keys, ?_, ?_⟩
  · intro part hpart
    exact textless part (List.mem_mergeSort.mp hpart)
  · intro child hchild
    exact children child ((tag.children_sortBy rank).mem_iff.mp hchild)

theorem mapValues (h : Plain tag) (f : String → String) : Plain (tag.mapValues f) := by
  induction h with
  | @intro tag name keys textless children ih =>
    refine ⟨name, List.forall_mem_map.mpr keys, ?_, by simpa using ih⟩
    intro part hpart
    obtain ⟨other, hother, rfl⟩ := List.mem_map.mp hpart
    have htext := textless other hother
    cases other with
    | text value => cases htext
    | tag name attributes content => rfl

end Plain

theorem linesOf_eq (depth : Nat) (parts : List Content) :
    Content.lines.linesOf depth parts = parts.flatMap (Content.lines depth) := by
  induction parts with
  | nil => rfl
  | cons part rest ih => simp [Content.lines.linesOf, ih]

/-- A plain tag has one line if it is empty, and otherwise the lines of the tags in it
between the one that opens it and the one that closes it. -/
theorem lines_plain {tag : Tag} (h : Plain tag) (depth : Nat) :
    (Content.ofTag tag).lines depth =
      if tag.children = [] then [⟨depth, openingText tag.name tag.attributes ++ "/>"⟩]
      else ⟨depth, openingText tag.name tag.attributes ++ ">"⟩ ::
        tag.children.flatMap (fun child => (Content.ofTag child).lines (depth + 1)) ++
        [⟨depth, closingText tag.name⟩] := by
  have hcontent := h.content_eq
  rw [Content.ofTag, Content.lines, linesOf_eq]
  by_cases hnil : tag.children = []
  · simp [hcontent, hnil]
  · obtain ⟨child, hchild⟩ := List.exists_mem_of_ne_nil _ hnil
    have htext : ∃ other ∈ tag.children, (Content.ofTag other).isText = false :=
      ⟨child, hchild, rfl⟩
    simpa [hcontent, hnil, List.flatMap_map] using htext

/-- The characters of lines, each with a line end before it. -/
def laidOut (level : Nat) (unit : String) (lines : List Line) : List Char :=
  lines.flatMap fun line =>
    '\n' :: ((indentation unit (level + line.depth)).toList ++ line.text.toList)

theorem laidOut_append (level : Nat) (unit : String) (lines others : List Line) :
    laidOut level unit (lines ++ others) = laidOut level unit lines ++ laidOut level unit others :=
  List.flatMap_append

/-- A tag as text is its lines without the first line end. -/
theorem laidOut_lines (tag : Tag) (level : Nat) (unit : String) :
    laidOut level unit tag.lines = '\n' :: (tag.render level unit).toList := by
  have hjoin : ∀ {texts : List String}, texts ≠ [] →
      texts.flatMap (fun text => '\n' :: text.toList) =
        '\n' :: ("\n".intercalate texts).toList := by
    intro texts hne
    induction texts with
    | nil => exact absurd rfl hne
    | cons text rest ih =>
      cases rest with
      | nil => simp
      | cons other rest => simp [ih, String.intercalate_cons_cons]
  have hlines : tag.lines ≠ [] := by
    rw [Tag.lines, Content.ofTag, Content.lines]
    split_ifs <;> simp
  rw [Tag.render, ← hjoin (by simpa using hlines), List.flatMap_map, laidOut]
  simp

end DeclSchema.Xml
