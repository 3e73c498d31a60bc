/-!
# Tags

The tree of a document: a tag has a name, attributes in the order in which they were
first set, and content, which is tags and text. A tag without content is
self-closing.

`Tag.same` compares documents and not texts: the order of attributes does not matter
to it.
-/

namespace DeclSchema.Xml

/-- A part of a document: text, or a tag with its attributes and its content. -/
inductive Content where
  | text (value : String)
  | tag (name : String) (attributes : List (String × String)) (content : List Content)
deriving Repr, Inhabited

/-- A tag of a document. Content that is there but empty is not told apart from no content: there
is content only once a part is added, so that nothing ever makes a tag with the former. -/
structure Tag where
  name : String
  attributes : List (String × String)
  content : List Content
deriving Repr, Inhabited

namespace Content

/-- A tag as a part of a document. -/
def ofTag (tag : Tag) : Content :=
  .tag tag.name tag.attributes tag.content

/-- The tag that a part of a document is, if it is no text. -/
def tag? : Content → Option Tag
  | .text _ => none
  | .tag name attributes content => some ⟨name, attributes, content⟩

/-- Whether a part of a document is text. -/
def isText : Content → Bool
  | .text _ => true
  | .tag _ _ _ => false

@[simp] theorem tag?_ofTag (tag : Tag) : (ofTag tag).tag? = some tag := rfl

end Content

/-- The value of a key among attributes. -/
def valueOf? (key : String) (attributes : List (String × String)) : Option String :=
  attributes.lookup key

/-- Sets an attribute. A key that is there keeps its place. -/
def setValue (key value : String) : List (String × String) → List (String × String)
  | [] => [(key, value)]
  | (other, old) :: rest =>
    if other = key then (key, value) :: rest else (other, old) :: setValue key value rest

/-- Whether two lists of attributes say the same, in whatever order. -/
def sameAttributes (as bs : List (String × String)) : Bool :=
  as.length == bs.length && as.all fun (key, value) => valueOf? key bs == some value

namespace Content

/-- Whether two parts of documents say the same. -/
def same : Content → Content → Bool
  | .text a, .text b => a == b
  | .tag name attributes content, .tag name' attributes' content' =>
    name == name' && sameAttributes attributes attributes' && sameList content content'
  | _, _ => false
where
  /-- The same for each part of one list and the part of the other in its place. -/
  sameList : List Content → List Content → Bool
    | [], [] => true
    | a :: as, b :: bs => same a b && sameList as bs
    | _, _ => false

end Content

namespace Tag

/-- The tag of a name, with nothing in it. -/
def new (name : String) : Tag :=
  ⟨name, [], []⟩

/-- The tag with an attribute set. -/
def set (tag : Tag) (key value : String) : Tag :=
  { tag with attributes := setValue key value tag.attributes }

/-- The tag with text behind its content. -/
def addText (tag : Tag) (text : String) : Tag :=
  { tag with content := tag.content ++ [.text text] }

/-- The tag with another one behind its content. -/
def addTag (tag child : Tag) : Tag :=
  { tag with content := tag.content ++ [Content.ofTag child] }

/-- The tag with others behind its content. -/
def addTags (tag : Tag) (tags : List Tag) : Tag :=
  { tag with content := tag.content ++ tags.map Content.ofTag }

/-- A tag inside others, each of which is put behind the content of the one before. -/
def nest (chain : List Tag) (inner : Tag) : Tag :=
  chain.foldr addTag inner

/-- The value of an attribute. -/
def value? (tag : Tag) (key : String) : Option String :=
  valueOf? key tag.attributes

/-- The tags in the content. -/
def children (tag : Tag) : List Tag :=
  tag.content.filterMap Content.tag?

/-- Whether there is nothing in the tag. -/
def isSelfClosing (tag : Tag) : Bool :=
  tag.content.isEmpty

/-- The tag with its content in the order of a rank. What has the same rank stays in
order. -/
def sortBy (rank : Content → Int) (tag : Tag) : Tag :=
  { tag with content := tag.content.mergeSort fun a b => rank a ≤ rank b }

/-- Whether two tags say the same. -/
def same (a b : Tag) : Bool :=
  Content.same (Content.ofTag a) (Content.ofTag b)

@[simp] theorem name_set (tag : Tag) (key value : String) : (tag.set key value).name = tag.name :=
  rfl

@[simp] theorem content_set (tag : Tag) (key value : String) :
    (tag.set key value).content = tag.content := rfl

@[simp] theorem children_set (tag : Tag) (key value : String) :
    (tag.set key value).children = tag.children := rfl

theorem valueOf?_setValue (key value other : String) (attributes : List (String × String)) :
    valueOf? other (setValue key value attributes) =
      if other = key then some value else valueOf? other attributes := by
  induction attributes with
  | nil =>
    by_cases h : other = key
    · simp [setValue, valueOf?, h]
    · have hne : (other == key) = false := beq_false_of_ne h
      simp [setValue, valueOf?, List.lookup_cons, h, hne]
  | cons pair rest ih =>
    obtain ⟨name, old⟩ := pair
    simp only [valueOf?] at ih
    rw [setValue]
    split
    · next hname =>
      by_cases h : other = key
      · simp [valueOf?, h]
      · have hne : (other == key) = false := beq_false_of_ne h
        simp [valueOf?, List.lookup_cons, hname, h, hne]
    · next hname =>
      by_cases h : other = name
      · subst h
        simp [valueOf?, hname]
      · have hne : (other == name) = false := beq_false_of_ne h
        simp [valueOf?, List.lookup_cons, hne, ih]

@[simp] theorem value?_set (tag : Tag) (key value other : String) :
    (tag.set key value).value? other = if other = key then some value else tag.value? other :=
  valueOf?_setValue key value other tag.attributes

@[simp] theorem name_addTag (tag child : Tag) : (tag.addTag child).name = tag.name := rfl

@[simp] theorem value?_addTag (tag child : Tag) (key : String) :
    (tag.addTag child).value? key = tag.value? key := rfl

@[simp] theorem content_addTag (tag child : Tag) :
    (tag.addTag child).content = tag.content ++ [Content.ofTag child] := rfl

@[simp] theorem children_addTag (tag child : Tag) :
    (tag.addTag child).children = tag.children ++ [child] := by
  simp [children]

@[simp] theorem name_addTags (tag : Tag) (tags : List Tag) : (tag.addTags tags).name = tag.name :=
  rfl

@[simp] theorem value?_addTags (tag : Tag) (tags : List Tag) (key : String) :
    (tag.addTags tags).value? key = tag.value? key := rfl

@[simp] theorem content_addTags (tag : Tag) (tags : List Tag) :
    (tag.addTags tags).content = tag.content ++ tags.map Content.ofTag := rfl

@[simp] theorem children_addTags (tag : Tag) (tags : List Tag) :
    (tag.addTags tags).children = tag.children ++ tags := by
  simp [children, List.filterMap_map, Function.comp_def]

@[simp] theorem name_sortBy (tag : Tag) (rank : Content → Int) : (tag.sortBy rank).name = tag.name :=
  rfl

@[simp] theorem value?_sortBy (tag : Tag) (rank : Content → Int) (key : String) :
    (tag.sortBy rank).value? key = tag.value? key := rfl

@[simp] theorem name_new (name : String) : (new name).name = name := rfl

@[simp] theorem content_new (name : String) : (new name).content = [] := rfl

@[simp] theorem children_new (name : String) : (new name).children = [] := rfl

@[simp] theorem value?_new (name key : String) : (new name).value? key = none := rfl

@[simp] theorem nest_nil (inner : Tag) : nest [] inner = inner := rfl

@[simp] theorem nest_cons (outer : Tag) (chain : List Tag) (inner : Tag) :
    nest (outer :: chain) inner = outer.addTag (nest chain inner) := rfl

end Tag

end DeclSchema.Xml
