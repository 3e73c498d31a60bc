import DeclSchema.Extraction.Basic
import DeclSchema.Proofs.Traversal
import Mathlib.Data.List.Induction

/-!
# No declaration is lost

Extraction folds over the selected declarations and keeps two lists, the elements and
the diagnostics. Here the two are shown to come from one list with one entry for each
declaration, in the order of the source: an element, or the diagnostic for which the
declaration was dropped. `entries` is that list, `add_ofEntries` the step of the fold, and
`ofSource_accounts` the account of a whole source.
-/

namespace DeclSchema

namespace Resolution

theorem literal?_ne_duplicate (node : Node) : literal? node ≠ .error .duplicate := by
  unfold literal?
  grind

theorem mapM_literal?_ne_duplicate (nodes : List Node) :
    nodes.mapM literal? ≠ .error .duplicate := by
  intro h
  obtain ⟨node, -, hnode⟩ := exists_of_mapM_error h
  exact literal?_ne_duplicate node hnode

theorem ofLiterals_ne_duplicate (children : List Node) :
    ofLiterals children ≠ .error .duplicate := by
  have hm := mapM_literal?_ne_duplicate children
  unfold ofLiterals
  cases h : children.mapM literal? with
  | error e => simpa [bind, Except.bind, h] using hm
  | ok values =>
    simp only [bind, Except.bind]
    split <;> simp

theorem ofText_ne_duplicate (kind : NodeKind) (text : Option String) :
    ofText kind text ≠ .error .duplicate := by
  unfold ofText
  grind

theorem ofNested_ne_duplicate (kind : NodeKind) (types : List TypeVariant) :
    ofNested kind types ≠ .error .duplicate := by
  unfold ofNested
  grind

mutual

/-- The cause `duplicate` is about a whole declaration, and no type gives it. -/
theorem ofNode_ne_duplicate : ∀ node : Node, ofNode node ≠ .error .duplicate
  | ⟨kind, text, tags, span, children⟩ => by
    have hfirst := fun missing accepts => ofFirst_ne_duplicate missing accepts children
    have htypes := typesOf_ne_duplicate children
    have hliterals := ofLiterals_ne_duplicate children
    have htext := ofText_ne_duplicate kind text
    have hnested := ofNested_ne_duplicate kind
    unfold ofNode
    split
    · simp
    · grind

theorem ofFirst_ne_duplicate (missing : ExtractionError) (accepts : NodeKind → Bool) :
    ∀ nodes : List Node, missing ≠ .duplicate →
      ofFirst missing accepts nodes ≠ .error .duplicate
  | [], hmissing => by simpa [ofFirst] using hmissing
  | node :: rest, hmissing => by
    have hnode := ofNode_ne_duplicate node
    have hrest := ofFirst_ne_duplicate missing accepts rest hmissing
    rw [ofFirst]
    split
    · exact hnode
    · exact hrest

theorem typesOf_ne_duplicate : ∀ nodes : List Node, typesOf nodes ≠ .error .duplicate
  | [] => by simp [typesOf]
  | node :: rest => by
    have hnode := ofNode_ne_duplicate node
    have hrest := typesOf_ne_duplicate rest
    unfold typesOf
    grind

end

end Resolution

namespace Extraction

theorem property_ne_duplicate (node : Node) : property node ≠ .error .duplicate := by
  unfold property
  have htype := Resolution.ofNode_ne_duplicate
  grind

theorem mapM_property_ne_duplicate (members : List Node) :
    members.mapM property ≠ .error .duplicate := by
  intro h
  obtain ⟨member, -, hmember⟩ := exists_of_mapM_error h
  exact property_ne_duplicate member hmember

theorem elementOf_ne_duplicate (what : String) (members : List Node) (node : Node) :
    elementOf what members node ≠ .error .duplicate := by
  have hm := mapM_property_ne_duplicate members
  unfold elementOf
  cases declaredName node with
  | none => simp
  | some name =>
    cases h : members.mapM property with
    | error e => simpa [bind, Except.bind, h] using hm
    | ok properties => simp [bind, Except.bind, pure, Except.pure]

/-- Whether a name is taken is not known from the declaration alone. -/
theorem outcome_ne_duplicate (parse : Parse) (node : Node) :
    outcome parse node ≠ .error .duplicate := by
  unfold outcome element
  split
  · simp
  · split <;> exact elementOf_ne_duplicate _ _ _

/-- The element that a declaration gives, or the diagnostic for which it is dropped. -/
abbrev Entry := Element ⊕ Diagnostic

/-- Whether one of the entries is an element of the given name. -/
def Taken (entries : List Entry) (name : String) : Prop :=
  ∃ element, Sum.inl element ∈ entries ∧ element.name = name

/-- The entry of a declaration behind those of the declarations before it. -/
def entry (parse : Parse) (before : List Entry) (node : Node) : Entry :=
  match outcome parse node with
  | .ok element =>
    if (before.filterMap Sum.getLeft?).any (·.name == element.name) then
      .inr ⟨declaredName node, .duplicate⟩
    else
      .inl element
  | .error error => .inr ⟨declaredName node, error⟩

/-- The entries of several declarations, in their order. -/
def entries (parse : Parse) (nodes : List Node) : List Entry :=
  nodes.foldl (fun before node => before ++ [entry parse before node]) []

/-- The extraction that consists of the given entries and stray errors. -/
def ofEntries (entries : List Entry) (stray : List ParseError) : Extraction :=
  ⟨entries.filterMap Sum.getLeft?, entries.filterMap Sum.getRight?, stray⟩

theorem elements_ofEntries (entries : List Entry) (stray : List ParseError) :
    (ofEntries entries stray).elements = entries.filterMap Sum.getLeft? :=
  rfl

theorem any_name_iff_taken (before : List Entry) (name : String) :
    (before.filterMap Sum.getLeft?).any (·.name == name) ↔ Taken before name := by
  simp only [List.any_eq_true, List.mem_filterMap, Sum.getLeft?_eq_some_iff, beq_iff_eq, Taken]
  constructor
  · rintro ⟨element, ⟨e, he, rfl⟩, hname⟩
    exact ⟨element, he, hname⟩
  · rintro ⟨element, he, hname⟩
    exact ⟨element, ⟨_, he, rfl⟩, hname⟩

/-- Adding a declaration adds its entry and nothing else. -/
theorem add_ofEntries (parse : Parse) (before : List Entry) (stray : List ParseError)
    (node : Node) :
    add parse (ofEntries before stray) node =
      ofEntries (before ++ [entry parse before node]) stray := by
  unfold add entry
  cases outcome parse node with
  | error error => simp [ofEntries]
  | ok element =>
    by_cases h : (before.filterMap Sum.getLeft?).any (·.name == element.name)
    · simp only [ofEntries, h, if_true]
      simp
    · simp only [ofEntries, h, if_false, Bool.false_eq_true]
      simp

@[simp] theorem entries_nil (parse : Parse) : entries parse [] = [] := rfl

@[simp] theorem entries_concat (parse : Parse) (nodes : List Node) (node : Node) :
    entries parse (nodes ++ [node]) =
      entries parse nodes ++ [entry parse (entries parse nodes) node] := by
  simp [entries, List.foldl_append]

/-- The whole fold, from the step. -/
theorem foldl_add (parse : Parse) (stray : List ParseError) (nodes : List Node) :
    nodes.foldl (add parse) ⟨[], [], stray⟩ = ofEntries (entries parse nodes) stray := by
  induction nodes using List.reverseRecOn with
  | nil => rfl
  | append_singleton nodes node ih =>
    rw [List.foldl_append, ih, List.foldl_cons, List.foldl_nil, add_ofEntries, entries_concat]

@[simp] theorem length_entries (parse : Parse) (nodes : List Node) :
    (entries parse nodes).length = nodes.length := by
  induction nodes using List.reverseRecOn with
  | nil => rfl
  | append_singleton nodes node ih => simp [ih]

/-- An entry depends only on the declarations before its own. -/
theorem getElem?_entries (parse : Parse) (nodes : List Node) (i : Nat) :
    (entries parse nodes)[i]? =
      nodes[i]?.map (entry parse ((entries parse nodes).take i)) := by
  induction nodes using List.reverseRecOn with
  | nil => simp
  | append_singleton nodes node ih =>
    rw [entries_concat]
    rcases Nat.lt_trichotomy i nodes.length with h | h | h
    · rw [List.getElem?_append_left (by simpa using h), List.getElem?_append_left h, ih,
        List.take_append_of_le_length (by simpa using Nat.le_of_lt h)]
    · subst h
      simp
    · rw [List.getElem?_eq_none (by simp; omega), List.getElem?_eq_none (by simp; omega)]
      rfl

/-- The names of the elements among entries are distinct. -/
theorem nodup_names_entries (parse : Parse) (nodes : List Node) {stray : List ParseError} :
    ((ofEntries (entries parse nodes) stray).elements.map Element.name).Nodup := by
  rw [elements_ofEntries]
  induction nodes using List.reverseRecOn with
  | nil => simp
  | append_singleton nodes node ih =>
    rw [entries_concat, List.filterMap_append, List.map_append]
    unfold entry
    cases outcome parse node with
    | error error => simpa [List.filterMap_cons] using ih
    | ok element =>
      by_cases h : ((entries parse nodes).filterMap Sum.getLeft?).any (·.name == element.name)
      · simpa [h, List.filterMap_cons] using ih
      · simp only [h, Bool.false_eq_true, if_false]
        rw [List.nodup_append]
        refine ⟨ih, by simp, ?_⟩
        simp only [List.any_eq_true, not_exists, not_and, beq_iff_eq] at h
        intro a ha b hb
        obtain ⟨other, hother, rfl⟩ := List.mem_map.mp ha
        simp only [List.filterMap_cons, Sum.getLeft?_inl, List.filterMap_nil, List.map_cons,
          List.map_nil, List.mem_singleton] at hb
        subst hb
        exact h other hother

theorem length_getLeft?_add_length_getRight? (entries : List Entry) :
    (entries.filterMap Sum.getLeft?).length + (entries.filterMap Sum.getRight?).length =
      entries.length := by
  induction entries with
  | nil => rfl
  | cons e rest ih => cases e <;> simp [List.filterMap_cons] <;> omega

/-- A declaration is an element exactly if it can become one and its name is free. -/
theorem entry_eq_inl_iff (parse : Parse) (before : List Entry) (node : Node)
    (element : Element) :
    entry parse before node = .inl element ↔
      outcome parse node = .ok element ∧ ¬ Taken before element.name := by
  rw [← any_name_iff_taken]
  unfold entry
  cases outcome parse node with
  | error error => simp
  | ok other =>
    dsimp only
    split <;> simp <;> grind

/-- A declaration is a duplicate exactly if it could become an element of a name that
is taken. -/
theorem entry_eq_duplicate_iff (parse : Parse) (before : List Entry) (node : Node) :
    entry parse before node = .inr ⟨declaredName node, .duplicate⟩ ↔
      ∃ element, outcome parse node = .ok element ∧ Taken before element.name := by
  have hduplicate := outcome_ne_duplicate parse node
  simp only [← any_name_iff_taken]
  unfold entry
  cases h : outcome parse node with
  | error error =>
    rw [h] at hduplicate
    simpa using fun heq => hduplicate (congrArg Except.error heq)
  | ok other =>
    dsimp only
    split <;> simp_all

/-- A declaration that cannot become an element is dropped for the cause of that. -/
theorem entry_of_outcome_error (parse : Parse) (before : List Entry) (node : Node)
    {error : ExtractionError} (h : outcome parse node = .error error) :
    entry parse before node = .inr ⟨declaredName node, error⟩ := by
  simp [entry, h]

/-- The first error in a declaration wins over everything else. -/
theorem outcome_of_find? (parse : Parse) (node : Node) {error : ParseError}
    (h : parse.errors.find? (node.span.contains ·.span.start) = some error) :
    outcome parse node = .error (.malformed error) := by
  rw [outcome, Parse.errorsWithin, List.head?_filter, h]

/-- The fold of a source in terms of its entries. -/
theorem ofSource_eq_ofEntries (options : ExtractionOptions) (source : String) :
    let parse := Parse.ofSource source
    let nodes := parse.root.preorder.filter (selects options)
    ofSource options source = ofEntries (entries parse nodes) (strayErrors parse nodes) := by
  rw [ofSource, ofParse, foldl_add, selected, Node.descendants_eq]

/-- The account of a source. Each selected declaration has exactly one entry, in the
order of the source. Entries that are elements are the elements, all others are the
diagnostics, and errors in no selected declaration follow those.

An entry is an element exactly if the declaration can become one and no declaration
before it took the name; it says `duplicate` exactly if the name is taken. A
declaration with an error in it reports the first one that was recorded. -/
theorem ofSource_accounts (options : ExtractionOptions) (source : String) :
    let parse := Parse.ofSource source
    let nodes := parse.root.preorder.filter (selects options)
    let stray := parse.errors.filter fun error =>
      nodes.all fun node => !node.span.contains error.span.start
    let extraction := ofSource options source
    ∃ entries : List Entry,
      entries.length = nodes.length ∧
      extraction.elements = entries.filterMap Sum.getLeft? ∧
      extraction.diagnostics = entries.filterMap Sum.getRight? ++
        stray.map (fun error => ⟨none, .malformed error⟩) ∧
      (extraction.elements.map Element.name).Nodup ∧
      (∀ (i : Nat) (node : Node) (entry : Entry),
        nodes[i]? = some node → entries[i]? = some entry →
        (∀ element, entry = .inl element ↔
          outcome parse node = .ok element ∧ ¬ Taken (entries.take i) element.name) ∧
        (entry = .inr ⟨declaredName node, .duplicate⟩ ↔
          ∃ element, outcome parse node = .ok element ∧
            Taken (entries.take i) element.name) ∧
        (∀ error, parse.errors.find? (node.span.contains ·.span.start) = some error →
          entry = .inr ⟨declaredName node, .malformed error⟩) ∧
        (∀ error, outcome parse node = .error error →
          entry = .inr ⟨declaredName node, error⟩)) ∧
      extraction.elements.length + extraction.diagnostics.length =
        nodes.length + stray.length := by
  intro parse nodes stray extraction
  have hextraction : extraction = ofEntries (entries parse nodes) stray := by
    have hstray : strayErrors parse nodes = stray := by
      simp [strayErrors, stray, List.not_any_eq_all_not]
    rw [← hstray]
    exact ofSource_eq_ofEntries options source
  have hcount := length_getLeft?_add_length_getRight? (entries parse nodes)
  refine ⟨entries parse nodes, length_entries parse nodes, ?_, ?_, ?_, ?_, ?_⟩
  · rw [hextraction, ofEntries]
  · rw [hextraction, ofEntries, diagnostics]
  · rw [hextraction]
    exact nodup_names_entries parse nodes
  · intro i node e hnode he
    rw [getElem?_entries, hnode, Option.map_some, Option.some.injEq] at he
    subst he
    refine ⟨fun element => entry_eq_inl_iff parse _ node element,
      entry_eq_duplicate_iff parse _ node, ?_, ?_⟩
    · intro error herror
      exact entry_of_outcome_error parse _ node (outcome_of_find? parse node herror)
    · intro error herror
      exact entry_of_outcome_error parse _ node herror
  · rw [length_entries] at hcount
    rw [hextraction]
    simp only [ofEntries, diagnostics, List.length_append, List.length_map]
    omega

end Extraction

end DeclSchema
