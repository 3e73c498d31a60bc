import DeclSchema.Proofs.Extraction.Accounting

/-!
# Options that select less

Options with the same marker can select less than others: no interfaces, or only what is
exported. Which declaration of a name is the first may then change, so the elements of the
two extractions are not the same, but no name appears that was not there before, and a
declaration that is dropped for an error of its own is dropped for it under both.

What a declaration becomes on its own (`outcome`) does not depend on the options. The names of
the elements and the errors of the declarations are read off from it: `taken_entries_iff` and
`ownErrors_account`.
-/

namespace DeclSchema

/-- Whether options select no more than others with the same marker. -/
structure ExtractionOptions.Tightens (tighter options : ExtractionOptions) : Prop where
  marker : tighter.marker = options.marker
  interfaces : tighter.interfaces → options.interfaces
  exportedOnly : options.exportedOnly → tighter.exportedOnly

namespace Extraction

variable {tighter options : ExtractionOptions} {parse : Parse}

theorem selects_of_tightens (h : tighter.Tightens options) {node : Node}
    (hnode : selects tighter node) : selects options node := by
  obtain ⟨hmarker, hinterfaces, hexported⟩ := h
  simp only [selects, hmarker, Bool.and_eq_true, Bool.or_eq_true, Bool.not_eq_true'] at hnode ⊢
  obtain ⟨hkind, hexport⟩ := hnode
  constructor
  · split at hkind
    · exact hinterfaces hkind
    · exact hkind
    · cases hkind
  · rcases hexport with hall | hexport
    · left
      by_contra hsome
      rw [hexported (by simpa using hsome)] at hall
      cases hall
    · exact .inr hexport

/-- Both selections are in the order of the source. -/
theorem sublist_selected (h : tighter.Tightens options) (parse : Parse) :
    (selected tighter parse).Sublist (selected options parse) := by
  have hfilter : selected tighter parse =
      (selected options parse).filter (selects tighter) := by
    rw [selected, selected, List.filter_filter]
    apply List.filter_congr
    intro node _
    have himp : selects tighter node → selects options node := selects_of_tightens h
    grind
  rw [hfilter]
  exact List.filter_sublist

/-- A name is taken exactly if some declaration can become an element of that name, no
matter which of them is the first. -/
theorem taken_entries_iff {nodes : List Node} {name : String} :
    Taken (entries parse nodes) name ↔
      ∃ node ∈ nodes, ∃ element, outcome parse node = .ok element ∧ element.name = name := by
  induction nodes using List.reverseRecOn with
  | nil => simp [Taken]
  | append_singleton nodes node ih =>
    have hsplit : Taken (entries parse (nodes ++ [node])) name ↔
        Taken (entries parse nodes) name ∨
          ∃ element, entry parse (entries parse nodes) node = .inl element ∧
            element.name = name := by
      simp only [Taken, entries_concat, List.mem_append, List.mem_singleton]
      grind
    have hnode : (∃ other ∈ nodes ++ [node], ∃ element,
          outcome parse other = .ok element ∧ element.name = name) ↔
        (∃ other ∈ nodes, ∃ element, outcome parse other = .ok element ∧ element.name = name) ∨
          ∃ element, outcome parse node = .ok element ∧ element.name = name := by
      simp only [List.mem_append, List.mem_singleton]
      grind
    rw [hsplit, hnode, ← ih]
    simp only [entry_eq_inl_iff]
    grind

/-- The declarations that are selected from a source, each with its entry. -/
def account (options : ExtractionOptions) (parse : Parse) : List (Node × Entry) :=
  (selected options parse).zip (entries parse (selected options parse))

/-- The declarations of an account that are dropped for an error of their own, not for a
declaration before them, each with its diagnostic. -/
def ownErrors (account : List (Node × Entry)) : List (Node × Diagnostic) :=
  account.filterMap fun (node, entry) =>
    (entry.getRight?.filter (·.error ≠ .duplicate)).map (node, ·)

/-- The diagnostic of a declaration that cannot become an element. -/
def ownError? (parse : Parse) (node : Node) : Option (Node × Diagnostic) :=
  match outcome parse node with
  | .ok _ => none
  | .error error => some (node, ⟨declaredName node, error⟩)

theorem map_snd_account (options : ExtractionOptions) (parse : Parse) :
    (account options parse).map Prod.snd = entries parse (selected options parse) :=
  List.map_snd_zip (by simp)

/-- An entry tells of the error that the declaration has on its own. -/
theorem ownError_entry (before : List Entry) (node : Node) :
    ((entry parse before node).getRight?.filter (·.error ≠ .duplicate)).map (node, ·) =
      ownError? parse node := by
  have hduplicate := outcome_ne_duplicate parse node
  unfold ownError? entry
  cases houtcome : outcome parse node with
  | ok element =>
    dsimp only
    split <;> simp
  | error error =>
    have herror : error ≠ .duplicate := by
      rintro rfl
      exact hduplicate houtcome
    simp [herror]

theorem ownErrors_zip (nodes : List Node) :
    ownErrors (nodes.zip (entries parse nodes)) = nodes.filterMap (ownError? parse) := by
  induction nodes using List.reverseRecOn with
  | nil => rfl
  | append_singleton nodes node ih =>
    unfold ownErrors at ih ⊢
    rw [entries_concat, List.zip_append (by simp), List.filterMap_append, ih,
      List.filterMap_append]
    simp [List.filterMap_cons, ← ownError_entry (entries parse nodes) node]

/-- The errors of an account are those of the selected declarations. -/
theorem ownErrors_account (options : ExtractionOptions) (parse : Parse) :
    ownErrors (account options parse) = (selected options parse).filterMap (ownError? parse) :=
  ownErrors_zip _

/-- An extraction is what its account says. -/
theorem ofParse_eq_account (options : ExtractionOptions) (parse : Parse) :
    (ofParse options parse).elements = (account options parse).filterMap (·.2.getLeft?) ∧
      (ofParse options parse).dropped = (account options parse).filterMap (·.2.getRight?) := by
  have hsnd := map_snd_account options parse
  rw [ofParse, foldl_add, ofEntries, ← hsnd]
  exact ⟨List.filterMap_map, List.filterMap_map⟩

theorem exists_element_iff_taken {name : String} :
    (∃ element ∈ (ofParse options parse).elements, element.name = name) ↔
      Taken (entries parse (selected options parse)) name := by
  rw [ofParse, foldl_add]
  simp only [ofEntries, Taken, List.mem_filterMap, Sum.getLeft?_eq_some_iff]
  grind

/-- Options that select less add no name and change no error. Of every source, each
element has the name of one that is extracted under the looser options, and the declarations
that are dropped for errors of their own are among those of the looser options, in the same
order and with the same diagnostics. -/
theorem ofSource_of_tightens (h : tighter.Tightens options) (source : String) :
    let parse := Parse.ofSource source
    (∀ chosen ∈ [tighter, options],
      (account chosen parse).map Prod.fst = parse.root.descendants.filter (selects chosen) ∧
      (ofSource chosen source).elements =
        (account chosen parse).filterMap (·.2.getLeft?) ∧
      (ofSource chosen source).dropped =
        (account chosen parse).filterMap (·.2.getRight?)) ∧
    (∀ element ∈ (ofSource tighter source).elements,
      ∃ other ∈ (ofSource options source).elements, other.name = element.name) ∧
    (ownErrors (account tighter parse)).Sublist (ownErrors (account options parse)) := by
  intro parse
  have hsublist := sublist_selected h parse
  refine ⟨?_, ?_, ?_⟩
  · intro chosen _
    exact ⟨List.map_fst_zip (by simp), ofParse_eq_account chosen parse⟩
  · intro element helement
    have htaken : Taken (entries parse (selected tighter parse)) element.name :=
      exists_element_iff_taken.mp ⟨element, helement, rfl⟩
    apply exists_element_iff_taken.mpr
    rw [taken_entries_iff] at htaken ⊢
    obtain ⟨node, hnode, houtcome⟩ := htaken
    exact ⟨node, hsublist.subset hnode, houtcome⟩
  · rw [ownErrors_account, ownErrors_account]
    exact hsublist.filterMap _

/-- Two declarations of one name and one that cannot become an element. -/
def mixedSource : String :=
  "interface A \x7b x: B \x7d export interface A \x7b y: C \x7d export interface E \x7b z: never \x7d"

/-- Without the first declaration of `A` the second one is the element of that name, and the
declaration of `E` is dropped for its type in both extractions. -/
theorem ofSource_mixedSource :
    let tighter : ExtractionOptions := ⟨"schema", true, true⟩
    let options : ExtractionOptions := ⟨"schema", true, false⟩
    let parse := Parse.ofSource mixedSource
    tighter.Tightens options ∧
    (ofSource tighter mixedSource).elements ≠ (ofSource options mixedSource).elements ∧
    (∀ element ∈ (ofSource tighter mixedSource).elements,
      ∃ other ∈ (ofSource options mixedSource).elements, other.name = element.name) ∧
    (ownErrors (account tighter parse)).map Prod.snd =
      [⟨some "E", .unsupportedKind .neverKeyword⟩] ∧
    (ownErrors (account tighter parse)).Sublist (ownErrors (account options parse)) := by
  have htightens : ExtractionOptions.Tightens ⟨"schema", true, true⟩ ⟨"schema", true, false⟩ :=
    ⟨rfl, fun _ => rfl, fun _ => rfl⟩
  obtain ⟨-, hnames, herrors⟩ := ofSource_of_tightens htightens mixedSource
  exact ⟨htightens, by decide +kernel, hnames, by decide +kernel, herrors⟩

end Extraction

end DeclSchema
