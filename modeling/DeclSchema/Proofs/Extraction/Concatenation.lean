import DeclSchema.Proofs.Extraction.Places
import DeclSchema.Proofs.Parser.Concatenation
import Mathlib.Data.List.Induction

/-!
# The elements of sources put together

Of two sources with a line feed between them, the first of which is complete in itself, the
elements are those of the first and then those of the second whose names are not taken.
What a declaration becomes depends neither on its place nor on errors outside of it.
-/

namespace DeclSchema

namespace Node

mutual

theorem preorder_shift (offset : Nat) : ∀ node : Node,
    (shift offset node).preorder = shift offset node.preorder
  | ⟨kind, text, tags, span, children⟩ => by
    rw [shift_mk, preorder, preorderList_shift, preorder, shift_cons, shift_mk]

theorem preorderList_shift (offset : Nat) : ∀ nodes : List Node,
    preorder.preorderList (shift offset nodes) = shift offset (preorder.preorderList nodes)
  | [] => rfl
  | node :: rest => by
    rw [shift_cons, preorder.preorderList, preorder_shift, preorderList_shift,
      preorder.preorderList, shift_append]

end

end Node

namespace Parse

open DeclSchema.Parser

/-- Interfaces and classes lie in the source. -/
theorem stop_le_of_mem_preorder {source : String} {node : Node}
    (hnode : node ∈ Node.preorder.preorderList (ofSource source).root.children)
    (hkind : node.kind.declares) : node.span.stop ≤ source.utf8ByteSize := by
  obtain ⟨nodes, t, hrun, ⟨b, hto⟩, htold, hdeclared⟩ := runsUpTo_eq_ok
    ((State.ofSource source).rest.length + 1) (State.ordered_ofSource source)
    (fun _ he => absurd he List.not_mem_nil) (fun _ he => absurd he List.not_mem_nil)
  have hfile : sourceFile (.ofSource source) = (.ok nodes, t) := hrun
  rw [children_ofSource, hfile] at hnode
  obtain ⟨before, after, hevent⟩ := hdeclared node hnode hkind
  have hstop : node.span.stop ≤ t.start := (htold _ hevent hkind).1
  have hlength : t.length = source.utf8ByteSize := hto.length
  exact hlength ▸ Nat.le_trans hstop hto.ordered.start_le

end Parse

namespace Extraction

open Node

theorem declares_of_selects {options : ExtractionOptions} {node : Node}
    (h : selects options node) : node.kind.declares := by
  unfold selects at h
  rcases hkind : node.kind <;> simp_all [NodeKind.declares]

theorem selects_shift (options : ExtractionOptions) (offset : Nat) (node : Node) :
    selects options (shift offset node) = selects options node := by
  rw [← selects_withoutSpans, withoutSpans_shift, selects_withoutSpans]

theorem element_shift (offset : Nat) (node : Node) :
    element (shift offset node) = element node := by
  rw [← element_withoutSpans, withoutSpans_shift, element_withoutSpans]

/-- Errors and declarations that move together stay as they are to each other. -/
theorem toOption_outcome_shift {parse parse' : Parse} {offset : Nat}
    (herrors : parse'.errors = shift offset parse.errors) (node : Node) :
    (outcome parse' (shift offset node)).toOption = (outcome parse node).toOption := by
  have hcontains : ∀ error : ParseError,
      (shift offset node).span.contains (shift offset error).span.start =
        node.span.contains error.span.start := fun error => by
    rw [Bool.eq_iff_iff, Span.contains_iff, Span.contains_iff]
    simp
  have hwithin : parse'.errorsWithin (shift offset node).span =
      shift offset (parse.errorsWithin node.span) := by
    rw [Parse.errorsWithin, herrors]
    show (parse.errors.map (shift offset)).filter _ = (parse.errors.filter _).map (shift offset)
    rw [List.filter_map]
    simp only [Function.comp_def, hcontains]
  unfold outcome
  rw [hwithin]
  cases parse.errorsWithin node.span with
  | nil => exact congrArg Except.toOption (element_shift offset node)
  | cons error errors => rfl

/-- Errors outside of a declaration do not concern it. -/
theorem outcome_of_outside {parse : Parse} {node : Node}
    (h : ∀ error ∈ parse.errors, ¬ node.span.contains error.span.start) :
    outcome parse node = element node := by
  have hwithin : parse.errorsWithin node.span = [] := List.filter_eq_nil_iff.mpr h
  rw [outcome, hwithin]
  rfl

/-- What declarations become when none is in the way of another. -/
def candidates (parse : Parse) (nodes : List Node) : List Element :=
  nodes.filterMap fun node => (outcome parse node).toOption

/-- The first element of a name is kept. -/
def keep (kept : List Element) (element : Element) : List Element :=
  if kept.any (·.name == element.name) then kept else kept ++ [element]

theorem elements_foldl_add (parse : Parse) (nodes : List Node) (extraction : Extraction) :
    (nodes.foldl (add parse) extraction).elements =
      (candidates parse nodes).foldl keep extraction.elements := by
  induction nodes generalizing extraction with
  | nil => rfl
  | cons node nodes ih =>
    rw [List.foldl_cons, ih]
    unfold candidates add
    rw [List.filterMap_cons]
    cases outcome parse node with
    | error error => rfl
    | ok element =>
      dsimp only [Except.toOption]
      rw [List.foldl_cons, keep]
      split <;> rfl

/-- Behind other elements those are kept whose names the others do not have. -/
theorem foldl_keep (kept others : List Element) :
    others.foldl keep kept =
      kept ++ (others.foldl keep []).filter fun element => !kept.any (·.name == element.name) := by
  induction others using List.reverseRecOn with
  | nil => simp
  | append_singleton others element ih =>
    rw [List.foldl_append, List.foldl_append, ih]
    generalize others.foldl keep [] = rest
    show keep (kept ++ rest.filter _) element = kept ++ (keep rest element).filter _
    -- An element of the name that is kept among the others is kept behind them, too.
    have hrest : kept.any (·.name == element.name) = false →
        ((rest.filter fun other => !kept.any (·.name == other.name)).any
          (·.name == element.name)) = rest.any (·.name == element.name) := fun hfree => by
      rw [List.any_filter]
      congr 1
      funext other
      by_cases hname : other.name = element.name
      · rw [hname, hfree]
        simp
      · simp [hname]
    unfold keep
    rw [List.any_append]
    cases htaken : kept.any (·.name == element.name) with
    | true =>
      rw [Bool.true_or, if_pos rfl]
      split
      · rfl
      · simp [List.filter_append, htaken]
    | false =>
      rw [Bool.false_or, hrest htaken]
      split
      · rfl
      · simp [List.filter_append, htaken]

theorem selected_ofSource (options : ExtractionOptions) (source : String) :
    selected options (Parse.ofSource source) =
      (preorder.preorderList (Parse.ofSource source).root.children).filter (selects options) := by
  have hroot : ¬ selects options (Parse.ofSource source).root := Bool.false_ne_true
  rw [selected, descendants_eq, preorder_eq, List.filter_cons_of_neg hroot]

theorem elements_ofSource (options : ExtractionOptions) (source : String) :
    (ofSource options source).elements =
      (candidates (Parse.ofSource source) (selected options (Parse.ofSource source))).foldl
        keep [] :=
  elements_foldl_add ..

/-- The first source is complete in itself, so that in both together each has the
declarations, the errors and the elements that it has alone, those of the second moved
along. Of its elements only those are kept whose names the first one has not taken. -/
structure Composes (first second : String) : Prop where
  children : (Parse.ofSource (first ++ "\n" ++ second)).root.children =
    (Parse.ofSource first).root.children ++
      shift (first.utf8ByteSize + 1) (Parse.ofSource second).root.children
  errors : (Parse.ofSource (first ++ "\n" ++ second)).errors =
    shift (first.utf8ByteSize + 1) (Parse.ofSource second).errors
  elements (options : ExtractionOptions) :
    (ofSource options (first ++ "\n" ++ second)).elements =
      (ofSource options first).elements ++ (ofSource options second).elements.filter fun element =>
        !(ofSource options first).elements.any (·.name == element.name)

/-- What is declared in the first source becomes what it becomes alone. -/
theorem candidates_first {first second : String} (h : Parse.SelfContained first)
    (herrors : (Parse.ofSource (first ++ "\n" ++ second)).errors =
      shift (first.utf8ByteSize + 1) (Parse.ofSource second).errors)
    (options : ExtractionOptions) :
    candidates (Parse.ofSource (first ++ "\n" ++ second)) (selected options (Parse.ofSource first)) =
      candidates (Parse.ofSource first) (selected options (Parse.ofSource first)) := by
  refine List.filterMap_congr fun node hnode => congrArg Except.toOption ?_
  rw [selected_ofSource] at hnode
  obtain ⟨hmem, hselects⟩ := List.mem_filter.mp hnode
  have hstop := Parse.stop_le_of_mem_preorder hmem (declares_of_selects hselects)
  rw [outcome_of_outside, outcome_of_outside]
  · rw [h.accepted]
    exact fun error he => absurd he List.not_mem_nil
  · intro error he hcontains
    rw [herrors] at he
    obtain ⟨other, -, rfl⟩ := List.mem_map.mp he
    have hlt := (Span.contains_iff.mp hcontains).2
    rw [span_shift_error, start_shift] at hlt
    omega

/-- What is declared in a source becomes the same where it is moved with its errors. -/
theorem candidates_second {parse parse' : Parse} {offset : Nat}
    (herrors : parse'.errors = shift offset parse.errors) (options : ExtractionOptions)
    (nodes : List Node) :
    candidates parse' ((shift offset nodes).filter (selects options)) =
      candidates parse (nodes.filter (selects options)) := by
  show candidates _ ((nodes.map (shift _)).filter _) = _
  rw [List.filter_map, candidates, List.filterMap_map, candidates]
  simp only [Function.comp_def, selects_shift, toOption_outcome_shift herrors]

/-- A source that is complete in itself can be put before a statement: nothing of either is
changed. A return type that is read as a type and then given back may be read beyond the
source it stands in, so this must not have come to the end of the first source. -/
theorem compositional (first second : String) (h : Parse.SelfContained first)
    (hnext : Parse.StartsStatement second) (hkeeps : .gaveBack true ∉ Parse.journal first) :
    Composes first second := by
  obtain ⟨hchildren, herrors⟩ := Parse.ofSource_append h hnext hkeeps
  refine ⟨hchildren, herrors, fun options => ?_⟩
  have hselected : selected options (Parse.ofSource (first ++ "\n" ++ second)) =
      selected options (Parse.ofSource first) ++ (shift (first.utf8ByteSize + 1)
        (preorder.preorderList (Parse.ofSource second).root.children)).filter (selects options) := by
    rw [selected_ofSource, hchildren, preorderList_append, preorderList_shift, List.filter_append,
      ← selected_ofSource]
  have hcandidates : candidates (Parse.ofSource (first ++ "\n" ++ second))
      (selected options (Parse.ofSource (first ++ "\n" ++ second))) =
      candidates (Parse.ofSource first) (selected options (Parse.ofSource first)) ++
        candidates (Parse.ofSource second) (selected options (Parse.ofSource second)) := by
    rw [hselected, candidates, List.filterMap_append, ← candidates, ← candidates,
      candidates_first h herrors, candidates_second herrors, ← selected_ofSource]
  rw [elements_ofSource, elements_ofSource, elements_ofSource, hcandidates, List.foldl_append,
    foldl_keep]

/-- A class of a name that is taken and an interface with an error in it, behind a return
type that is given back before the line ends. -/
theorem compositional_taken_name :
    let first := "type T = Array<\x7b a(x: number): x is string \x7d>;\n" ++
      "interface A \x7b m(): \x7b b: A \x7d[] \x7d"
    let second := "/** @schema */ class A \x7b x: A \x7d\ninterface B \x7b y: \x7d"
    Parse.SelfContained first ∧ Parse.StartsStatement second ∧
      .gaveBack true ∉ Parse.journal first ∧ Composes first second := by
  intro first second
  have hfirst : Parse.SelfContained first :=
    ⟨by decide +kernel, by decide +kernel, by decide +kernel, by decide +kernel⟩
  have hsecond : Parse.StartsStatement second := by decide +kernel
  have hall : (Parse.journal first).all fun event => !(event matches .gaveBack true) := by
    decide +kernel
  have hkeeps : .gaveBack true ∉ Parse.journal first := fun hmem =>
    Bool.false_ne_true (List.all_eq_true.mp hall _ hmem)
  exact ⟨hfirst, hsecond, hkeeps, compositional first second hfirst hsecond hkeeps⟩

/-- Alone, what `m()` returns is not closed as a type before the source ends, so that it is
given back and passed over by its brackets, angle brackets among them. The braces in the
lines behind it close it, and the interface in these lines is lost. -/
theorem not_compositional_open_return_type :
    let first := "interface A \x7b m(): \x7b q: \x7b n(): a < b < c \x7d \x7d\n> >\n\x7d"
    let second := "interface B \x7b\n\x7d\n\x7d\n\x7d"
    Parse.SelfContained first ∧ Parse.StartsStatement second ∧ ¬ Composes first second := by
  intro first second
  refine ⟨⟨by decide +kernel, by decide +kernel, by decide +kernel, by decide +kernel⟩,
    by decide +kernel, fun h => ?_⟩
  have hlengths : (Parse.ofSource first).root.children.length = 1 ∧
      (Parse.ofSource second).root.children.length = 1 ∧
      (Parse.ofSource (first ++ "\n" ++ second)).root.children.length = 1 := by decide +kernel
  obtain ⟨hfirst, hsecond, hboth⟩ := hlengths
  have hchildren := congrArg List.length h.children
  rw [hboth, List.length_append, length_shift, hfirst, hsecond] at hchildren
  exact absurd hchildren (by decide)

end Extraction

end DeclSchema
