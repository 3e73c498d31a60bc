import DeclSchema.Proofs.Extraction.Concatenation
import DeclSchema.Proofs.Extraction.Merging
import DeclSchema.Proofs.Parser.CoveringStatements
import DeclSchema.Proofs.Parser.Resuming
import DeclSchema.Proofs.Tree.Paths

/-!
# Extraction in the order of the source

Declarations are found on a traversal of the tree, which keeps a stack and knows nothing of
namespaces. It goes through all places of the tree in the order of their paths. In a tree
that was read, the spans of the children of a node lie one behind the other, and only the
blocks of namespaces have declarations below them (`Node.Arranged`). So the order of the
paths is that of the source: the declarations at all depths lie one behind the other, as
`Node.holds_declarations` shows by recursion over the tree.

What is extracted keeps this order. The elements are those that the declarations become, the
first of each name.
-/

namespace DeclSchema

namespace Span.Holds

variable {span : Span} {node : Node} {nodes others : List Node}

theorem tail (h : span.Holds (node :: nodes)) : span.Holds nodes where
  within := (List.forall_mem_cons.mp h.within).2
  inOrder := (List.pairwise_cons.mp h.inOrder).2

/-- All but the first lie behind the first. -/
theorem behind (h : span.Holds (node :: nodes)) :
    Span.Holds ⟨node.span.stop, span.stop⟩ nodes where
  within other hother :=
    ⟨(List.pairwise_cons.mp h.inOrder).1 other hother, (h.tail.within other hother).2⟩
  inOrder := h.tail.inOrder

/-- Nodes in the span of one, and others behind that one. -/
theorem append (hnode : span.start ≤ node.span.start ∧ node.span.stop ≤ span.stop)
    (h : node.span.Holds nodes) (hothers : span.Holds others)
    (hbehind : Span.Holds ⟨node.span.stop, span.stop⟩ others) : span.Holds (nodes ++ others) where
  within := List.forall_mem_append.mpr ⟨fun inner hinner =>
    ⟨Nat.le_trans hnode.1 (h.within inner hinner).1,
      Nat.le_trans (h.within inner hinner).2 hnode.2⟩, hothers.within⟩
  inOrder := List.pairwise_append.mpr ⟨h.inOrder, hothers.inOrder, fun inner hinner other hother =>
    Nat.le_trans (h.within inner hinner).2 (hbehind.within other hother).1⟩

end Span.Holds

namespace Node

/-- The interfaces and classes among nodes. -/
def declarations (nodes : List Node) : List Node :=
  nodes.filter (·.kind.declares)

/-- The children of the node lie in its span, one behind the other, and if it is an interface
or a class, no other is below it. -/
structure Arranged (node : Node) : Prop where
  holds : node.span.Holds node.children
  outermost : node.kind.declares → AllPlain node.children

theorem declarations_of_allPlain {nodes : List Node} (h : AllPlain nodes) :
    declarations (preorder.preorderList nodes) = [] := by
  refine List.filter_eq_nil_iff.mpr fun inner hinner => ?_
  obtain ⟨root, hroot, hmem⟩ := mem_preorderList.mp hinner
  rw [h root hroot inner hmem]
  exact Bool.false_ne_true

/-- The declarations of a tree are its root alone, or they are those below the root. -/
theorem Arranged.holds_declarations {node : Node} (hnode : node.Arranged)
    (h : node.span.Holds (declarations (preorder.preorderList node.children))) :
    node.span.Holds (declarations node.preorder) := by
  rw [preorder_eq]
  by_cases hkind : node.kind.declares
  · have hnone := declarations_of_allPlain (hnode.outermost hkind)
    rw [declarations, List.filter_cons, if_pos hkind, ← declarations, hnone]
    exact ⟨List.forall_mem_singleton.mpr ⟨Nat.le_refl _, Nat.le_refl _⟩,
      List.pairwise_singleton _ _⟩
  · rwa [declarations, List.filter_cons, if_neg hkind]

mutual

/-- Where all nodes are arranged, the declarations at all depths lie one behind the other in
the order of the recursion. -/
theorem holds_declarations : ∀ node : Node, (∀ inner ∈ node.preorder, inner.Arranged) →
    node.span.Holds (declarations node.preorder)
  | ⟨_, _, _, span, children⟩, h => by
    obtain ⟨hnode, hchildren⟩ := forall_mem_preorder_iff.mp h
    exact hnode.holds_declarations (holds_declarations_list children hchildren span hnode.holds)

theorem holds_declarations_list : ∀ nodes : List Node,
    (∀ node ∈ nodes, ∀ inner ∈ node.preorder, inner.Arranged) →
      ∀ span : Span, span.Holds nodes → span.Holds (declarations (preorder.preorderList nodes))
  | [], _, _, hspan => hspan
  | node :: others, h, span, hspan => by
    obtain ⟨hnode, hothers⟩ := List.forall_mem_cons.mp h
    have hrest := holds_declarations_list others hothers
    rw [preorder.preorderList, declarations, List.filter_append]
    exact .append (hspan.within node List.mem_cons_self) (holds_declarations node hnode)
      (hrest span hspan.tail) (hrest _ hspan.behind)

end

end Node

namespace Parse

theorem arranged (source : String) : ∀ node ∈ (ofSource source).root.preorder, node.Arranged := by
  have hcovered := coveredBy_ofSource source
  have htokens := TokenStream.inOrder_ofSource source
  rw [Node.preorder_eq]
  refine List.forall_mem_cons.mpr ⟨⟨hcovered.holds htokens, nofun⟩, fun node hnode => ?_⟩
  exact ⟨(hcovered.aligned htokens node hnode).holds,
    fun hkind => (startFrom_children source node hnode hkind).2⟩

end Parse

namespace Extraction

/-- The selected declarations lie one behind the other. -/
theorem pairwise_selected (options : ExtractionOptions) (source : String) :
    (selected options (Parse.ofSource source)).Pairwise fun earlier later =>
      earlier.span.stop ≤ later.span.start := by
  have hholds := Node.holds_declarations _ (Parse.arranged source)
  rw [← Node.descendants_eq] at hholds
  exact hholds.inOrder.sublist (List.monotone_filter_right _ fun _ => declares_of_selects)

theorem elements_eq_eraseDupsBy (options : ExtractionOptions) (source : String) :
    (ofSource options source).elements =
      (candidates (Parse.ofSource source) (selected options (Parse.ofSource source))).eraseDupsBy
        (·.name == ·.name) := by
  rw [elements_ofSource]
  exact foldl_add_eq_eraseDupsBy (fun _ _ => Bool.beq_comm) _

/-- The traversal with a stack is the recursion over the tree, step by step and as a whole.
It visits each place of the tree once, in the order of the paths, and a search for a kind
finds exactly the nodes of this kind in the same order.

So the declarations that are selected are found in namespaces at all depths, each once. They
lie one behind the other in the source, and the elements come in their order: of what the
declarations become, the first of each name. -/
theorem traversal_in_order :
    (∀ root : Node,
      (∀ count, Descendants.take count ⟨#[root]⟩ = root.preorder.take count) ∧
      root.descendants = root.preorder ∧
      root.EachOnce (fun _ => true) root.descendants ∧
      ∀ kind, root.findAll kind = root.preorder.filter (·.kind == kind) ∧
        root.EachOnce (·.kind == kind) (root.findAll kind)) ∧
    ∀ (options : ExtractionOptions) (source : String),
      let parse := Parse.ofSource source
      let declarations := parse.root.descendants.filter (selects options)
      parse.root.EachOnce (selects options) declarations ∧
      (declarations.Pairwise fun earlier later => earlier.span.stop ≤ later.span.start) ∧
      (ofSource options source).elements =
        (declarations.filterMap fun node => (outcome parse node).toOption).eraseDupsBy
          (·.name == ·.name) := by
  refine ⟨fun root => ⟨fun count => ?_, root.descendants_eq, ?_, fun kind => ⟨?_, ?_⟩⟩,
    fun options source => ⟨?_, pairwise_selected options source,
      elements_eq_eraseDupsBy options source⟩⟩
  · rw [Descendants.take_eq, Descendants.remaining_single]
  · rw [root.descendants_eq]
    exact root.eachOnce_preorder
  · rw [Node.findAll, root.descendants_eq]
  · exact root.eachOnce_filter_descendants _
  · exact Node.eachOnce_filter_descendants _ _

/-- What stands in a namespace comes between what stands before and what stands behind it. -/
example :
    (ofSource {} ("interface A \x7b\x7d namespace N \x7b interface B \x7b\x7d " ++
      "namespace M \x7b interface C \x7b\x7d \x7d interface D \x7b\x7d \x7d " ++
      "interface E \x7b\x7d")).elements.map Element.name = ["A", "B", "C", "D", "E"] := by
  decide +kernel

end Extraction

end DeclSchema
