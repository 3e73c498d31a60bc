import DeclSchema.Span
import DeclSchema.Text.DocTag
import DeclSchema.Tree.Kind

/-!
# Declaration trees

A node has a kind, the span it was read from, its children in source order, and for
some kinds a text (a name or the value of a literal) and documentation tags.

`preorder` lists a tree by recursion, `descendants` step by step with a stack of the nodes
still to visit. `Descendants.remaining` is what any such stack has still to give, and
`descendants_eq` says that the two ways agree.
-/

namespace DeclSchema

/-- A node of a declaration tree. -/
structure Node where
  kind : NodeKind
  text : Option String
  tags : List DocTag
  span : Span
  children : List Node
deriving Inhabited

namespace Node

/-- A node without text and documentation, whose span ends where it starts when
the end given lies before the start. -/
def inner (kind : NodeKind) (start stop : Nat) (children : List Node) : Node :=
  ⟨kind, none, [], Span.ofBounds start stop, children⟩

/-- A node without children that carries a text. -/
def leaf (kind : NodeKind) (text : String) (span : Span) : Node :=
  ⟨kind, some text, [], span, []⟩

/-- A node with neither text nor children. -/
def mark (kind : NodeKind) (span : Span) : Node :=
  ⟨kind, none, [], span, []⟩

/-- Whether a documentation tag of the given name is attached to the node. -/
def hasTag (node : Node) (name : String) : Bool :=
  node.tags.any (·.name == name)

/-- The first child with a kind that the predicate accepts. -/
def firstChildWhere (node : Node) (accepts : NodeKind → Bool) : Option Node :=
  node.children.find? (accepts ·.kind)

/-- The first child of one of the given kinds. -/
def firstChildOf (node : Node) (kinds : List NodeKind) : Option Node :=
  node.firstChildWhere kinds.contains

/-- The first child of a kind. -/
def firstChild (node : Node) (kind : NodeKind) : Option Node :=
  node.firstChildWhere (· == kind)

/-- Whether there is a child of a kind. -/
def hasChild (node : Node) (kind : NodeKind) : Bool :=
  (node.firstChild kind).isSome

/-- The children of the given kinds. -/
def childrenOf (node : Node) (kinds : List NodeKind) : List Node :=
  node.children.filter (kinds.contains ·.kind)

/-- The text of the first child of one of the given kinds. -/
def childText (node : Node) (kinds : List NodeKind) : Option String :=
  (node.firstChildOf kinds).bind text

/-- The number of nodes of a tree. -/
def size : Node → Nat
  | ⟨_, _, _, _, children⟩ => 1 + sizeList children
where
  /-- The number of nodes of several trees. -/
  sizeList : List Node → Nat
    | [] => 0
    | node :: rest => size node + sizeList rest

/-- A node, then its children's trees from left to right, each in this order. -/
def preorder : Node → List Node
  | node@⟨_, _, _, _, children⟩ => node :: preorderList children
where
  /-- The trees of several nodes, one after the other. -/
  preorderList : List Node → List Node
    | [] => []
    | node :: rest => preorder node ++ preorderList rest

end Node

/-- A traversal under way: the nodes still to visit with the nodes below them, of which the
last comes next. -/
structure Descendants where
  stack : Array Node

namespace Descendants

/-- The node that comes next and the traversal behind it. The children of the node go on the
stack from the last to the first, so that the first comes next. -/
def next (traversal : Descendants) : Option (Node × Descendants) :=
  match traversal.stack.back? with
  | none => none
  | some node => some (node, ⟨traversal.stack.pop ++ node.children.reverse⟩)

/-- The nodes of the first `count` steps. -/
def take : Nat → Descendants → List Node
  | 0, _ => []
  | count + 1, traversal =>
    match traversal.next with
    | none => []
    | some (node, rest) => node :: rest.take count

end Descendants

namespace Node

/-- A node and all the nodes below it, in the order of the source. -/
def descendants (node : Node) : List Node :=
  Descendants.take node.size ⟨#[node]⟩

/-- The nodes of a kind among a node and all the nodes below it. -/
def findAll (node : Node) (kind : NodeKind) : List Node :=
  node.descendants.filter (·.kind == kind)

theorem preorderList_append (as bs : List Node) :
    preorder.preorderList (as ++ bs) = preorder.preorderList as ++ preorder.preorderList bs := by
  induction as with
  | nil => simp [preorder.preorderList]
  | cons a as ih => simp [preorder.preorderList, ih]

theorem preorder_eq (node : Node) :
    node.preorder = node :: preorder.preorderList node.children := by
  obtain ⟨_, _, _, _, children⟩ := node
  rw [preorder]

theorem mem_preorderList {node : Node} {nodes : List Node} :
    node ∈ preorder.preorderList nodes ↔ ∃ root ∈ nodes, node ∈ root.preorder := by
  induction nodes with
  | nil => simp [preorder.preorderList]
  | cons first rest ih => simp [preorder.preorderList, ih]

/-- What holds of all nodes of a tree holds of its root and in the trees of its children. -/
theorem forall_mem_preorder_iff {P : Node → Prop} {node : Node} :
    (∀ inner ∈ node.preorder, P inner) ↔
      P node ∧ ∀ child ∈ node.children, ∀ inner ∈ child.preorder, P inner := by
  rw [preorder_eq, List.forall_mem_cons, and_congr_right_iff]
  intro _
  constructor
  · intro h child hchild inner hinner
    exact h inner (mem_preorderList.mpr ⟨child, hchild, hinner⟩)
  · intro h inner hinner
    obtain ⟨child, hchild, hmem⟩ := mem_preorderList.mp hinner
    exact h child hchild inner hmem

mutual

theorem length_preorder : ∀ node : Node, node.preorder.length = node.size
  | ⟨_, _, _, _, children⟩ => by
    rw [preorder, List.length_cons, length_preorderList, size, Nat.add_comm]

theorem length_preorderList : ∀ nodes : List Node,
    (preorder.preorderList nodes).length = size.sizeList nodes
  | [] => rfl
  | node :: rest => by
    rw [preorder.preorderList, List.length_append, length_preorder, length_preorderList,
      size.sizeList]

end

end Node

namespace Descendants

/-- What a traversal has still to give, by recursion: the trees on the stack, the last first. -/
def remaining (traversal : Descendants) : List Node :=
  Node.preorder.preorderList traversal.stack.toList.reverse

theorem remaining_single (node : Node) : remaining ⟨#[node]⟩ = node.preorder := by
  simp [remaining, Node.preorder.preorderList]

theorem next_push (others : Array Node) (node : Node) :
    next ⟨others.push node⟩ = some (node, ⟨others ++ node.children.reverse⟩) := by
  simp [next]

/-- A step gives the first of what remains and leaves the others. There is no step where
nothing remains. -/
theorem remaining_eq (traversal : Descendants) :
    traversal.remaining =
      match traversal.next with
      | none => []
      | some (node, rest) => node :: rest.remaining := by
  obtain ⟨stack⟩ := traversal
  cases hback : stack.back? with
  | none =>
    rw [Array.back?_eq_none_iff.mp hback]
    rfl
  | some node =>
    obtain ⟨others, rfl⟩ := Array.back?_eq_some_iff.mp hback
    simp [next_push, remaining, Node.preorder.preorderList, Node.preorder_eq,
      Node.preorderList_append]

/-- Any number of steps gives as much of what remains. -/
theorem take_eq (count : Nat) (traversal : Descendants) :
    traversal.take count = traversal.remaining.take count := by
  induction count generalizing traversal with
  | zero => rw [take, List.take_zero]
  | succ count ih =>
    rw [take, remaining_eq]
    cases traversal.next with
    | none => rw [List.take_nil]
    | some step => rw [List.take_succ_cons, ← ih]

end Descendants

namespace Node

theorem descendants_eq (node : Node) : node.descendants = node.preorder := by
  rw [descendants, Descendants.take_eq, Descendants.remaining_single, ← length_preorder,
    List.take_length]

end Node

end DeclSchema
