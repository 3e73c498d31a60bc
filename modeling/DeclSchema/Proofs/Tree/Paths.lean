import DeclSchema.Tree.Node

/-!
# The paths of a tree

Nodes at different places of a tree may be equal, so a place is told by its path: which child
to take at each node on the way from the root. `Node.EachOnce` says of a list of nodes that
it goes through the places of a tree in the order of their paths, each of them once, and
leaves out those whose nodes a predicate rejects. It says so without a traversal.
`eachOnce_preorder` is the order of the recursion in these terms, and `EachOnce.filter` what
a search for some of the nodes keeps of it.

Paths are compared as lists are. A node comes before all that is below it, as its path is a
prefix of theirs, and what is below one child before what is below the next.
-/

namespace DeclSchema

namespace Node

/-- The node at the end of a path. -/
def at? (node : Node) : List Nat → Option Node
  | [] => some node
  | index :: path => node.children[index]?.bind fun child => child.at? path

/-- The paths of a tree, that of the root first and then those below each child. -/
def paths : Node → List (List Nat)
  | ⟨_, _, _, _, children⟩ => [] :: pathsFrom 0 children
where
  /-- The paths below children in a row, the first of which has the given index. -/
  pathsFrom : Nat → List Node → List (List Nat)
    | _, [] => []
    | index, child :: others => (paths child).map (index :: ·) ++ pathsFrom (index + 1) others

/-- The nodes are those of the tree that the predicate accepts: each place that has such a
node is there once, and the places are in the order of their paths. -/
def EachOnce (root : Node) (accepts : Node → Bool) (nodes : List Node) : Prop :=
  ∃ paths : List (List Nat), paths.Pairwise (· < ·) ∧
    (∀ path, path ∈ paths ↔ ∃ node, root.at? path = some node ∧ accepts node) ∧
    nodes.map some = paths.map root.at?

@[simp] theorem at?_nil (node : Node) : node.at? [] = some node := rfl

theorem at?_cons (node : Node) (index : Nat) (path : List Nat) :
    node.at? (index :: path) = node.children[index]?.bind fun child => child.at? path := rfl

theorem paths_eq (node : Node) : node.paths = [] :: paths.pathsFrom 0 node.children := by
  obtain ⟨_, _, _, _, children⟩ := node
  rw [paths]

theorem exists_cons_of_mem_pathsFrom {nodes : List Node} {first : Nat} {path : List Nat}
    (h : path ∈ paths.pathsFrom first nodes) :
    ∃ index below, path = index :: below ∧ first ≤ index := by
  induction nodes generalizing first with
  | nil => cases h
  | cons node others ih =>
    rw [paths.pathsFrom, List.mem_append, List.mem_map] at h
    rcases h with ⟨below, -, rfl⟩ | h
    · exact ⟨first, below, rfl, Nat.le_refl first⟩
    · obtain ⟨index, below, rfl, hle⟩ := ih h
      exact ⟨index, below, rfl, Nat.le_of_succ_le hle⟩

mutual

theorem pairwise_lt_paths : ∀ node : Node, node.paths.Pairwise (· < ·)
  | ⟨_, _, _, _, children⟩ => by
    rw [paths, List.pairwise_cons]
    refine ⟨fun path hpath => ?_, pairwise_lt_pathsFrom children 0⟩
    obtain ⟨index, below, rfl, -⟩ := exists_cons_of_mem_pathsFrom hpath
    exact List.nil_lt_cons index below

theorem pairwise_lt_pathsFrom : ∀ (nodes : List Node) (first : Nat),
    (paths.pathsFrom first nodes).Pairwise (· < ·)
  | [], _ => .nil
  | node :: others, first => by
    rw [paths.pathsFrom, List.pairwise_append, List.pairwise_map]
    refine ⟨(pairwise_lt_paths node).imp fun hlt => List.cons_lt_cons_iff.mpr (.inr ⟨rfl, hlt⟩),
      pairwise_lt_pathsFrom others (first + 1), fun path hpath other hother => ?_⟩
    obtain ⟨below, -, rfl⟩ := List.mem_map.mp hpath
    obtain ⟨index, below', rfl, hle⟩ := exists_cons_of_mem_pathsFrom hother
    exact List.cons_lt_cons_iff.mpr (.inl hle)

end

mutual

/-- The paths in their order lead to the nodes in the order of the recursion. -/
theorem map_at?_paths : ∀ node : Node, node.paths.map node.at? = node.preorder.map some
  | ⟨kind, text, tags, span, children⟩ => by
    rw [paths, List.map_cons, preorder, List.map_cons, at?_nil,
      map_at?_pathsFrom children ⟨kind, text, tags, span, children⟩ 0 rfl]

theorem map_at?_pathsFrom : ∀ (nodes : List Node) (parent : Node) (first : Nat),
    parent.children.drop first = nodes →
      (paths.pathsFrom first nodes).map parent.at? = (preorder.preorderList nodes).map some
  | [], _, _, _ => rfl
  | node :: others, parent, first, h => by
    have hnode : parent.children[first]? = some node := by
      rw [← List.head?_drop, h, List.head?_cons]
    have hothers : parent.children.drop (first + 1) = others := by
      rw [← List.tail_drop, h, List.tail_cons]
    have hbelow : parent.at? ∘ (first :: ·) = node.at? := by
      funext path
      rw [Function.comp_apply, at?_cons, hnode, Option.bind_some]
    rw [paths.pathsFrom, preorder.preorderList, List.map_append, List.map_append, List.map_map,
      hbelow, map_at?_paths node, map_at?_pathsFrom others parent (first + 1) hothers]

end

theorem mem_pathsFrom_of_getElem? (first : Nat) {nodes : List Node} {index : Nat} {child : Node}
    {below : List Nat} (hchild : nodes[index]? = some child) (hbelow : below ∈ child.paths) :
    (first + index) :: below ∈ paths.pathsFrom first nodes := by
  induction nodes generalizing first index with
  | nil => cases hchild
  | cons node others ih =>
    rw [paths.pathsFrom, List.mem_append]
    cases index with
    | zero =>
      cases hchild
      exact .inl (List.mem_map_of_mem hbelow)
    | succ index =>
      rw [List.getElem?_cons_succ] at hchild
      have hothers := ih (first + 1) hchild
      rw [Nat.add_right_comm] at hothers
      exact .inr hothers

/-- Every place of a tree has its path in the list. -/
theorem mem_paths_of_at? {path : List Nat} {root node : Node} (h : root.at? path = some node) :
    path ∈ root.paths := by
  rw [paths_eq]
  induction path generalizing root with
  | nil => exact List.mem_cons_self
  | cons index below ih =>
    obtain ⟨child, hchild, hbelow⟩ := Option.bind_eq_some_iff.mp h
    have hmem := mem_pathsFrom_of_getElem? 0 hchild (paths_eq child ▸ ih hbelow)
    rw [Nat.zero_add] at hmem
    exact List.mem_cons_of_mem _ hmem

theorem mem_paths_iff {path : List Nat} {root : Node} :
    path ∈ root.paths ↔ ∃ node, root.at? path = some node := by
  constructor
  · intro hpath
    have hmem := List.mem_map_of_mem (f := root.at?) hpath
    rw [map_at?_paths] at hmem
    obtain ⟨node, -, hnode⟩ := List.mem_map.mp hmem
    exact ⟨node, hnode.symm⟩
  · rintro ⟨node, hnode⟩
    exact mem_paths_of_at? hnode

theorem eachOnce_preorder (root : Node) : root.EachOnce (fun _ => true) root.preorder :=
  ⟨root.paths, pairwise_lt_paths root, fun path => by simp [mem_paths_iff],
    (map_at?_paths root).symm⟩

/-- Some of the nodes, in the order of all. -/
theorem EachOnce.filter {root : Node} {accepts : Node → Bool} {nodes : List Node}
    (h : root.EachOnce accepts nodes) (keeps : Node → Bool) :
    root.EachOnce (fun node => accepts node && keeps node) (nodes.filter keeps) := by
  obtain ⟨paths, hpaths, hplaces, hnodes⟩ := h
  refine ⟨paths.filter fun path => (root.at? path).any keeps, hpaths.filter _, fun path => ?_, ?_⟩
  · rw [List.mem_filter, hplaces]
    grind
  · have hfilter := congrArg (List.filter (Option.any keeps)) hnodes
    rwa [List.filter_map, List.filter_map] at hfilter

theorem eachOnce_filter_descendants (root : Node) (accepts : Node → Bool) :
    root.EachOnce accepts (root.descendants.filter accepts) := by
  rw [descendants_eq]
  exact (eachOnce_preorder root).filter accepts

end Node

end DeclSchema
