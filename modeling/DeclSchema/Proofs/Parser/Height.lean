import DeclSchema.Proofs.Parser.Building
import DeclSchema.Proofs.Phrase.Documents

/-!
# How high trees are

The levels of types and of blocks bound how high a tree is, except for square brackets
behind a type: each pair is one node more above the type before it, and no level is entered
for it. `nesting` leaves these nodes out and is bounded for all sources; the height of a
tree exceeds it by no more than the number of pairs of square brackets, and by as much as
that. A level that is refused is reported, unless it is in a return type.
-/

namespace DeclSchema

namespace Node

/-- The number of nodes on the longest way down from a node. -/
def height : Node → Nat
  | ⟨_, _, _, _, children⟩ => 1 + heightList children
where
  /-- The largest height of several nodes. -/
  heightList : List Node → Nat
    | [] => 0
    | node :: rest => max (height node) (heightList rest)

/-- The height without the nodes made by square brackets: they count for what is inside the
brackets, but not for the type before them. -/
def nesting : Node → Nat
  | ⟨kind, _, _, _, children⟩ =>
    if kind.isSuffixed then nestingSuffixed children else 1 + nestingList children
where
  /-- The largest nesting of several nodes. -/
  nestingList : List Node → Nat
    | [] => 0
    | node :: rest => max (nesting node) (nestingList rest)
  /-- The nesting of a type with what is inside the square brackets behind it. -/
  nestingSuffixed : List Node → Nat
    | [] => 1
    | target :: inside => max (nesting target) (1 + nestingList inside)

/-- The number of pairs of square brackets behind the types of a tree. -/
def suffixCount (node : Node) : Nat :=
  node.descendants.countP (·.kind.isSuffixed)

theorem nestingList_le {bound : Nat} {nodes : List Node}
    (h : ∀ node ∈ nodes, node.nesting ≤ bound) : nesting.nestingList nodes ≤ bound := by
  induction nodes with
  | nil => exact Nat.zero_le _
  | cons node rest ih =>
    obtain ⟨hnode, hrest⟩ := List.forall_mem_cons.mp h
    exact Nat.max_le.mpr ⟨hnode, ih hrest⟩

theorem nesting_le {bound : Nat} {node : Node}
    (h : ∀ child ∈ node.children, child.nesting ≤ bound) : node.nesting ≤ bound + 1 := by
  obtain ⟨kind, text, tags, span, children⟩ := node
  have hle : nesting.nestingList children ≤ bound := nestingList_le h
  rw [nesting]
  split
  · cases children with
    | nil => exact Nat.le_add_left _ _
    | cons target inside =>
      rw [nesting.nestingList] at hle
      rw [nesting.nestingSuffixed]
      omega
  · omega

theorem nesting_pos (node : Node) : 0 < node.nesting := by
  obtain ⟨kind, text, tags, span, children⟩ := node
  rw [nesting]
  split
  · cases children with
    | nil => exact Nat.one_pos
    | cons target inside =>
      rw [nesting.nestingSuffixed]
      omega
  · omega

theorem nesting_array (span : Span) (target : Node) :
    nesting ⟨.arrayType, none, [], span, [target]⟩ = max target.nesting 1 :=
  rfl

theorem nesting_indexed (span : Span) (target index : Node) :
    nesting ⟨.indexedAccessType, none, [], span, [target, index]⟩ =
      max target.nesting (1 + max index.nesting 0) :=
  rfl

mutual

theorem height_le_nesting : ∀ node : Node,
    node.height ≤ node.nesting + node.preorder.countP (·.kind.isSuffixed)
  | ⟨kind, text, tags, span, children⟩ => by
    rw [height, nesting, preorder, List.countP_cons]
    by_cases hkind : kind.isSuffixed
    · have hle := heightList_le_nestingSuffixed children
      rw [if_pos hkind, if_pos hkind]
      omega
    · have hle := heightList_le_nestingList children
      rw [if_neg hkind, if_neg hkind]
      omega

theorem heightList_le_nestingList : ∀ nodes : List Node,
    height.heightList nodes ≤
      nesting.nestingList nodes + (preorder.preorderList nodes).countP (·.kind.isSuffixed)
  | [] => Nat.zero_le _
  | node :: rest => by
    have hnode := height_le_nesting node
    have hrest := heightList_le_nestingList rest
    rw [height.heightList, nesting.nestingList, preorder.preorderList, List.countP_append]
    omega

theorem heightList_le_nestingSuffixed : ∀ nodes : List Node,
    height.heightList nodes ≤
      nesting.nestingSuffixed nodes + (preorder.preorderList nodes).countP (·.kind.isSuffixed)
  | [] => Nat.zero_le _
  | target :: inside => by
    have htarget := height_le_nesting target
    have hinside := heightList_le_nestingList inside
    rw [height.heightList, nesting.nestingSuffixed, preorder.preorderList, List.countP_append]
    omega

end

mutual

theorem height_withoutSpans : ∀ node : Node, node.withoutSpans.height = node.height
  | ⟨kind, text, tags, span, children⟩ => by
    rw [withoutSpans, height, height, heightList_withoutSpans children]

theorem heightList_withoutSpans : ∀ nodes : List Node,
    height.heightList (withoutSpans.list nodes) = height.heightList nodes
  | [] => rfl
  | node :: rest => by
    rw [withoutSpans.list, height.heightList, height.heightList, height_withoutSpans node,
      heightList_withoutSpans rest]

end

end Node

namespace Parser

/-- What is left out of the nesting is what does not raise the bound. -/
theorem grows_nesting (I : State → Prop) : Grows I fun n node => node.nesting ≤ n where
  mono hmn h := Nat.le_trans h hmn
  inner _ hchildren := Node.nesting_le hchildren
  literal _ := Node.nesting_le (by simp [Node.leaf])
  annotated _ hchildren := Node.nesting_le hchildren
  array {_ span target} h := by
    have hpos := target.nesting_pos
    rw [Node.nesting_array]
    omega
  indexed htarget hindex := by
    rw [Node.nesting_indexed]
    omega

/-- A closing round bracket and a colon stand next to each other in the source, as before
the type that a function or a method returns. -/
def StatesReturnType (source : String) : Prop :=
  ∃ before close colon after,
    (TokenStream.ofSource source).tokens = before ++ close :: colon :: after ∧
      close.kind = .rParen ∧ colon.kind = .colon

/-- An error about the nesting is recorded. -/
def State.ReportsNesting (s : State) : Prop :=
  ∃ error ∈ s.errors, error.fault = .nestingTooDeep

theorem State.ReportsNesting.record {s : State} (h : s.ReportsNesting) (error : ParseError) :
    (s.record error).ReportsNesting := by
  obtain ⟨found, hmem, hfault⟩ := h
  exact ⟨found, List.mem_append_left _ hmem, hfault⟩

theorem statesReturnType_of_isAt {source : String} {s : State} (hs : s.StandsIn source)
    (hclose : s.isAt .rParen) (hcolon : (s.advance 1).isAt .colon) : StatesReturnType source := by
  obtain ⟨before, hbefore⟩ := hs.exists_append
  obtain ⟨close, rest, hrest, hkind⟩ := rest_of_isAt hclose
  obtain ⟨colon, after, hafter, hkind'⟩ := rest_of_isAt hcolon
  have hbehind : rest = colon :: after := by
    rw [← hafter, State.rest_advance, hrest]
    rfl
  exact ⟨before, close, colon, after, by rw [hbefore, hrest, hbehind], hkind, hkind'⟩

/-- A level that is refused is recorded by the time that its error is, and stays recorded
but in return types. -/
theorem steady_reports (source : String) : Steady fun s => s.StandsIn source ∧
    (.refused ∈ s.journal → s.ReportsNesting ∨ StatesReturnType source) := by
  have hstands := steady_standsIn source
  exact {
    advance := fun s count hs => ⟨hstands.advance s count hs.1, hs.2⟩
    document := fun s docs hs => ⟨hstands.document s docs hs.1, hs.2⟩
    deepen := fun s depth hs => ⟨hstands.deepen s depth hs.1, hs.2⟩
    declared := fun s node before after hs => by
      refine ⟨hstands.declared s node before after hs.1, fun hmem => hs.2 ?_⟩
      simpa [State.note] using hmem
    failed := fun s fault hs =>
      ⟨hstands.failed s fault hs.1, fun hmem => (hs.2 hmem).imp_left (·.record _)⟩
    refused := fun s hs => by
      refine ⟨hstands.refused s hs.1, fun _ => .inl ⟨_, List.mem_append_right _
        (List.mem_singleton_self _), ?_⟩⟩
      unfold State.errorHere
      split <;> rfl
    returned := fun s levels withBody hs hclose hcolon hkeeps => by
      have hreturn := statesReturnType_of_isAt hs.1 hclose hcolon
      refine ⟨hstands.returned s levels withBody hs.1 hclose hcolon ?_, fun _ => .inr hreturn⟩
      exact (keeps_typeWithin hstands (grows_nesting _) levels).mono fun _ _ => trivial }

end Parser

namespace Parse

open DeclSchema.Parser

/-- The nodes of a source are no more inside each other than the levels of types and of
blocks allow, but for those made by square brackets behind a type, of which any number may
stand on top of each other. A level that is refused is reported, unless the source states a
return type, of which nothing is in the tree and no error is kept. -/
theorem nesting_bounded (source : String) :
    (ofSource source).root.nesting ≤ 8 * maxDepth + 6 ∧
      (ofSource source).root.height ≤
        (ofSource source).root.nesting + (ofSource source).root.suffixCount ∧
      (.refused ∈ journal source →
        (∃ error ∈ (ofSource source).errors, error.fault = .nestingTooDeep ∧
          ∃ found, error.message = "nesting too deep" ++ found) ∨ StatesReturnType source) := by
  have hbegin := State.standsIn_ofSource source
  obtain ⟨nodes, t, hrun⟩ := sourceFile_eq_ok (.ofSource source)
  refine ⟨?_, ?_, fun hrefused => ?_⟩
  · have hkeeps := Keeps.sourceFile (steady_standsIn source) (grows_nesting _)
    rw [root_eq hrun]
    exact Node.nesting_le (hkeeps.of_ok hbegin hrun).2
  · rw [Node.suffixCount, Node.descendants_eq]
    exact Node.height_le_nesting _
  · have hkeeps := Keeps.sourceFile (steady_reports source) (grows_nesting _)
    have hreports := (hkeeps.of_ok ⟨hbegin, fun hmem => absurd hmem List.not_mem_nil⟩ hrun).1.2
    have herrors : (ofSource source).errors = t.errors := congrArg (·.2.errors) hrun
    have hjournal : journal source = t.journal := congrArg (·.2.journal) hrun
    refine (hreports (hjournal ▸ hrefused)).imp_left fun ⟨error, hmem, hfault⟩ => ?_
    refine ⟨error, herrors ▸ hmem, hfault, ?_⟩
    rw [ParseError.message, hfault]
    exact ⟨_, rfl⟩

/-- Of 65 types inside each other the innermost is refused and reported. -/
theorem nesting_bounded_parentheses :
    let source := "type T = " ++ "".pushn '(' 64
    .refused ∈ journal source ∧
      ((∃ error ∈ (ofSource source).errors, error.fault = .nestingTooDeep ∧
        ∃ found, error.message = "nesting too deep" ++ found) ∨ StatesReturnType source) := by
  intro source
  have hany : (journal source).any fun event => event matches .refused := by decide +kernel
  have hrefused : .refused ∈ journal source := by
    obtain ⟨event, hevent, hmatches⟩ := List.any_eq_true.mp hany
    cases event with
    | refused => exact hevent
    | gaveBack | declared => cases hmatches
  exact ⟨hrefused, (nesting_bounded source).2.2 hrefused⟩

/-- A type with as many pairs of square brackets behind it as are asked for. -/
def arrays : Nat → Phrase (.one .suffixed)
  | 0 => .keyword ⟨"string", rfl⟩ .stringKeyword rfl
  | count + 1 => .array (arrays count)

theorem depth_arrays (count : Nat) : (arrays count).depth = 0 := by
  induction count with
  | zero => rfl
  | succ count ih => exact ih

theorem heightList_arrays (count : Nat) :
    Node.height.heightList (arrays count).nodes = count + 1 := by
  induction count with
  | zero => rfl
  | succ count ih =>
    show max (1 + Node.height.heightList (arrays count).nodes) 0 = _
    rw [ih]
    omega

/-- An interface with a property of such a type. -/
def arraySource (count : Nat) : String :=
  annotated ⟨"A", rfl⟩ ⟨"x", rfl⟩ (.ofIntersection (.ofSuffixed (arrays count)))

theorem height_arraySource (count : Nat) :
    (ofSource (arraySource count)).errors = [] ∧
      (ofSource (arraySource count)).root.height = count + 4 := by
  have hdepth : (arrays count).depth + 1 ≤ maxDepth := by
    rw [depth_arrays]
    decide
  let line : InterfacePhrase :=
    ⟨⟨"A", rfl⟩, [⟨.word ⟨"x", rfl⟩, false, .ofIntersection (.ofSuffixed (arrays count))⟩]⟩
  have hline : ∀ declared ∈ [line], ∀ property ∈ declared.properties,
      property.phrase.depth ≤ maxDepth := by
    simpa [line] using hdepth
  obtain ⟨herrors, hroot⟩ := ofSource_document hline
  rw [arraySource, annotated_eq]
  refine ⟨herrors, ?_⟩
  rw [← Node.height_withoutSpans, hroot]
  show 1 + max (1 + max 1 (max (1 + max 1 (Node.height.heightList (arrays count).nodes)) 0)) 0 = _
  rw [heightList_arrays]
  omega

/-- No bound on the height of trees holds for all sources, nor for those without errors. -/
theorem not_height_bounded :
    ¬ ∃ bound, ∀ source, (ofSource source).errors = [] →
      (ofSource source).root.height ≤ bound := by
  rintro ⟨bound, hbound⟩
  obtain ⟨herrors, hheight⟩ := height_arraySource bound
  have hle := hbound _ herrors
  omega

end Parse

end DeclSchema
