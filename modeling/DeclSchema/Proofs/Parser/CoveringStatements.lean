import DeclSchema.Proofs.Parser.CarriedStatements
import DeclSchema.Proofs.Parser.CoveringTypes

/-!
# Sources over tokens

Declarations and statements give nodes that cover what they read, and so the nodes of a source
cover its tokens. Errors are found at a token or at the end, and each of them no earlier than
the one before it.
-/

namespace DeclSchema

namespace Parser

section

variable {s : State}

theorem lays_heritageClause : LaysNode heritageClause s := by
  refine .look ?_
  cases hrest : s.rest with
  | nil => exact .fail
  | cons keyword rest =>
    have hstart : s.start = keyword.span.start := by
      rw [State.start, hrest]
    refine (skips_advance 1).go fun _ t ht => (Lays.separated lays_type).next ht ?_
    exact fun types t ht => .look (.pure (ht.inner (hstart ▸ rfl) rfl))

theorem lays_braced {inside : Parser (List Node)} (h : ∀ s, LaysNodes false inside s) :
    LaysNodes true (braced inside) s := by
  refine (skips_expect _).go fun _ t ht => (h t).next ht fun nodes t ht => ?_
  exact (skips_expect _).next ht fun _ _ hu => .pure hu

theorem lays_interfaceParts : LaysNodes true interfaceParts s := by
  refine (lays_identifier _).go fun name t ht => ?_
  refine (lays_typeParametersIfAny lays_type).next ht fun generics t ht => ?_
  refine (Lays.repeatWhile fun _ => lays_heritageClause).next ht fun clauses t ht => ?_
  exact (lays_braced fun _ => lays_typeMembers lays_type).next ht fun inside t ht => .pure ht

theorem lays_className : LaysNodes false className s :=
  .look (.ite (fun _ => (lays_identifier _).go fun _ _ ht => .pure ht.lax) fun _ => .pure (.refl s))

theorem lays_classParts : LaysNodes true classParts s := by
  refine lays_className.go fun name t ht => ?_
  refine (lays_typeParametersIfAny lays_type).next ht fun generics t ht => ?_
  refine (Lays.repeatWhile fun _ => lays_heritageClause).next ht fun clauses t ht => ?_
  exact (lays_braced fun _ => lays_classMembers lays_type).next ht fun inside t ht => .pure ht

theorem lays_typeAliasParts : LaysNodes true typeAliasParts s := by
  refine (lays_identifier _).go fun name t ht => ?_
  refine (lays_typeParametersIfAny lays_type).next ht fun generics t ht => ?_
  refine (skips_expect _).next ht fun _ t ht => (lays_type t).next ht fun meaning t ht => ?_
  exact (skips_accept _).next ht fun _ t ht => .pure ht

theorem lays_enumParts : LaysNodes true enumParts s := by
  refine (lays_identifier _).go fun name t ht => .look (.ite (fun _ => ?_) fun _ => .fail)
  exact skips_skipGroup.next ht fun _ _ hu => .pure hu

theorem lays_moduleName : LaysNode moduleName s := by
  refine .look ?_
  cases hrest : s.rest with
  | nil => exact lays_entityName
  | cons token rest =>
    exact .ite (fun _ => .advance (.pure (.token hrest rfl rfl))) fun _ => lays_entityName

section

variable {block : Parser (List Node)} (h : ∀ s, LaysNodes false block s)

include h

theorem lays_moduleParts : LaysNodes true (moduleParts block) s := by
  refine lays_moduleName.go fun name t ht => .look (.ite (fun _ => ?_) fun _ => ?_)
  · refine (lays_braced h).go fun statements u hu => .look (.pure ?_)
    exact ht.trans (hu.inner rfl rfl)
  · exact (skips_accept _).next ht fun _ _ hu => .pure hu

theorem lays_parts (heading : Heading) : LaysNodes true (heading.parts block) s := by
  cases heading with
  | ofInterface => exact lays_interfaceParts
  | ofClass => exact lays_classParts
  | ofTypeAlias => exact lays_typeAliasParts
  | ofEnum => exact lays_enumParts
  | ofModule => exact lays_moduleParts h

/-- The node of a declaration begins where its statement does. -/
theorem leaves_declaration {first : State} {tags : List DocTag} {words : List Node}
    (hs : Laid true first s words) (heading : Heading) :
    Leaves (declaration block first tags words heading) s
      fun node? t => Laid false first t node?.toList := by
  refine (lays_parts h heading).next hs fun parts last hlast => ?_
  have hnode : Laid true first last [heading.node first last tags (words ++ parts)] :=
    hlast.inner rfl rfl
  rintro _ _ ⟨⟩
  exact hnode.lax.congr rfl rfl rfl

theorem lays_statement : Lays false Option.toList (statement block) s := by
  refine .look (skips_takeDocs.go fun before t ht => ?_)
  refine skips_skipDecorators.next ht fun _ t ht => skips_takeDocs.next ht fun behind t ht => ?_
  refine (lays_modifiers _).next ht fun words t ht => .look ?_
  cases hheading : t.heading? with
  | none => exact (skips_advance _).next ht.forget fun _ _ hu => .pure hu
  | some found =>
    obtain ⟨hpos, hne⟩ := heading?_some hheading
    exact (skips_advance_of_pos hpos hne).next ht fun _ u hu => leaves_declaration h hu _

theorem lays_statements (hkeeps : ∀ s, Keeps (State.Reaches s) block fun _ => True) :
    LaysNodes false (statements block) s := by
  refine Lays.members (fun t => lays_statement h) fun t => ?_
  have hblock : Keeps t.Reaches block fun nodes => ∀ node ∈ nodes, True :=
    (hkeeps t).mono fun _ _ _ _ => trivial
  have hstatement : Keeps t.Reaches (statement block) fun node? => ∀ node ∈ node?, True :=
    keeps_statement (steady_reaches t) (grows_trivial _) (n := 0) hblock
  exact hstatement.mono fun _ _ => trivial

end

theorem lays_blockWithin (levels : Nat) (s : State) : LaysNodes false (blockWithin levels) s := by
  induction levels generalizing s with
  | zero => exact .refuse
  | succ levels ih =>
    refine .nested fun t => lays_statements ih fun u => ?_
    exact (keeps_blockWithin (steady_reaches u) (grows_trivial _) levels).mono fun _ _ => trivial

theorem lays_runsUpTo (count : Nat) (s : State) : LaysNodes false (runsUpTo count) s := by
  induction count generalizing s with
  | zero => exact .pure (.refl s)
  | succ count ih =>
    have hkeeps : ∀ s, Keeps (State.Reaches s) (blockWithin maxDepth) fun _ => True := fun u =>
      (keeps_blockWithin (steady_reaches u) (grows_trivial _) maxDepth).mono fun _ _ => trivial
    refine (lays_statements (lays_blockWithin maxDepth) hkeeps).go fun nodes t ht => .look ?_
    refine .ite (fun _ => ?_) fun _ => .pure ht
    refine (skips_report _).next ht fun _ t ht => (skips_advance 1).next ht fun _ t ht => ?_
    exact (ih t).next ht fun _ _ hu => .pure hu

theorem lays_sourceFile : LaysNodes false sourceFile s :=
  lays_runsUpTo (s.rest.length + 1) s

end

/-- The errors recorded so far were found at tokens of the source or at its end, one behind the
other, and reading has not gone back behind any of them. -/
structure State.ReportsInOrder (source : String) (s : State) : Prop where
  stands : s.StandsIn source
  found : ∀ error ∈ s.errors, error.span = Span.empty source.utf8ByteSize ∨
    ∃ token ∈ (TokenStream.ofSource source).tokens, error.span = token.span
  reached : ∀ error ∈ s.errors, error.span.start ≤ s.start
  inOrder : s.errors.Pairwise fun earlier later => earlier.span.start ≤ later.span.start

namespace State.ReportsInOrder

variable {source : String} {s t : State}

/-- Reading on keeps the errors in order while none is added. -/
theorem of_reaches (h : s.ReportsInOrder source) (hto : s.Reaches t)
    (herrors : t.errors = s.errors) : t.ReportsInOrder source where
  stands := standsIn_iff.mpr ((standsIn_iff.mp h.stands).trans hto)
  found := herrors ▸ h.found
  reached := by
    obtain ⟨_, hread⟩ := hto
    rw [herrors]
    exact fun error hmem => Nat.le_trans (h.reached error hmem) (hread.start_le h.stands.ordered)
  inOrder := herrors ▸ h.inOrder

/-- An error is found where reading stands. -/
theorem failed (h : s.ReportsInOrder source) (fault : Fault) :
    (s.record (s.errorHere fault)).ReportsInOrder source where
  stands := h.stands.congr rfl rfl rfl
  found := by
    refine List.forall_mem_append.mpr ⟨h.found, List.forall_mem_singleton.mpr ?_⟩
    obtain ⟨before, hbefore⟩ := h.stands.exists_append
    unfold errorHere
    cases hrest : s.rest with
    | nil => exact .inl (congrArg Span.empty h.stands.length)
    | cons token rest =>
      rw [hrest] at hbefore
      exact .inr ⟨token, by simp [hbefore], rfl⟩
  reached := List.forall_mem_append.mpr
    ⟨h.reached, List.forall_mem_singleton.mpr (Nat.le_of_eq (start_errorHere s fault))⟩
  inOrder := by
    refine List.pairwise_append.mpr ⟨h.inOrder, List.pairwise_singleton _ _, ?_⟩
    intro earlier hmem later hlater
    rw [List.mem_singleton.mp hlater, start_errorHere]
    exact h.reached earlier hmem

end State.ReportsInOrder

theorem steady_reportsInOrder (source : String) : Steady (State.ReportsInOrder source) where
  advance s count hs := hs.of_reaches ((State.Reaches.refl s).advance count) rfl
  document s _ hs := hs.of_reaches ((State.Reaches.refl s).congr rfl rfl rfl) rfl
  deepen s _ hs := hs.of_reaches ((State.Reaches.refl s).congr rfl rfl rfl) rfl
  declared s _ _ _ hs := hs.of_reaches ((State.Reaches.refl s).congr rfl rfl rfl) rfl
  failed _ fault hs := hs.failed fault
  refused s hs := State.ReportsInOrder.failed
    (hs.of_reaches ((State.Reaches.refl s).congr rfl rfl rfl : s.Reaches (s.note .refused)) rfl)
    .nestingTooDeep
  returned s levels withBody hs _ _ _ := by
    have hbehind := ((State.Reaches.refl s).advance 1).advance 1
    refine hs.of_reaches (hbehind.returnType withBody (reaches_typeWithin levels s)) ?_
    exact State.errors_returnType (typeWithin levels) withBody _

end Parser

namespace Parse

open DeclSchema.Parser

/-- The statements of a source cover some of its tokens. -/
theorem coveredBy_ofSource (source : String) :
    CoveredBy (TokenStream.ofSource source).tokens (ofSource source).root.children := by
  obtain ⟨nodes, t, hrun⟩ := sourceFile_eq_ok (.ofSource source)
  obtain ⟨read, hread, -, hcovered⟩ := lays_sourceFile nodes t hrun (State.ordered_ofSource source)
  have hbehind := hcovered.append (.nil t.rest)
  rw [List.append_nil, ← hread.rest] at hbehind
  rw [root_eq hrun]
  exact hbehind

/-- The spans of a tree are nested as its nodes are. The root spans the whole source. Every other
node begins where a token begins and ends behind that, where one ends, and the children of any
node lie in its span, one behind the other. Errors are found at a token or at the end of the source, and are
recorded in the order in which they start. -/
theorem spans_nested (source : String) :
    (ofSource source).root.span = ⟨0, source.utf8ByteSize⟩ ∧
      (ofSource source).root.span.Holds (ofSource source).root.children ∧
      (∀ child ∈ (ofSource source).root.children, ∀ node ∈ child.descendants,
        node.Aligned (TokenStream.ofSource source).tokens) ∧
      (∀ error ∈ (ofSource source).errors, error.span = Span.empty source.utf8ByteSize ∨
        ∃ token ∈ (TokenStream.ofSource source).tokens, error.span = token.span) ∧
      (ofSource source).errors.Pairwise fun earlier later =>
        earlier.span.start ≤ later.span.start := by
  obtain ⟨nodes, t, hrun⟩ := sourceFile_eq_ok (.ofSource source)
  have htokens := TokenStream.inOrder_ofSource source
  have hcovered := coveredBy_ofSource source
  have herrors : (ofSource source).errors = t.errors := congrArg (·.2.errors) hrun
  have hbegin : (State.ofSource source).ReportsInOrder source :=
    ⟨State.standsIn_ofSource source, nofun, nofun, .nil⟩
  have hreports := ((Keeps.sourceFile (steady_reportsInOrder source) (grows_trivial _)).of_ok hbegin
    hrun).1
  rw [root_eq hrun] at hcovered ⊢
  rw [herrors]
  refine ⟨rfl, hcovered.holds htokens, fun child hchild node hnode => ?_, hreports.found,
    hreports.inOrder⟩
  rw [Node.descendants_eq] at hnode
  exact hcovered.aligned htokens node (Node.mem_preorderList.mpr ⟨child, hchild, hnode⟩)

end Parse

end DeclSchema
