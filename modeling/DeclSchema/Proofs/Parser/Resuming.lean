import DeclSchema.Proofs.Parser.Building
import DeclSchema.Proofs.Parser.Concatenation
import DeclSchema.Proofs.Parser.Interface

/-!
# Going on behind a malformed statement

What is skipped behind a malformed statement has at least the token where the error was
found, whatever that token is. A declaration that begins there is therefore not read: all
declarations of the tree begin behind it.
-/

namespace DeclSchema

namespace Parser

open Node

/-- The interfaces and classes among the nodes and below them begin at a place or behind it,
and none of them has another one below it. -/
def StartFrom (place : Nat) (nodes : List Node) : Prop :=
  ∀ node ∈ preorder.preorderList nodes, node.kind.declares →
    place ≤ node.span.start ∧ AllPlain node.children

/-- The next token stands at a place or behind it. -/
def State.Reached (place : Nat) (s : State) : Prop :=
  s.Ordered ∧ place ≤ s.start

section

variable {α : Type} {J : Event → Prop} {p : Parser α} {P : α → Prop} {place : Nat}

theorem startFrom_of_allPlain {nodes : List Node} (h : AllPlain nodes) : StartFrom place nodes := by
  intro node hnode hkind
  obtain ⟨root, hroot, hmem⟩ := mem_preorderList.mp hnode
  exact absurd hkind (by rw [h root hroot node hmem]; decide)

theorem startFrom_append {first second : List Node} :
    StartFrom place (first ++ second) ↔ StartFrom place first ∧ StartFrom place second := by
  simp only [StartFrom, preorderList_append, List.mem_append]
  grind

theorem startFrom_cons {node : Node} {nodes : List Node} :
    StartFrom place (node :: nodes) ↔
      (node.kind.declares → place ≤ node.span.start ∧ AllPlain node.children) ∧
        StartFrom place node.children ∧ StartFrom place nodes := by
  rw [← List.singleton_append, startFrom_append, ← and_assoc]
  simp only [StartFrom, preorder.preorderList, List.append_nil, preorder_eq, List.mem_cons,
    forall_eq_or_imp]

theorem startFrom_iff {nodes : List Node} :
    StartFrom place nodes ↔ ∀ node ∈ nodes, StartFrom place [node] := by
  simp only [StartFrom, mem_preorderList, List.mem_singleton]
  grind

theorem State.Reached.of_follows {s t : State} {b : Nat} (h : s.Reached place)
    (hst : Follows J s t b) : t.Reached place :=
  ⟨hst.ordered, Nat.le_trans h.2 hst.start_le_start⟩

/-- Reading goes forward. -/
theorem Orderly.keeps (h : Orderly J p P) : Keeps (State.Reached place) p P := by
  intro s hs
  have hstep := h s hs.1
  rcases hp : p s with ⟨error | a, t⟩ <;> rw [hp] at hstep
  · exact show t.Reached place from hs.of_follows hstep.1
  · exact ⟨hs.of_follows hstep.1, hstep.2⟩

theorem steady_reached (place : Nat) : Steady (State.Reached place) where
  advance s count hs := hs.of_follows (J := Quiet) (.advance hs.1 count 0)
  document _ _ hs := hs
  deepen _ _ hs := hs
  declared _ _ _ _ hs := hs
  failed _ _ hs := hs
  refused _ hs := hs
  returned s levels withBody hs _ _ _ := by
    have hbegin : ((s.advance 1).advance 1).Reached place := by
      have hone := hs.of_follows (J := Quiet) (.advance hs.1 1 0)
      exact hone.of_follows (J := Quiet) (.advance hone.1 1 0)
    have hleft := (orderly_returnType (orderly_typeWithin levels) withBody).keeps _ hbegin
    rcases hrun : returnType (typeWithin levels) withBody ((s.advance 1).advance 1) with
      ⟨error | a, t⟩ <;> rw [hrun] at hleft
    · exact hleft
    · exact hleft.1

end

section

variable {block : Parser (List Node)} {place : Nat}

theorem keeps_moduleParts_startFrom (hblock : Keeps (State.Reached place) block (StartFrom place)) :
    Keeps (State.Reached place) (moduleParts block) (StartFrom place) := by
  have hI := steady_reached place
  refine .bind orderly_moduleName.keeps fun name hname => .look fun s _ => .ite ?_ ?_
  · refine .bind (keeps_braced hI hblock) fun nodes hnodes => .look fun last _ => .pure ?_
    have hplain : AllPlain [name] := by simpa using hname
    have hblock : StartFrom place [Node.inner .moduleBlock s.start last.prevEnd nodes] :=
      startFrom_cons.mpr ⟨nofun, hnodes, startFrom_of_allPlain allPlain_nil⟩
    show StartFrom place ([name] ++ _)
    exact startFrom_append.mpr ⟨startFrom_of_allPlain hplain, hblock⟩
  · have hplain : AllPlain [name] := by simpa using hname
    exact .bind (.accept hI _) fun _ _ => .pure (startFrom_of_allPlain hplain)

/-- Of all declarations only a namespace has others below it. -/
theorem keeps_parts_startFrom (hblock : Keeps (State.Reached place) block (StartFrom place))
    (heading : Heading) :
    Keeps (State.Reached place) (heading.parts block) fun parts =>
      StartFrom place parts ∧ (heading.kind.declares → AllPlain parts) := by
  have hplain : ∀ {parts : Parser (List Node)} {c : Prop}, Orderly Quiet parts AllPlain →
      Keeps (State.Reached place) parts fun parts => StartFrom place parts ∧ (c → AllPlain parts) :=
    fun h => h.keeps.mono fun _ hparts => ⟨startFrom_of_allPlain hparts, fun _ => hparts⟩
  cases heading with
  | ofInterface => exact hplain orderly_interfaceParts
  | ofClass => exact hplain orderly_classParts
  | ofTypeAlias => exact hplain orderly_typeAliasParts
  | ofEnum => exact hplain orderly_enumParts
  | ofModule => exact (keeps_moduleParts_startFrom hblock).mono fun _ hparts => ⟨hparts, nofun⟩

/-- The node of a statement begins where the statement does. -/
theorem keeps_statement_startFrom (hblock : Keeps (State.Reached place) block (StartFrom place)) :
    Keeps (State.Reached place) (statement block) fun node? =>
      ∀ node ∈ node?, StartFrom place [node] := by
  intro s hs
  rcases statement_cases block hs.1 with
    ⟨t, hrun, hst⟩ | ⟨u, tags, words, heading, hrun, hsu, hwords⟩
  · rw [hrun]
    exact ⟨hs.of_follows hst, nofun⟩
  · have hleft := keeps_parts_startFrom hblock heading u (hs.of_follows hsu)
    rw [hrun]
    rcases hparts : heading.parts block u with ⟨error | parts, t⟩ <;> rw [hparts] at hleft
    · rw [declaration_of_error hparts]
      exact hleft
    · rw [declaration_of_parts hparts]
      refine ⟨hleft.1, fun node hnode => ?_⟩
      cases hnode
      obtain ⟨-, hparts, hplain⟩ := hleft
      exact startFrom_cons.mpr
        ⟨fun hkind => ⟨hs.2, allPlain_append.mpr ⟨hwords, hplain hkind⟩⟩,
          startFrom_append.mpr ⟨startFrom_of_allPlain hwords, hparts⟩,
          startFrom_of_allPlain allPlain_nil⟩

theorem keeps_statements_startFrom (hblock : Keeps (State.Reached place) block (StartFrom place)) :
    Keeps (State.Reached place) (statements block) (StartFrom place) :=
  (Keeps.members (steady_reached place) (keeps_statement_startFrom hblock)).mono fun _ =>
    startFrom_iff.mpr

theorem keeps_blockWithin_startFrom (levels : Nat) :
    Keeps (State.Reached place) (blockWithin levels) (StartFrom place) := by
  induction levels with
  | zero => exact .refuse (steady_reached place)
  | succ levels ih => exact (keeps_statements_startFrom ih).nested (steady_reached place)

end

theorem keeps_runsUpTo_startFrom (place count : Nat) :
    Keeps (State.Reached place) (runsUpTo count) (StartFrom place) := by
  have hI := steady_reached place
  induction count with
  | zero => exact .pure (startFrom_of_allPlain allPlain_nil)
  | succ count ih =>
    refine .bind (keeps_statements_startFrom (keeps_blockWithin_startFrom maxDepth))
      fun nodes hnodes => .lookAt fun s hs => ?_
    split
    · have hrest : Keeps (State.Reached place)
          (do return nodes ++ (← runsUpTo count) : Parser (List Node)) (StartFrom place) :=
        .bind ih fun others hothers => .pure (startFrom_append.mpr ⟨hnodes, hothers⟩)
      exact hrest s.passStrayBrace (hI.advance _ 1 (hI.failed s .strayBrace hs))
    · exact ⟨hs, hnodes⟩

section

variable {block : Parser (List Node)} {s t : State}

theorem rest_takeDocs {tags : List DocTag} (h : takeDocs s = (.ok tags, t)) : t.rest = s.rest := by
  unfold takeDocs at h
  split at h <;> cases h <;> rfl

/-- A statement that begins with neither a word nor a decorator is passed over. -/
theorem statement_of_ne_word (block : Parser (List Node))
    (h : ∀ token ∈ s.rest.head?, token.kind ≠ .word ∧ token.kind ≠ .atSign) :
    ∃ t, statement block s = (.ok none, t) := by
  have hskip : ∀ u : State, u.rest = s.rest → skipDecorators u = (.ok (), u) := by
    intro u hu
    cases hrest : s.rest with
    | nil => exact congrArg _ (State.advance_of_rest_eq_nil (hu.trans hrest) _)
    | cons token rest =>
      exact skipDecorators_of_ne (hu.trans hrest) (h token (by simp [hrest])).2
  have hwords : ∀ u : State, u.rest = s.rest → modifiers statementModifier u = (.ok [], u) := by
    intro u hu
    cases hrest : s.rest with
    | nil =>
      have hnone : leadingModifiers statementModifier false u.rest = ([], 0) := by
        rw [hu, hrest]
        rfl
      show (Except.ok (leadingModifiers statementModifier false u.rest).1,
        u.advance (leadingModifiers statementModifier false u.rest).2) = _
      rw [hnone, State.advance_zero]
    | cons token rest =>
      have hword := Token.word?_eq_none_iff.mpr (h token (by simp [hrest])).1
      exact modifiers_of_stop (hu.trans hrest) (by unfold statementModifier; rw [hword])
  obtain ⟨before, s₁, h₁⟩ := takeDocs_eq_ok s
  obtain ⟨behind, s₂, h₂⟩ := takeDocs_eq_ok s₁
  have hrest₁ := rest_takeDocs h₁
  have hrest₂ := (rest_takeDocs h₂).trans hrest₁
  have hheading : s₂.heading? = none := by
    have hword : s₂.nthWord? 0 = none := by
      rw [State.nthWord?, hrest₂, ← List.head?_eq_getElem?, Option.bind_eq_none_iff]
      exact fun token htoken => Token.word?_eq_none_iff.mpr (h token htoken).1
    unfold State.heading?
    rw [hword]
  refine ⟨s₂.advance (statementLength true 0 s₂.rest), ?_⟩
  unfold statement
  rw [look_bind_apply, bind_apply_ok h₁,
    bind_apply_ok (hskip s₁ hrest₁), bind_apply_ok h₂, bind_apply_ok (hwords s₂ hrest₂),
    look_bind_apply, hheading]
  rfl

/-- Behind a malformed statement reading goes on as if it began there. -/
theorem runsUpTo_of_statement_error {error : ParseError}
    (h : statement (blockWithin maxDepth) s = (.error error, t)) (count : Nat) :
    runsUpTo (count + 1) s = runsUpTo (count + 1) (t.recover (statementLength true 0) error) := by
  obtain ⟨token, rest, hrest, hkind⟩ : ∃ token rest, s.rest = token :: rest ∧
      (token.kind = .word ∨ token.kind = .atSign) := by
    by_contra hnone
    obtain ⟨u, hrun⟩ := statement_of_ne_word (s := s) (blockWithin maxDepth) (by
      intro token htoken
      obtain ⟨rest, hrest⟩ := List.head?_eq_some_iff.mp htoken
      exact not_or.mp fun hkind => hnone ⟨token, rest, hrest, hkind⟩)
    cases h.symm.trans hrun
  have hends : ¬ s.endsMembers := by
    rw [endsMembers_iff]
    rcases hkind with hkind | hkind <;> simp [hrest, hkind]
  have hsep : ¬ s.isAt .semicolon := by
    rw [isAt_iff hrest]
    rcases hkind with hkind | hkind <;> simp [hkind]
  have hself := skipSeparators_of_not_isAt hsep
  have hlength := (Forward.of_run h).rest.length_le
  rw [hrest, List.length_cons] at hlength
  have hstatements : statements (blockWithin maxDepth) s =
      statements (blockWithin maxDepth) (t.recover (statementLength true 0) error) := by
    show membersUpTo _ _ _ s.rest.length s = membersUpTo _ _ _ _ _
    rw [hrest, List.length_cons, membersUpTo_of_error _ (hself.symm ▸ hends) (hself.symm ▸ h)]
    rcases length_recover_lt_or_ends (s := t) recovers_statementLength error with hlt | hstop
    · exact membersUpTo_eq (by decide) recovers_statementLength consumes_statement _ _ _
        (by omega) (Nat.le_refl _)
    · rw [membersUpTo_of_endsMembers (by decide) hstop,
        membersUpTo_of_endsMembers (by decide) hstop]
  unfold runsUpTo
  rw [bind_apply, bind_apply, hstatements]

/-- Where a closing brace comes next, or nothing, statements are read behind the brace only. -/
theorem startFrom_of_endsMembers (hs : s.Ordered) (hends : s.endsMembers) (count : Nat)
    {nodes : List Node} {u : State} (hrun : runsUpTo (count + 1) s = (.ok nodes, u)) :
    StartFrom (s.start + 1) nodes := by
  have hstop : statements (blockWithin maxDepth) s = (.ok [], s) :=
    membersUpTo_of_endsMembers (by decide) hends _
  by_cases hbrace : s.isAt .rBrace
  · rw [runsUpTo_of_isAt count hstop hbrace] at hrun
    obtain ⟨others, v, hothers, hlast⟩ := exists_of_bind_ok hrun
    cases hlast
    have hpass : s.passStrayBrace.Reached (s.start + 1) :=
      ⟨(Follows.recover (J := Quiet) _ hs (start_errorHere s _)).ordered,
        start_lt_start_advance (s := s.record _) hs Nat.one_pos (ne_nil_of_isAt hbrace)⟩
    exact ((keeps_runsUpTo_startFrom _ _).of_ok hpass hothers).2
  · rw [runsUpTo_of_not_isAt count hstop hbrace] at hrun
    cases hrun
    exact startFrom_of_allPlain allPlain_nil

/-- All declarations that are read begin behind the token where the error was found. -/
theorem startFrom_of_statement_error (hs : s.Ordered) {error : ParseError}
    (h : statement (blockWithin maxDepth) s = (.error error, t)) (count : Nat) {nodes : List Node}
    {u : State} (hrun : runsUpTo (count + 1) s = (.ok nodes, u)) :
    error ∈ u.errors ∧ StartFrom (error.span.start + 1) nodes := by
  obtain ⟨hst, herror⟩ := (orderly_statement (trailing_blockWithin maxDepth)).of_error hs h
  have hrecover : Follows Quiet t (t.recover (statementLength true 0) error) (t.start + 1) :=
    .recover _ hst.ordered herror
  rw [runsUpTo_of_statement_error h count] at hrun
  rw [herror]
  constructor
  · have hleads := Forward.of_run hrun
    exact hleads.errors.subset (List.mem_append_right _ (List.mem_singleton.mpr rfl))
  by_cases hzero : statementLength true 0 t.rest = 0
  · -- A closing brace stands where the error is, or the end of the source.
    have hends : (t.recover (statementLength true 0) error).endsMembers := by
      rw [endsMembers_iff, State.recover, hzero, State.advance_zero]
      exact recovers_statementLength _ hzero
    have hbehind := startFrom_of_endsMembers hrecover.ordered hends count hrun
    rwa [State.recover, hzero, State.advance_zero] at hbehind
  · have hrest : t.rest ≠ [] := fun hrest => hzero (by rw [hrest]; rfl)
    have hlt := start_lt_start_advance hst.ordered (Nat.pos_of_ne_zero hzero) hrest
    have hreached : (t.recover (statementLength true 0) error).Reached (t.start + 1) :=
      ⟨hrecover.ordered, hlt⟩
    exact ((keeps_runsUpTo_startFrom _ _).of_ok hreached hrun).2

end

end Parser

namespace Parse

open DeclSchema.Parser

/-- No interface and no class of a source has another one below it. -/
theorem startFrom_children (source : String) : StartFrom 0 (ofSource source).root.children := by
  obtain ⟨nodes, t, hrun⟩ := sourceFile_eq_ok (.ofSource source)
  rw [root_eq hrun]
  exact ((keeps_runsUpTo_startFrom 0 _).of_ok
    ⟨State.ordered_ofSource source, Nat.zero_le _⟩ hrun).2

/-- The source is an interface and nothing else is read from it: it has no error, and its one
node is an interface that begins with its first token. -/
structure IsInterface (source : String) (node : Node) : Prop where
  accepted : (ofSource source).errors = []
  children : (ofSource source).root.children = [node]
  kind : node.kind = .interfaceDeclaration
  start : node.span.start = (State.ofSource source).start

/-- A statement that fails at the first token of what stands on the next line takes that
token with it, be it the first of a declaration: the error is recorded, every interface and
every class that is read begins behind it, and an interface on that line is not read. -/
theorem malformed_header (header rest : String) {error : ParseError} {t : State} {node : Node}
    (hrest : IsInterface rest node)
    (hfails : statement (blockWithin maxDepth) (.ofSource (header ++ "\n" ++ rest)) =
      (.error error, t))
    (hplace : error.span.start = header.utf8ByteSize + 1 + (State.ofSource rest).start) :
    error ∈ (ofSource (header ++ "\n" ++ rest)).errors ∧
      (∀ other ∈ (ofSource (header ++ "\n" ++ rest)).root.descendants, other.kind.declares →
        error.span.start < other.span.start) ∧
      shift (header.utf8ByteSize + 1) node ∉
        (ofSource (header ++ "\n" ++ rest)).root.descendants := by
  generalize header ++ "\n" ++ rest = source at *
  obtain ⟨nodes, u, hrun⟩ := sourceFile_eq_ok (.ofSource source)
  obtain ⟨hmem, hstart⟩ :=
    startFrom_of_statement_error (State.ordered_ofSource source) hfails _ hrun
  have hbehind : ∀ other ∈ (ofSource source).root.descendants, other.kind.declares →
      error.span.start < other.span.start := by
    intro other hother hkind
    rw [root_eq hrun, Node.descendants_eq, Node.preorder_eq, List.mem_cons] at hother
    rcases hother with rfl | hother
    · exact absurd hkind Bool.false_ne_true
    · exact (hstart other hother hkind).1
  refine ⟨by rw [errors_ofSource, hrun]; exact hmem, hbehind, fun hlost => ?_⟩
  have hkind : (shift (header.utf8ByteSize + 1) node).kind.declares := by
    rw [kind_shift_node, hrest.kind]
    rfl
  have hlt := hbehind _ hlost hkind
  rw [span_shift_node, start_shift, hrest.start, hplace] at hlt
  omega

theorem exists_isInterface (source : String) (haccepted : (ofSource source).errors = [])
    (hchildren : (ofSource source).root.children.map (fun node => (node.kind, node.span.start)) =
      [(.interfaceDeclaration, (State.ofSource source).start)]) :
    ∃ node, IsInterface source node := by
  obtain ⟨node, hone, hnode⟩ := List.map_eq_singleton_iff.mp hchildren
  obtain ⟨hkind, hstart⟩ := Prod.mk.inj hnode
  exact ⟨node, haccepted, hone, hkind, hstart⟩

theorem exists_statement_error (s : State) (place : Nat)
    (h : (match (statement (blockWithin maxDepth) s).1 with
      | .ok _ => none
      | .error error => some error.span.start) = some place) :
    ∃ error t, statement (blockWithin maxDepth) s = (.error error, t) ∧
      error.span.start = place := by
  rcases hrun : statement (blockWithin maxDepth) s with ⟨error | node?, t⟩ <;> rw [hrun] at h
  · exact ⟨error, t, rfl, Option.some.inj h⟩
  · cases h

/-- An interface behind an enumeration without a body. -/
theorem malformed_header_enum :
    let source := "enum E" ++ "\n" ++ "interface B \x7b\x7d"
    ∃ error ∈ (ofSource source).errors,
      ∀ other ∈ (ofSource source).root.descendants, other.kind.declares →
        error.span.start < other.span.start := by
  obtain ⟨node, hnode⟩ := exists_isInterface "interface B \x7b\x7d" (by decide +kernel)
    (by decide +kernel)
  obtain ⟨error, t, hfails, hplace⟩ := exists_statement_error
    (.ofSource ("enum E" ++ "\n" ++ "interface B \x7b\x7d")) 7 (by decide +kernel)
  have hlost := malformed_header "enum E" "interface B \x7b\x7d" hnode hfails
    (hplace.trans (by decide +kernel))
  exact ⟨error, hlost.1, hlost.2.1⟩

/-- The token of the error is the word `interface`, which starts its line, and no interface is
read. -/
theorem not_resumed_at_declaration :
    let source := "interface A" ++ "\n" ++ "interface B \x7b\x7d"
    (∃ node, IsInterface "interface B \x7b\x7d" node) ∧ StartsStatement "interface B \x7b\x7d" ∧
      (∃ error t, statement (blockWithin maxDepth) (.ofSource source) = (.error error, t) ∧
        error.span.start =
          "interface A".utf8ByteSize + 1 + (State.ofSource "interface B \x7b\x7d").start) ∧
      ∀ other ∈ (ofSource source).root.descendants, other.kind ≠ .interfaceDeclaration := by
  intro source
  exact ⟨exists_isInterface _ (by decide +kernel) (by decide +kernel), by decide +kernel,
    exists_statement_error _ _ (by decide +kernel), by decide +kernel⟩

end Parse

end DeclSchema
