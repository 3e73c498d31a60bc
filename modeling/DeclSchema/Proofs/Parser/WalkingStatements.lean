import DeclSchema.Proofs.Parser.WalkingTypes

/-!
# Declarations are read by walks

A statement is passed over, or it is a declaration, whose node has the documentation that was
taken in front of it. The statements of a block, and those of a source, are read one after the
other.
-/

namespace DeclSchema.Parser

section

variable {s : State}

theorem walks_heritageClauses (words : List String) :
    Walks s (repeatWhile (·.atHeritage words) heritageClause) := by
  refine .repeatWhile fun t hcontinues => .look ?_
  cases hrest : t.rest with
  | nil => exact .fail _
  | cons keyword rest =>
    have hkind : keyword.kind = .word := by
      have hword : t.nthIsWord 0 := by
        rw [State.nthIsWord]
        cases hword : t.nthWord? 0 with
        | none => simp [State.atHeritage, hword] at hcontinues
        | some word => rfl
      obtain ⟨token, htoken, hkind⟩ := exists_of_nthIsWord hword
      rw [hrest] at htoken
      cases htoken
      exact hkind
    refine (Walks.word hrest hkind).go fun _ u => ?_
    refine (Walks.separated (by decide) (by decide) walks_type).go fun types u => ?_
    exact .look (.pure _)

theorem walks_interfaceParts : Walks s interfaceParts := by
  refine (walks_identifier _).go fun name t => ?_
  refine (walks_typeParametersIfAny walks_type).go fun generics t => ?_
  refine (walks_heritageClauses _).go fun clauses t => ?_
  exact .braced (fun u => walksInside_typeMembers walks_type) fun inside u => .pure _

theorem walks_className : Walks s className :=
  .look (.ite (fun _ => (walks_identifier _).go fun _ _ => .pure _) fun _ => .pure _)

theorem walks_classParts : Walks s classParts := by
  refine walks_className.go fun name t => ?_
  refine (walks_typeParametersIfAny walks_type).go fun generics t => ?_
  refine (walks_heritageClauses _).go fun clauses t => ?_
  exact .braced (fun u => walksInside_classMembers walks_type) fun inside u => .pure _

theorem walks_typeAliasParts : Walks s typeAliasParts := by
  refine (walks_identifier _).go fun name t => ?_
  refine (walks_typeParametersIfAny walks_type).go fun generics t => ?_
  refine (Walks.expect (by decide) (by decide)).go fun _ t => (walks_type t).go fun meaning t => ?_
  exact (Walks.accept (by decide) (by decide)).go fun _ t => .pure _

theorem walks_enumParts : Walks s enumParts := by
  refine (walks_identifier _).go fun name t => .look (.ite (fun hopen => ?_) fun _ => .fail _)
  obtain ⟨token, rest, hrest, hkind⟩ := rest_of_isAt hopen
  exact (walks_skipGroup_of_cons hrest (by rw [hkind]; rfl)).go fun _ u => .pure _

theorem walks_moduleName : Walks s moduleName := by
  refine .look ?_
  cases hrest : s.rest with
  | nil => exact walks_entityName
  | cons token rest =>
    refine .ite (fun hkind => Walks.go (.advance_one hrest ?_ ?_) fun _ t => .pure _)
      fun _ => walks_entityName
    · simp [hkind, TokenKind.opens]
    · simp [hkind, TokenKind.closes]

section

variable {block : Parser (List Node)} (hblock : ∀ s, WalksInside s block)

include hblock

theorem walks_moduleParts : Walks s (moduleParts block) := by
  refine walks_moduleName.go fun name t => .look (.ite (fun _ => ?_) fun _ => ?_)
  · exact .braced hblock fun statements u => .look (.pure _)
  · exact (Walks.accept (by decide) (by decide)).go fun _ t => .pure _

theorem walks_parts (heading : Heading) : Walks s (heading.parts block) := by
  cases heading with
  | ofInterface => exact walks_interfaceParts
  | ofClass => exact walks_classParts
  | ofTypeAlias => exact walks_typeAliasParts
  | ofEnum => exact walks_enumParts
  | ofModule => exact walks_moduleParts hblock

omit hblock in
/-- The words that announce a declaration are read. -/
theorem walks_announced {heading : Heading} {announced : Nat}
    (h : s.heading? = some (heading, announced)) :
    Walks s (advance announced) ∧ (s.advance announced).rest.length < s.rest.length := by
  refine ⟨.advance (.of_plain fun token htoken => ?_), ?_⟩
  · simp [kind_of_mem_take_announced h token htoken, TokenKind.opens, TokenKind.closes]
  · have hwords : s.rest ≠ [] ∧ 0 < announced := by
      unfold State.heading? State.nthIsWord State.nthWord? at h
      cases hrest : s.rest <;> grind
    exact length_advance_lt hwords.2 hwords.1

omit hblock in
/-- A statement begins with a head: documentation, decorators and modifiers. Behind it the
statement is passed over, or a declaration is read. -/
theorem statement_apply (block : Parser (List Node)) (s : State) :
    ∃ words t, modifiers statementModifier s.behindDecorators.takeTags = (.ok words, t) ∧
      Walk (.part true) s.behindDecorators.takeTags t ∧
      statement block s = match t.heading? with
        | none => (.ok none, t.advance (statementLength true 0 t.rest))
        | some (heading, announced) =>
          declaration block s (s.tags ++ s.behindDecorators.tags) words heading
            (t.advance announced) := by
  have hskip : skipDecorators s.takeTags = (.ok (), s.behindDecorators) := rfl
  have hmodifiers : Walks s.behindDecorators.takeTags (modifiers statementModifier) :=
    walks_modifiers looksAhead_statementModifier
  rcases hwords : modifiers statementModifier s.behindDecorators.takeTags with ⟨_ | words, t⟩
  · cases hwords
  refine ⟨words, t, rfl, hmodifiers.of_ok hwords, ?_⟩
  unfold statement
  rw [look_bind_apply, bind_apply_ok (takeDocs_apply s), bind_apply_ok hskip,
    bind_apply_ok (takeDocs_apply s.behindDecorators), bind_apply_ok hwords, look_bind_apply]
  cases t.heading? <;> rfl

theorem walksMember_statement [Forward block] : WalksMember s (statement block) := by
  obtain ⟨words, t, hwords, hhead, hstatement⟩ := statement_apply block s
  have hle : t.rest.length ≤ s.behindDecorators.rest.length :=
    (Forward.of_run hwords).rest.length_le
  unfold WalksMember
  rw [hstatement]
  cases hheading : t.heading? with
  | none =>
    refine .passed hhead (fun _ hcloses => ?_) fun hzero => ?_
    · exact leavesOpen_statementLength [] true hcloses
    · exact endsMembers_iff.mpr (recovers_statementLength _ hzero)
  | some found =>
    obtain ⟨heading, announced⟩ := found
    obtain ⟨hannounced, hlt⟩ := walks_announced hheading
    have hparts := walks_parts hblock heading (s := t.advance announced)
    dsimp only
    rcases hread : heading.parts block (t.advance announced) with ⟨error | parts, u⟩
    · have hgiven := hparts.of_error hread
      rw [declaration_of_error hread]
      exact .decorated (hhead.trans (.trans hannounced hgiven)) nofun
    · have hwhole := hparts.of_ok hread
      have hrest := (Forward.of_run hread).rest.length_le
      rw [declaration_of_parts hread]
      exact .declared (hhead.trans (.trans hannounced hwhole)) (by omega)

omit hblock in
theorem plain_of_separatesStatements (kind : TokenKind) (h : separatesStatements kind) :
    ¬ kind.opens ∧ ¬ kind.closes := by
  cases kind <;> first | exact ⟨Bool.false_ne_true, Bool.false_ne_true⟩ | cases h

theorem walksInside_statements [Forward block] : WalksInside s (statements block) := by
  refine .members plain_of_separatesStatements (fun _ _ hcloses => ?_) recovers_statementLength
    fun t => walksMember_statement hblock
  exact (leavesOpen_statementLength [] true hcloses).mono fun _ h => h.1

end

theorem walksInside_blockWithin (levels : Nat) : WalksInside s (blockWithin levels) := by
  induction levels generalizing s with
  | zero => exact Walk.refuse s
  | succ levels ih => exact .nested fun _ => walksInside_statements fun t => ih

/-- The runs of statements with stray braces between them. -/
theorem walk_runsUpTo (count : Nat) (hcount : s.rest.length < count) :
    ∃ nodes t, runsUpTo count s = (.ok nodes, t) ∧ Walk .source s t := by
  induction count generalizing s with
  | zero => exact absurd hcount (Nat.not_lt_zero _)
  | succ count ih =>
    obtain ⟨nodes, t, hrun⟩ : ∃ nodes t, statements (blockWithin maxDepth) s = (.ok nodes, t) :=
      members_eq_ok _ _ _ s
    have hwalk : WalksInside s (statements (blockWithin maxDepth)) :=
      walksInside_statements fun t => walksInside_blockWithin maxDepth
    unfold WalksInside at hwalk
    rw [hrun] at hwalk
    by_cases hbrace : t.isAt .rBrace
    · have hle := (Forward.of_run hrun).rest.length_le
      have hlt : t.passStrayBrace.rest.length < t.rest.length :=
        length_advance_lt Nat.one_pos (ne_nil_of_isAt hbrace)
      obtain ⟨others, u, hothers, hrest⟩ := ih (s := t.passStrayBrace) (by omega)
      refine ⟨nodes ++ others, u, ?_, .stray hwalk hbrace hrest⟩
      rw [runsUpTo_of_isAt count hrun hbrace]
      exact bind_apply_ok hothers
    · exact ⟨nodes, t, runsUpTo_of_not_isAt count hrun hbrace, .finished hwalk⟩

end

/-- A whole source is read by one walk. -/
theorem walk_sourceFile (s : State) : ∃ nodes t, sourceFile s = (.ok nodes, t) ∧ Walk .source s t :=
  walk_runsUpTo (s.rest.length + 1) (Nat.lt_succ_self _)

end DeclSchema.Parser
