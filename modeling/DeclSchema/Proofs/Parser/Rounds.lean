import DeclSchema.Proofs.Parser.Restart

/-!
# Once round a loop

The loops over members and over statements are bounded by the number of tokens. This
bound is never what ends them: each loop goes round until a round leaves it, and every
other round reads at least one token, whatever is read, passed over or given back in it.
So the statements of a source end where its tokens do.
-/

namespace DeclSchema.Parser

/-- Every round succeeds and leaves an end of the tokens. It leaves the loop, or it has
read a token. -/
def Advances (round : Parser (Option (List Node))) : Prop :=
  ∀ s, ∃ nodes? t, round s = (.ok nodes?, t) ∧ t.rest <:+ s.rest ∧
    (nodes?.isSome → t.rest.length < s.rest.length)

/-- The parser goes round until a round gives no list, and collects the nodes of the
others. -/
def Loops (round : Parser (Option (List Node))) (p : Parser (List Node)) : Prop :=
  p = do
    match ← round with
    | none => return []
    | some nodes => return nodes ++ (← p)

section

variable {round : Parser (Option (List Node))} {p : Parser (List Node)} {s t : State}
  {nodes : List Node}

theorem Loops.apply_none (h : Loops round p) (hround : round s = (.ok none, t)) :
    p s = (.ok [], t) := by
  rw [h, bind_apply_ok hround]
  rfl

theorem Loops.apply_some (h : Loops round p) (hround : round s = (.ok (some nodes), t)) :
    p s = ((nodes ++ ·) <$> p) t :=
  (congrFun h s).trans (bind_apply_ok hround)

/-- A loop whose rounds advance succeeds, and ends with a round that leaves it. -/
theorem Loops.leaves (h : Loops round p) (hadvances : Advances round) (s : State) :
    ∃ nodes u t, p s = (.ok nodes, t) ∧ round u = (.ok none, t) := by
  induction hlength : s.rest.length using Nat.strongRecOn generalizing s with
  | ind length ih =>
    obtain ⟨nodes?, t, hround, -, hlt⟩ := hadvances s
    cases nodes? with
    | none => exact ⟨[], s, t, h.apply_none hround, hround⟩
    | some nodes =>
      obtain ⟨others, u, v, hrest, hlast⟩ := ih _ (hlength ▸ hlt rfl) t rfl
      exact ⟨nodes ++ others, u, v, (h.apply_some hround).trans (map_apply_ok _ hrest), hlast⟩

end

section

variable (separates : TokenKind → Bool) (recovery : List Token → Nat)
  (member : Parser (Option Node))

/-- Once round the loop over members: the separators ahead, and a member or what is passed
over in its place. The round leaves the loop where the members end. -/
def memberRound : Parser (Option (List Node)) := do
  advance ((← look).rest.takeWhile (separates ·.kind)).length
  if (← look).endsMembers then
    return none
  else
    match ← attempt member with
    | .ok node? => return some node?.toList
    | .error error =>
      report error
      advance (recovery (← look).rest)
      return some []

variable {separates recovery member} {s t : State}

private theorem memberRound_apply (s : State) :
    memberRound separates recovery member s =
      (if (s.skipSeparators separates).endsMembers then pure none else do
        match ← attempt member with
        | .ok node? => return some node?.toList
        | .error error =>
          report error
          advance (recovery (← look).rest)
          return some [] : Parser (Option (List Node))) (s.skipSeparators separates) := rfl

theorem memberRound_of_ends (h : (s.skipSeparators separates).endsMembers) :
    memberRound separates recovery member s = (.ok none, s.skipSeparators separates) := by
  rw [memberRound_apply, if_pos h]
  rfl

theorem memberRound_of_ok {node? : Option Node} (h : ¬ (s.skipSeparators separates).endsMembers)
    (hm : member (s.skipSeparators separates) = (.ok node?, t)) :
    memberRound separates recovery member s = (.ok (some node?.toList), t) := by
  rw [memberRound_apply, if_neg h, bind_apply_ok (a := .ok node?) (t := t) (by simp [attempt, hm])]
  rfl

theorem memberRound_of_error {error : ParseError}
    (h : ¬ (s.skipSeparators separates).endsMembers)
    (hm : member (s.skipSeparators separates) = (.error error, t)) :
    memberRound separates recovery member s = (.ok (some []), t.recover recovery error) := by
  rw [memberRound_apply, if_neg h,
    bind_apply_ok (a := .error error) (t := t) (by simp [attempt, hm])]
  rfl

theorem endsMembers_of_memberRound (h : memberRound separates recovery member s = (.ok none, t)) :
    t.endsMembers := by
  by_cases hends : (s.skipSeparators separates).endsMembers
  · rw [memberRound_of_ends hends] at h
    cases h
    exact hends
  · rcases hm : member (s.skipSeparators separates) with ⟨error | node?, u⟩
    · rw [memberRound_of_error hends hm] at h
      cases h
    · rw [memberRound_of_ok hends hm] at h
      cases h

/-- Going on behind a malformed member reads a token, unless the member did. -/
theorem length_recover_lt (hrecovers : Recovers recovery) (hs : ¬ s.endsMembers)
    (hst : t.rest <:+ s.rest) (error : ParseError) :
    (t.recover recovery error).rest.length < s.rest.length := by
  have hsuffix := (leadsTo_recover recovery t error).rest.trans hst
  rcases length_recover_lt_or_ends (s := t) hrecovers error with hlt | hends
  · exact Nat.lt_of_lt_of_le hlt hst.length_le
  · refine Nat.lt_of_le_of_ne hsuffix.length_le fun heq => hs (endsMembers_iff.mpr ?_)
    rw [← hsuffix.eq_of_length heq]
    exact endsMembers_iff.mp hends

variable [Forward member]

theorem advances_memberRound (hrecovers : Recovers recovery) (hconsumes : ConsumesMember member) :
    Advances (memberRound separates recovery member) := by
  intro s
  have hskip : (s.skipSeparators separates).rest <:+ s.rest := (State.LeadsTo.advance s _).rest
  by_cases hends : (s.skipSeparators separates).endsMembers
  · exact ⟨none, _, memberRound_of_ends hends, hskip, nofun⟩
  have hmember := Forward.rest (p := member) (s.skipSeparators separates)
  rcases hm : member (s.skipSeparators separates) with ⟨error | node?, t⟩ <;> rw [hm] at hmember
  · refine ⟨some [], _, memberRound_of_error hends hm, ?_, fun _ => ?_⟩
    · exact ((leadsTo_recover recovery t error).rest.trans hmember).trans hskip
    · exact Nat.lt_of_lt_of_le (length_recover_lt hrecovers hends hmember error) hskip.length_le
  · refine ⟨some node?.toList, t, memberRound_of_ok hends hm, hmember.trans hskip, fun _ => ?_⟩
    exact Nat.lt_of_lt_of_le (hconsumes _ _ _ hends hm) hskip.length_le

/-- The bound on the number of members makes no difference. -/
theorem loops_members (hclose : ¬ separates .rBrace) (hrecovers : Recovers recovery)
    (hconsumes : ConsumesMember member) :
    Loops (memberRound separates recovery member) (members separates recovery member) := by
  funext s
  have hskip := length_skipSeparators_le separates s
  cases hlength : s.rest.length with
  | zero =>
    have hnil := List.eq_nil_of_length_eq_zero hlength
    have hends : s.endsMembers := endsMembers_iff.mpr (by simp [hnil])
    have hself := skipSeparators_of_endsMembers hclose hends
    rw [bind_apply_ok (memberRound_of_ends (hself.symm ▸ hends)), hself]
    exact membersUpTo_of_endsMembers hclose hends _
  | succ count =>
    have hrun : members separates recovery member s =
        membersUpTo separates recovery member (count + 1) s := by
      rw [members, hlength]
    have henough : ∀ t : State, t.rest.length < s.rest.length →
        membersUpTo separates recovery member count t = members separates recovery member t :=
      fun t hlt => membersUpTo_eq hclose hrecovers hconsumes _ _ t (by omega) (Nat.le_refl _)
    by_cases hends : (s.skipSeparators separates).endsMembers
    · rw [hrun, membersUpTo_of_ends count hends, bind_apply_ok (memberRound_of_ends hends)]
      rfl
    rcases hm : member (s.skipSeparators separates) with ⟨error | node?, t⟩
    · have hsuffix := (Forward.of_run hm).rest
      have hlt := length_recover_lt hrecovers hends hsuffix error
      rw [hrun, membersUpTo_of_error count hends hm, henough _ (by omega),
        bind_apply_ok (memberRound_of_error hends hm)]
      exact congrFun (id_map (members separates recovery member)).symm _
    · have hlt := hconsumes _ _ _ hends hm
      rw [hrun, membersUpTo_of_ok count hends hm, bind_apply_ok (memberRound_of_ok hends hm)]
      exact map_apply_congr _ (henough t (by omega))

end

section

variable (type : Parser Node) (block : Parser (List Node))

/-- Once round the loop over the members of an interface. -/
def typeMemberRound : Parser (Option (List Node)) :=
  memberRound separatesTypeMembers (malformedLength 0) (some <$> typeMember type)

/-- Once round the loop over the members of a class. -/
def classMemberRound : Parser (Option (List Node)) :=
  memberRound separatesClassMembers (malformedLength 0) (classMember type)

/-- Once round the loop over the statements of a block. -/
def statementRound : Parser (Option (List Node)) :=
  memberRound separatesStatements (statementLength true 0) (statement block)

/-- Once round the loop over the statements of a source: where those of a block would end,
a brace that closes nothing is recorded and passed over. -/
def sourceRound : Parser (Option (List Node)) := do
  match ← statementRound (blockWithin maxDepth) with
  | some nodes => return some nodes
  | none =>
    let s ← look
    if s.isAt .rBrace then
      report (s.errorHere .strayBrace)
      advance 1
      return some []
    else
      return none

variable [Forward type] [Forward block]

theorem advances_typeMemberRound : Advances (typeMemberRound type) :=
  advances_memberRound recovers_malformedLength ((consumes_typeMember type).map some).member

theorem loops_typeMembers : Loops (typeMemberRound type) (typeMembers type) :=
  loops_members (by decide) recovers_malformedLength ((consumes_typeMember type).map some).member

theorem advances_classMemberRound : Advances (classMemberRound type) :=
  advances_memberRound recovers_malformedLength consumes_classMember.member

theorem loops_classMembers : Loops (classMemberRound type) (classMembers type) :=
  loops_members (by decide) recovers_malformedLength consumes_classMember.member

theorem advances_statementRound : Advances (statementRound block) :=
  advances_memberRound recovers_statementLength consumes_statement

theorem loops_statements : Loops (statementRound block) (statements block) :=
  loops_members (by decide) recovers_statementLength consumes_statement

end

section

variable {s t : State} {nodes : List Node}

theorem sourceRound_of_some
    (h : statementRound (blockWithin maxDepth) s = (.ok (some nodes), t)) :
    sourceRound s = (.ok (some nodes), t) := by
  rw [sourceRound, bind_apply_ok h]
  rfl

theorem sourceRound_of_none_of_isAt (h : statementRound (blockWithin maxDepth) s = (.ok none, t))
    (hbrace : t.isAt .rBrace) : sourceRound s = (.ok (some []), t.passStrayBrace) := by
  rw [sourceRound, bind_apply_ok h]
  show (if t.isAt .rBrace then _ else _ : Parser (Option (List Node))) t = _
  rw [if_pos hbrace]
  rfl

theorem sourceRound_of_none_of_not_isAt
    (h : statementRound (blockWithin maxDepth) s = (.ok none, t)) (hbrace : ¬ t.isAt .rBrace) :
    sourceRound s = (.ok none, t) := by
  rw [sourceRound, bind_apply_ok h]
  show (if t.isAt .rBrace then _ else _ : Parser (Option (List Node))) t = _
  rw [if_neg hbrace]
  rfl

theorem length_passStrayBrace_lt (h : s.isAt .rBrace) :
    s.passStrayBrace.rest.length < s.rest.length :=
  length_advance_lt (s := s.record _) Nat.one_pos (ne_nil_of_isAt h)

theorem advances_sourceRound : Advances sourceRound := by
  intro s
  obtain ⟨nodes?, t, hround, hsuffix, hlt⟩ := advances_statementRound (blockWithin maxDepth) s
  cases nodes? with
  | some nodes => exact ⟨some nodes, t, sourceRound_of_some hround, hsuffix, hlt⟩
  | none =>
    by_cases hbrace : t.isAt .rBrace
    · refine ⟨some [], _, sourceRound_of_none_of_isAt hround hbrace, ?_, fun _ => ?_⟩
      · exact (leadsTo_recover _ t _).rest.trans hsuffix
      · exact Nat.lt_of_lt_of_le (length_passStrayBrace_lt hbrace) hsuffix.length_le
    · exact ⟨none, t, sourceRound_of_none_of_not_isAt hround hbrace, hsuffix, nofun⟩

/-- A round that leaves the loop has come to the end of the source. -/
theorem rest_eq_nil_of_sourceRound (h : sourceRound s = (.ok none, t)) : t.rest = [] := by
  obtain ⟨nodes?, u, hround, -, -⟩ := advances_statementRound (blockWithin maxDepth) s
  cases nodes? with
  | some nodes =>
    rw [sourceRound_of_some hround] at h
    cases h
  | none =>
    by_cases hbrace : u.isAt .rBrace
    · rw [sourceRound_of_none_of_isAt hround hbrace] at h
      cases h
    · rw [sourceRound_of_none_of_not_isAt hround hbrace] at h
      cases h
      have hends := endsMembers_iff.mp (endsMembers_of_memberRound hround)
      cases hrest : t.rest with
      | nil => rfl
      | cons token rest =>
        have hkind := hends token (by simp [hrest])
        exact absurd ((isAt_iff hrest).mpr hkind) hbrace

/-- Any bound on the runs of statements that is large enough gives the same. -/
theorem runsUpTo_eq (m n : Nat) (s : State) (hm : s.rest.length < m) (hn : s.rest.length < n) :
    runsUpTo m s = runsUpTo n s := by
  induction n generalizing m s with
  | zero => exact absurd hn (Nat.not_lt_zero _)
  | succ n ih =>
    obtain ⟨m, rfl⟩ := Nat.exists_eq_add_one_of_ne_zero (Nat.ne_of_gt (Nat.zero_lt_of_lt hm))
    obtain ⟨nodes, t, hrun⟩ : ∃ nodes t, statements (blockWithin maxDepth) s = (.ok nodes, t) :=
      members_eq_ok _ _ _ s
    have hle := (Forward.of_run hrun).rest.length_le
    by_cases hbrace : t.isAt .rBrace
    · have hlt := length_passStrayBrace_lt hbrace
      rw [runsUpTo_of_isAt m hrun hbrace, runsUpTo_of_isAt n hrun hbrace]
      exact map_apply_congr _ (ih m _ (by omega) (by omega))
    · rw [runsUpTo_of_not_isAt m hrun hbrace, runsUpTo_of_not_isAt n hrun hbrace]

theorem sourceFile_of_isAt (h : statements (blockWithin maxDepth) s = (.ok nodes, t))
    (hbrace : t.isAt .rBrace) : sourceFile s = ((nodes ++ ·) <$> sourceFile) t.passStrayBrace := by
  have hle := (Forward.of_run h).rest.length_le
  have hlt := Nat.lt_of_lt_of_le (length_passStrayBrace_lt hbrace) hle
  refine (runsUpTo_of_isAt s.rest.length h hbrace).trans (map_apply_congr _ ?_)
  exact runsUpTo_eq _ _ _ hlt (Nat.lt_succ_self _)

theorem sourceFile_of_not_isAt (h : statements (blockWithin maxDepth) s = (.ok nodes, t))
    (hbrace : ¬ t.isAt .rBrace) : sourceFile s = (.ok nodes, t) :=
  runsUpTo_of_not_isAt s.rest.length h hbrace

/-- Neither does the bound on the runs of statements. -/
theorem loops_sourceFile : Loops sourceRound sourceFile := by
  funext s
  have hloops := loops_statements (blockWithin maxDepth)
  obtain ⟨nodes?, t, hround, -, -⟩ := advances_statementRound (blockWithin maxDepth) s
  cases nodes? with
  | none =>
    have hnone := hloops.apply_none hround
    by_cases hbrace : t.isAt .rBrace
    · rw [sourceFile_of_isAt hnone hbrace,
        bind_apply_ok (sourceRound_of_none_of_isAt hround hbrace)]
      rfl
    · rw [sourceFile_of_not_isAt hnone hbrace,
        bind_apply_ok (sourceRound_of_none_of_not_isAt hround hbrace)]
      rfl
  | some first =>
    obtain ⟨others, u, hothers⟩ : ∃ others u,
        statements (blockWithin maxDepth) t = (.ok others, u) := members_eq_ok _ _ _ t
    have hboth := (hloops.apply_some hround).trans (map_apply_ok _ hothers)
    rw [bind_apply_ok (sourceRound_of_some hround)]
    show sourceFile s = ((first ++ ·) <$> sourceFile) t
    by_cases hbrace : u.isAt .rBrace
    · rw [sourceFile_of_isAt hboth hbrace,
        map_apply_trans _ _ (sourceFile_of_isAt hothers hbrace)]
      simp only [List.append_assoc]
    · rw [sourceFile_of_not_isAt hboth hbrace,
        map_apply_ok _ (sourceFile_of_not_isAt hothers hbrace)]

/-- The statements of a source are always read. -/
theorem sourceFile_eq_ok (s : State) : ∃ nodes t, sourceFile s = (.ok nodes, t) := by
  obtain ⟨nodes, u, t, hrun, -⟩ := loops_sourceFile.leaves advances_sourceRound s
  exact ⟨nodes, t, hrun⟩

/-- All tokens of a source are read, from whatever state on. -/
theorem rest_sourceFile (s : State) : (sourceFile s).2.rest = [] := by
  obtain ⟨nodes, u, t, hrun, hlast⟩ := loops_sourceFile.leaves advances_sourceRound s
  rw [hrun]
  exact rest_eq_nil_of_sourceRound hlast

end

/-- The parsers of the grammar, and the ways of passing over text. -/
inductive Procedure : {α : Type} → Parser α → Prop
  | advance (count : Nat) : Procedure (advance count)
  | token (kind : TokenKind) (what : Wanted) : Procedure (token kind what)
  | accept (kind : TokenKind) : Procedure (accept kind)
  | acceptWord (word : String) : Procedure (acceptWord word)
  | takeDocs : Procedure takeDocs
  | skip (measure : List Token → Nat) : Procedure (do Parser.advance (measure (← look).rest))
  | skipGroup : Procedure skipGroup
  | skipDecorators : Procedure skipDecorators
  | skipInitializer (ends : TokenKind → Bool) : Procedure (skipInitializer ends)
  | modifiers (step : Bool → Token → List Token → ModifierStep) : Procedure (modifiers step)
  | body : Procedure body
  | identifier (what : Wanted) : Procedure (identifier what)
  | entityName : Procedure entityName
  | memberName : Procedure memberName
  | questionMark : Procedure questionMark
  | readonlyMark : Procedure readonlyMark
  | binding : Procedure binding
  | className : Procedure className
  | moduleName : Procedure moduleName
  | typeParameter (levels : Nat) : Procedure (typeParameter (typeWithin levels))
  | typeParameters (levels : Nat) : Procedure (typeParameters (typeWithin levels))
  | parameter (levels : Nat) : Procedure (parameter (typeWithin levels))
  | parameters (levels : Nat) : Procedure (parameters (typeWithin levels))
  | returnType (levels : Nat) (withBody : Bool) :
    Procedure (returnType (typeWithin levels) withBody)
  | signature (levels : Nat) (withBody : Bool) :
    Procedure (signature (typeWithin levels) withBody)
  | indexSignature (levels : Nat) : Procedure (indexSignature (typeWithin levels))
  | typeMember (levels : Nat) : Procedure (typeMember (typeWithin levels))
  | typeMembers (levels : Nat) : Procedure (typeMembers (typeWithin levels))
  | classMember (levels : Nat) : Procedure (classMember (typeWithin levels))
  | classMembers (levels : Nat) : Procedure (classMembers (typeWithin levels))
  | type (levels : Nat) : Procedure (typeWithin levels)
  | unionType (levels : Nat) : Procedure (unionType (typeWithin levels))
  | intersectionType (levels : Nat) : Procedure (intersectionType (typeWithin levels))
  | postfixType (levels : Nat) : Procedure (postfixType (typeWithin levels))
  | suffix (levels start : Nat) (target : Node) :
    Procedure (suffix (typeWithin levels) start target)
  | primaryType (levels : Nat) : Procedure (primaryType (typeWithin levels))
  | wordType (levels : Nat) (first : Token) : Procedure (wordType (typeWithin levels) first)
  | negativeType (sign : Token) : Procedure (negativeType sign)
  | typeReference (levels : Nat) : Procedure (typeReference (typeWithin levels))
  | typeQuery (levels : Nat) : Procedure (typeQuery (typeWithin levels))
  | typeArguments (levels : Nat) : Procedure (typeArguments (typeWithin levels))
  | functionType (levels : Nat) : Procedure (functionType (typeWithin levels))
  | parenthesizedType (levels : Nat) : Procedure (parenthesizedType (typeWithin levels))
  | objectType (levels : Nat) : Procedure (objectType (typeWithin levels))
  | tupleType (levels : Nat) : Procedure (tupleType (typeWithin levels))
  | tupleElement (levels : Nat) : Procedure (tupleElement (typeWithin levels))
  | heritageClause : Procedure heritageClause
  | parts (levels : Nat) (heading : Heading) : Procedure (heading.parts (blockWithin levels))
  | statement (levels : Nat) : Procedure (statement (blockWithin levels))
  | statements (levels : Nat) : Procedure (statements (blockWithin levels))
  | block (levels : Nat) : Procedure (blockWithin levels)
  | sourceFile : Procedure sourceFile

instance forward_sourceFile : Forward sourceFile where
  leadsTo s := Forward.leadsTo (p := runsUpTo (s.rest.length + 1)) s

theorem Procedure.forward {α : Type} {p : Parser α} (h : Procedure p) : Forward p := by
  cases h <;> infer_instance

/-- The loops over the members of interfaces and classes, over the statements of blocks and
over those of a source go round until a round leaves them, and a round that does not leave
its loop reads a token. No procedure ends before it began: what it leaves is an end of the
tokens it was given, also where it gives a return type back. So nothing of a source is left
unread. -/
theorem progress :
    (∀ levels,
      Loops (typeMemberRound (typeWithin levels)) (typeMembers (typeWithin levels)) ∧
        Advances (typeMemberRound (typeWithin levels))) ∧
    (∀ levels,
      Loops (classMemberRound (typeWithin levels)) (classMembers (typeWithin levels)) ∧
        Advances (classMemberRound (typeWithin levels))) ∧
    (∀ levels,
      Loops (statementRound (blockWithin levels)) (statements (blockWithin levels)) ∧
        Advances (statementRound (blockWithin levels))) ∧
    (Loops sourceRound sourceFile ∧ Advances sourceRound) ∧
    (∀ {α : Type} {p : Parser α}, Procedure p → ∀ s, (p s).2.rest <:+ s.rest) ∧
    ∀ s, (sourceFile s).2.rest = [] := by
  refine ⟨fun levels => ⟨loops_typeMembers _, advances_typeMemberRound _⟩,
    fun levels => ⟨loops_classMembers _, advances_classMemberRound _⟩,
    fun levels => ⟨loops_statements _, advances_statementRound _⟩,
    ⟨loops_sourceFile, advances_sourceRound⟩, fun hp s => ?_, rest_sourceFile⟩
  have := hp.forward
  exact Forward.rest s

/-- A return type that is no type is given back, and what is left is still an end. -/
theorem progress_returnType_given_back :
    (returnType type true (.ofSource "x is string \x7b\x7d")).2.journal.length = 1 ∧
      Procedure (returnType type true) ∧
      (returnType type true (.ofSource "x is string \x7b\x7d")).2.rest <:+
        (State.ofSource "x is string \x7b\x7d").rest :=
  have hprocedure : Procedure (returnType type true) := .returnType maxDepth true
  ⟨by decide +kernel, hprocedure, progress.2.2.2.2.1 hprocedure _⟩

end DeclSchema.Parser
