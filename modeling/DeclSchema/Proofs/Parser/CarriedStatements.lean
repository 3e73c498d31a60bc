import DeclSchema.Proofs.Parser.Attribution
import DeclSchema.Proofs.Parser.CarriedTypes

/-!
# Statements in any context but a sealed one

Statements are read in a larger source as they are by themselves, whatever stands in
them. A sealed stretch does not carry them: a statement that is passed over may go on
behind a brace.
-/

/- The longest parsers have more parts than instance search allows by default. -/
set_option synthInstance.maxSize 8192

namespace DeclSchema.Parser

variable {c : Context} {level : Nat}

namespace Fits

variable {s : State}

theorem atWord_and_nthIs (h : Fits c level s) (word : String) (kind : TokenKind)
    (hstop : kind.stopsType = false) :
    ((c.embed s).atWord word && (c.embed s).nthIs 1 kind) =
      (s.atWord word && s.nthIs 1 kind) := by
  rw [h.atWord]
  by_cases hword : s.atWord word
  · obtain ⟨token, htoken, hkind⟩ := exists_of_atWord hword
    rw [h.nthIs_succ htoken (by simp [hkind]) kind hstop]
  · simp [hword]

/-- What a declaration is seen by stands behind words, and so belongs to the stretch. -/
theorem heading? (h : Fits c level s) : (c.embed s).heading? = s.heading? := by
  unfold State.heading?
  rw [h.nthWord?_zero]
  cases hword : s.nthWord? 0 with
  | none => rfl
  | some word =>
    obtain ⟨token, htoken, hkind⟩ := exists_of_nthIsWord
      (show s.nthIsWord 0 by rw [State.nthIsWord, hword]; rfl)
    have hnextIs : ∀ kind : TokenKind, kind.stopsType = false →
        (c.embed s).nthIs 1 kind = s.nthIs 1 kind := h.nthIs_succ htoken (by simp [hkind])
    have hnextIsWord : (c.embed s).nthIsWord 1 = s.nthIsWord 1 :=
      h.nthIsWord_succ htoken (by simp [hkind])
    have hnextWord : (c.embed s).nthWord? 1 = s.nthWord? 1 :=
      h.nthWord?_succ htoken (by simp [hkind])
    have hbehind : ∀ kind : TokenKind, kind.stopsType = false →
        (s.nthIsWord 1 && (c.embed s).nthIs 2 kind) = (s.nthIsWord 1 && s.nthIs 2 kind) := by
      intro kind hstop
      by_cases hnextWord : s.nthIsWord 1
      · obtain ⟨next, hnext, hkind⟩ := exists_of_nthIsWord hnextWord
        rw [h.nthIs_succ hnext (by simp [hkind]) kind hstop]
      · simp [hnextWord]
    simp only [hnextIs .lBrace rfl, hnextIs .string rfl, hnextIsWord, hnextWord,
      Bool.and_or_distrib_left, hbehind .eq rfl, hbehind .lt rfl]

end Fits

section

variable (hunsealed : c.ending ≠ .sealed) {s : State}

include hunsealed

theorem Agrees.advance_of_unsealed (count : Nat) :
    Agrees c level s (Parser.advance count) (Parser.advance count) :=
  .advance fun hsealed => absurd hsealed hunsealed

theorem Agrees.expect_of_unsealed (kind : TokenKind) :
    Agrees c level s (expect kind) (expect kind) :=
  .token_of_unsealed hunsealed kind _

theorem Agrees.measured_of_unsealed {measure : List Token → Nat}
    (hshift : ∀ offset tokens, measure (shift offset tokens) = measure tokens)
    (hstays : ∀ tokens tail, Parted tail tokens → measure tokens < tokens.length →
      measure (tokens ++ tail) = measure tokens) :
    Agrees c level s (do Parser.advance (measure (← Parser.look).rest))
      (do Parser.advance (measure (← Parser.look).rest)) := by
  have hlocal : Local c measure level anyKind :=
    ⟨hshift, fun hsealed => absurd hsealed hunsealed, fun _ => hstays⟩
  exact .measured hlocal fun _ _ => trivial

theorem Agrees.skipGroup_of_unsealed : Agrees c level s skipGroup skipGroup :=
  .measured_of_unsealed hunsealed (groupLength_shift · 0 ·)
    fun _ tail _ => groupLength_append_of_lt tail

end

section

variable (hunsealed : c.ending ≠ .sealed) {type : Parser Node} [Forward type]

include hunsealed

theorem carried_classMember (h : Carried c type) : Carried c (classMember type) := by
  intro level s
  unfold classMember
  dsimp only
  refine Agrees.takeDocs.go fun before s _ => ?_
  refine (carried_skipDecorators level s).go fun _ s _ => ?_
  refine Agrees.takeDocs.go fun behind s _ => .look fun hs => ?_
  refine .ite (by rw [hs.atWord_and_nthIs _ _ rfl]) (fun _ => ?_) fun _ => ?_
  · refine (Agrees.advance_of_unsealed hunsealed 1).go fun _ t _ => ?_
    exact (Agrees.skipGroup_of_unsealed hunsealed).go fun _ t _ => .pure rfl
  refine (carried_modifiers looksAhead_classModifier level s).bind fun words t _ => ?_
  refine .look fun ht => .ite (by rw [ht.atWord_and_nthIs _ _ rfl]) (fun _ => ?_) fun _ => ?_
  · refine (Agrees.advance_of_unsealed hunsealed 1).go fun _ u _ => ?_
    refine (carried_parameters h level u).bind fun parts u _ => ?_
    refine (carried_body level u).go fun _ u _ => ?_
    exact .look fun hu => .pure (by simp [hs.start, Node.inner, shift_mk, ofBounds_add])
  refine .ite (by rw [ht.atAccessor]) (fun _ => ?_) fun _ => ?_
  · refine (Agrees.advance_of_unsealed hunsealed 1).go fun _ u _ => ?_
    refine (carried_memberName level u).bind fun name u _ => ?_
    refine (carried_signature h true level u).bind fun parts u _ => ?_
    exact .look fun hu => .pure (by simp [hs.start, Node.inner, shift_mk, ofBounds_add])
  refine (carried_accept (by decide) (by decide) level t).go fun _ u _ => ?_
  refine .look fun hu => ?_
  refine .ite (by rw [hu.atIndexSignature]) (fun _ => ?_) fun _ => ?_
  · refine (carried_indexSignature h level u).bind fun parts u _ => ?_
    refine (carried_accept (by decide) (by decide) level u).go fun _ u _ => ?_
    exact .look fun hu => .pure (by simp [hs.start, Node.inner, shift_mk, ofBounds_add])
  refine (carried_memberName level u).bind fun name u _ => ?_
  refine (carried_questionMark level u).bind fun question u _ => ?_
  refine (carried_accept (by decide) (by decide) level u).go fun _ u _ => ?_
  refine .look fun hu => .ite (by rw [hu.atSignature]) (fun _ => ?_) fun _ => ?_
  · refine (carried_signature h true level u).bind fun parts u _ => ?_
    exact .look fun hu => .pure (by simp [hs.start, Node.inner, shift_mk, ofBounds_add])
  refine Agrees.bind (.optional (carried_accept (by decide) (by decide) level u) (h level))
    fun typeNode u _ => ?_
  refine (carried_accept (by decide) (by decide) level u).go fun _ u _ => ?_
  refine .when Iff.rfl (fun _ => carried_skipInitializer _ level u) fun u => ?_
  refine (carried_accept (by decide) (by decide) level u).go fun _ u _ => ?_
  exact .look fun hu => .pure (by simp [hs.start, Node.inner, shift_mk, ofBounds_add])

theorem carried_classMembers (h : Carried c type) : Carried c (classMembers type) := fun level _ =>
  .members (by decide) (by decide) local_malformedLength recovers_malformedLength
    (carried_classMember hunsealed h level) consumes_classMember.member

end

theorem carried_className : Carried c className := by
  intro level s
  refine .look fun hs => .ite (by rw [hs.nthIsWord_zero, hs.atHeritage]) (fun _ => ?_)
    fun _ => .pure rfl
  exact (carried_identifier _ level s).bind fun name t _ => .pure rfl

theorem carried_typeAliasParts : Carried c typeAliasParts := by
  intro level s
  refine (carried_identifier _ level s).bind fun name t _ => ?_
  refine (carried_typeParametersIfAny carried_type level t).bind fun generics t _ => ?_
  refine (carried_expect (by decide) (by decide) level t).bind fun _ t _ => ?_
  refine (carried_type level t).bind fun meaning t _ => ?_
  exact (carried_accept (by decide) (by decide) level t).go fun _ t _ => .pure (by simp)

theorem length_lt_of_heritageClause (words : List String) (t u : State) (node : Node)
    (hcont : t.atHeritage words) (hrun : heritageClause t = (.ok node, u)) :
    u.rest.length < t.rest.length := by
  cases hrest : t.rest with
  | nil => simp [State.atHeritage, State.nthWord?, hrest] at hcont
  | cons keyword rest =>
    unfold heritageClause at hrun
    rw [look_bind_apply] at hrun
    have hne : t.rest ≠ [] := by simp [hrest]
    rw [← hrest]
    rw [hrest] at hrun
    exact length_lt_of_advance_one hne hrun

theorem Agrees.note {s : State} (event : Event) :
    Agrees c level s (Parser.note (c.event event)) (Parser.note event) := by
  intro hs _
  refine ⟨?_, ⟨hs.before, hs.after, hs.stretch⟩⟩
  show (Except.ok (), (c.embed s).note (c.event event)) = _
  rw [← c.embed_note]
  rfl

theorem Fits.shift_node {first : State} (h : Fits c level first) (heading : Heading)
    (last : State) (tags : List DocTag) (children : List Node) :
    heading.node (c.embed first) (c.embed last) tags (shift c.offset children) =
      shift c.offset (heading.node first last tags children) := by
  simp [Heading.node, Node.inner, shift_mk, ofBounds_add, h.start]

section

variable (hunsealed : c.ending ≠ .sealed)

include hunsealed

theorem carried_heritageClause : Carried c heritageClause := by
  intro level s
  refine .look fun hs => ?_
  cases hrest : s.rest with
  | nil =>
    rw [hs.rest_eq_nil hrest]
    exact .fail _
  | cons keyword rest =>
    rw [Fits.rest_eq_cons hrest]
    refine (Agrees.advance_of_unsealed hunsealed 1).go fun _ t _ => ?_
    refine Agrees.bind (.separated (by decide) (by decide) (carried_type level)) fun types t _ => ?_
    exact .look fun ht => .pure (by simp [Node.inner, shift_mk, ofBounds_add])

theorem carried_braced {inside : Parser (List Node)} [Forward inside] (h : Carried c inside) :
    Carried c (braced inside) := by
  intro level s
  refine (Agrees.expect_of_unsealed hunsealed _).bind fun _ t _ => ?_
  refine (h level t).bind fun nodes t _ => ?_
  exact (Agrees.expect_of_unsealed hunsealed _).bind fun _ t _ => .pure rfl

theorem carried_heritageClauses (words : List String) :
    Carried c (repeatWhile (·.atHeritage words) heritageClause) := fun level _ =>
  .repeatWhile (fun t ht => by simp [State.atHeritage, State.nthWord?, ht])
    (fun t ht => ht.atHeritage words) (fun t _ => carried_heritageClause hunsealed level t)
    (length_lt_of_heritageClause words)

theorem carried_interfaceParts : Carried c interfaceParts := by
  intro level s
  refine (carried_identifier _ level s).bind fun name t _ => ?_
  refine (carried_typeParametersIfAny carried_type level t).bind fun generics t _ => ?_
  refine (carried_heritageClauses hunsealed _ level t).bind fun clauses t _ => ?_
  refine (carried_braced hunsealed (carried_typeMembers carried_type) level t).bind
    fun inside t _ => ?_
  exact .pure (by simp)

theorem carried_classParts : Carried c classParts := by
  intro level s
  refine (carried_className level s).bind fun name t _ => ?_
  refine (carried_typeParametersIfAny carried_type level t).bind fun generics t _ => ?_
  refine (carried_heritageClauses hunsealed _ level t).bind fun clauses t _ => ?_
  refine (carried_braced hunsealed (carried_classMembers hunsealed carried_type) level t).bind
    fun inside t _ => ?_
  exact .pure (by simp)

theorem carried_enumParts : Carried c enumParts := by
  intro level s
  refine (carried_identifier _ level s).bind fun name t _ => .look fun ht => ?_
  refine .ite (by rw [ht.isAt]) (fun _ => ?_) fun _ => .fail _
  exact (Agrees.skipGroup_of_unsealed hunsealed).go fun _ t _ => .pure rfl

theorem carried_moduleName : Carried c moduleName := by
  intro level s
  refine .look fun hs => ?_
  cases hrest : s.rest with
  | nil =>
    rw [hs.rest_eq_nil hrest]
    exact carried_entityName level s
  | cons token rest =>
    rw [Fits.rest_eq_cons hrest]
    refine .ite Iff.rfl (fun _ => ?_) fun _ => carried_entityName level s
    exact (Agrees.advance_of_unsealed hunsealed 1).go fun _ t _ => .pure (by simp)

variable {block : Parser (List Node)} [Forward block]

theorem carried_moduleParts (h : Carried c block) : Carried c (moduleParts block) := by
  intro level s
  refine (carried_moduleName hunsealed level s).bind fun name t _ => .look fun ht => ?_
  refine .ite (by rw [ht.isAt]) (fun _ => ?_) fun _ => ?_
  · refine (carried_braced hunsealed h level t).bind fun nodes u _ => ?_
    exact .look fun hu => .pure (by simp [ht.start])
  · exact (carried_accept (by decide) (by decide) level t).go fun _ t _ => .pure rfl

theorem carried_parts (h : Carried c block) (heading : Heading) :
    Carried c (heading.parts block) := by
  cases heading with
  | ofInterface => exact carried_interfaceParts hunsealed
  | ofClass => exact carried_classParts hunsealed
  | ofTypeAlias => exact carried_typeAliasParts
  | ofEnum => exact carried_enumParts hunsealed
  | ofModule => exact carried_moduleParts hunsealed h

theorem agrees_declaration (h : Carried c block) {first s : State} (hfirst : Fits c level first)
    (tags : List DocTag) (words : List Node) (heading : Heading) :
    Agrees c level s
      (declaration block (c.embed first) tags (shift c.offset words) heading)
      (declaration block first tags words heading) := by
  unfold declaration
  dsimp only
  refine (carried_parts hunsealed h heading level s).bind fun parts t _ => .look fun ht => ?_
  rw [← shift_append, hfirst.shift_node]
  exact (Agrees.note (.declared _ first.errors t.errors)).go fun _ u _ => .pure rfl

/-- What a statement does behind its modifiers. -/
instance forward_headed (first : State) (tags : List DocTag) (words : List Node) : Forward (do
    let s ← look
    match s.heading? with
    | none =>
      advance (statementLength true 0 s.rest)
      return none
    | some (heading, announced) =>
      advance announced
      declaration block first tags words heading) :=
  .after fun s => by split <;> infer_instance

theorem carried_statement (h : Carried c block) : Carried c (statement block) := by
  intro level s
  unfold statement
  refine .look fun hs => Agrees.takeDocs.go fun before t _ => ?_
  refine (carried_skipDecorators level t).go fun _ t _ => ?_
  refine Agrees.takeDocs.go fun behind t _ => ?_
  refine (carried_modifiers looksAhead_statementModifier level t).bind fun words t _ => ?_
  refine .look fun ht => ?_
  rw [ht.heading?]
  cases t.heading? with
  | none =>
    exact (Agrees.measured_of_unsealed hunsealed (statementLength_shift · true 0 ·)
      fun _ tail _ => statementLength_append_of_lt tail).go fun _ u _ => .pure rfl
  | some found =>
    refine (Agrees.advance_of_unsealed hunsealed _).go fun _ u _ => ?_
    exact agrees_declaration hunsealed h hs _ words _

end

/-- Reads what stands before the words that announce a declaration. -/
def statementHead : Parser (List DocTag × List Node) := do
  let before ← takeDocs
  skipDecorators
  let behind ← takeDocs
  let words ← modifiers statementModifier
  return (before ++ behind, words)

instance : Forward statementHead := by
  unfold statementHead
  infer_instance

theorem statementHead_eq_ok (s : State) :
    ∃ tags words t, statementHead s = (.ok (tags, words), t) := by
  obtain ⟨before, t, hbefore⟩ := takeDocs_eq_ok s
  obtain ⟨behind, u, hbehind⟩ := takeDocs_eq_ok (t.advance (decoratorsLength t.rest))
  have hhead : statementHead s =
      (.ok (before ++ behind, (leadingModifiers statementModifier false u.rest).1),
        u.advance (leadingModifiers statementModifier false u.rest).2) := by
    unfold statementHead
    rw [bind_apply_ok hbefore, bind_apply_ok (show skipDecorators t = (.ok (), _) from rfl),
      bind_apply_ok hbehind]
    rfl
  exact ⟨_, _, _, hhead⟩

theorem statement_eq (block : Parser (List Node)) : statement block = (do
    let first ← look
    let head ← statementHead
    let s ← look
    match s.heading? with
    | none =>
      advance (statementLength true 0 s.rest)
      return none
    | some (heading, announced) =>
      advance announced
      declaration block first head.1 head.2 heading) := by
  simp only [statement, statementHead, bind_assoc]
  rfl

/-- What a statement is behind its head. -/
theorem statement_of_head (block : Parser (List Node)) {s u : State} {tags : List DocTag}
    {words : List Node} (h : statementHead s = (.ok (tags, words), u)) :
    statement block s =
      (match u.heading? with
        | none => do
          advance (statementLength true 0 u.rest)
          return none
        | some (heading, announced) => do
          advance announced
          declaration block s tags words heading : Parser (Option Node)) u := by
  rw [statement_eq, look_bind_apply, bind_apply_ok h]
  rfl

theorem heading?_some {s : State} {heading : Heading} {announced : Nat}
    (h : s.heading? = some (heading, announced)) : 0 < announced ∧ s.rest ≠ [] := by
  constructor
  · unfold State.heading? at h
    grind
  · intro hrest
    simp [State.heading?, State.nthWord?, hrest] at h

section

variable {block : Parser (List Node)} [Forward block]

/-- A statement that is read where statements do not end reads a token. -/
theorem consumes_statement : ConsumesMember (statement block) := by
  intro s t node? hends hrun
  obtain ⟨tags, words, u, hhead⟩ := statementHead_eq_ok s
  have hsuffix := (Forward.of_run hhead).rest
  rw [statement_of_head block hhead] at hrun
  cases hheading : u.heading? with
  | none =>
    rw [hheading] at hrun
    cases hrun
    rw [State.rest_advance, List.length_drop]
    have hle := hsuffix.length_le
    by_cases hsame : u.rest.length = s.rest.length
    · have hne : statementLength true 0 u.rest ≠ 0 := by
        rw [hsuffix.eq_of_length hsame]
        exact fun hzero => hends (endsMembers_iff.mpr (recovers_statementLength _ hzero))
      have hpos : 0 < u.rest.length := List.length_pos_iff.mpr fun hnil =>
        hne (by rw [hnil]; rfl)
      omega
    · omega
  | some found =>
    rw [hheading] at hrun
    obtain ⟨hpos, hne⟩ := heading?_some hheading
    have hlt := length_advance_lt hpos hne
    have hdeclaration : declaration block s tags words found.1 (u.advance found.2) =
      (.ok node?, t) := hrun
    have hle := (Forward.of_run hdeclaration).rest.length_le
    exact Nat.lt_of_le_of_lt hle (Nat.lt_of_lt_of_le hlt hsuffix.length_le)

theorem carried_statements (hunsealed : c.ending ≠ .sealed) (h : Carried c block) :
    Carried c (statements block) := fun level _ =>
  .members (by decide) (by decide)
    ⟨(statementLength_shift · true 0 ·), fun hsealed => absurd hsealed hunsealed,
      fun _ _ tail _ => statementLength_append_of_lt tail⟩
    recovers_statementLength (carried_statement hunsealed h level) consumes_statement

end

theorem carried_blockWithin (hunsealed : c.ending ≠ .sealed) (levels : Nat) :
    Carried c (blockWithin levels) := by
  induction levels with
  | zero => exact fun level s => .refuse
  | succ levels ih => exact fun level s => .nested (carried_statements hunsealed ih level _)

theorem Agrees.report {s : State} (error : ParseError) :
    Agrees c level s (Parser.report (shift c.offset error)) (Parser.report error) := by
  intro hs _
  refine ⟨?_, hs.record error⟩
  show (Except.ok (), (c.embed s).record (shift c.offset error)) = _
  rw [← c.embed_record]
  rfl

/-- The bound on the number of runs of statements is not reached. -/
theorem agrees_runsUpTo (hunsealed : c.ending ≠ .sealed) (m n : Nat) (s : State)
    (hm : s.rest.length < m) (hn : s.rest.length < n) :
    Agrees c level s (runsUpTo m) (runsUpTo n) := by
  induction n generalizing s m with
  | zero => exact absurd hn (Nat.not_lt_zero _)
  | succ n ih =>
    obtain ⟨m, rfl⟩ := Nat.exists_eq_add_one_of_ne_zero (Nat.ne_of_gt (Nat.zero_lt_of_lt hm))
    have hblock := carried_blockWithin hunsealed maxDepth
    refine (carried_statements hunsealed hblock level s).bind fun nodes t hrun => .look fun ht => ?_
    refine .ite (by rw [ht.isAt]) (fun hbrace => ?_) fun _ => .pure rfl
    have hle := (Forward.of_run hrun).rest.length_le
    rw [ht.errorHere]
    refine (Agrees.report _).go fun _ u hreport => ?_
    refine (Agrees.advance_of_unsealed hunsealed 1).go fun _ v hadvance => ?_
    have hlt : v.rest.length < t.rest.length := by
      cases hreport
      cases hadvance
      exact length_advance_lt Nat.one_pos (ne_nil_of_isAt hbrace)
    exact (ih m v (by omega) (by omega)).bind fun others w _ => .pure (by simp)

end DeclSchema.Parser
