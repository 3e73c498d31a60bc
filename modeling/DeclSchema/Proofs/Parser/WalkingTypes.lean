import DeclSchema.Proofs.Parser.Walking

/-!
# Every run is a walk

Types, members, declarations and statements are read by walks, and so is a whole source.
-/

/- The longest parsers have more parts than instance search allows by default. -/
set_option synthInstance.maxSize 1024

namespace DeclSchema.Parser

section

variable {s : State}

theorem walks_identifier (what : Wanted) : Walks s (identifier what) :=
  (Walks.token (by decide) (by decide) what).go fun _ _ => .pure _

theorem walks_entityName : Walks s entityName := by
  refine (walks_identifier _).go fun first t => Walks.go (.repeatWhile fun u hu => ?_)
    fun segments u => .ite (fun _ => .pure _) fun _ => .look (.pure _)
  obtain ⟨dot, rest, hrest, hkind⟩ := rest_of_isAt (Bool.and_eq_true_iff.mp hu).1
  refine Walks.go (.advance_one hrest ?_ ?_) fun _ v => walks_identifier _
  · simp [hkind, TokenKind.opens]
  · simp [hkind, TokenKind.closes]

theorem walks_skipGroup (hopen : ∀ token ∈ s.rest.head?, token.kind.opens) :
    Walks s skipGroup :=
  .look (.advance fun _ hcloses => leavesOpen_group hopen hcloses)

theorem walks_skipGroup_of_cons {token : Token} {rest : List Token} (hrest : s.rest = token :: rest)
    (hopens : token.kind.opens) : Walks s skipGroup :=
  walks_skipGroup (by simpa [hrest] using hopens)

theorem walks_skipDecorators : Walks s skipDecorators :=
  .look (.advance fun _ hcloses => leavesOpen_decoratorsLength hcloses)

theorem walks_skipInitializer (ends : TokenKind → Bool) : Walks s (skipInitializer ends) :=
  .look (.advance fun _ hcloses => leavesOpen_initializerLength [] ends true hcloses)

theorem walks_memberName : Walks s memberName := by
  refine .look ?_
  cases hrest : s.rest with
  | nil => exact .fail _
  | cons token rest =>
    dsimp only
    have hone := Walks.advance_one hrest
    cases hkind : token.kind with
    | word | string | number =>
      exact (hone (by simp [hkind, TokenKind.opens]) (by simp [hkind, TokenKind.closes])).go
        fun _ t => .pure _
    | hash =>
      dsimp only
      cases hname : rest.head? with
      | none => exact .fail _
      | some name =>
        refine .ite (fun hword => ?_) fun _ => .fail _
        obtain ⟨behind, rfl⟩ := List.head?_eq_some_iff.mp hname
        refine Walks.go (.advance (.of_plain ?_)) fun _ t => .pure _
        simp [hrest, hkind, hword, TokenKind.opens, TokenKind.closes]
    | lBracket =>
      exact (walks_skipGroup_of_cons hrest (by rw [hkind]; rfl)).go fun _ t => .pure _
    | _ => exact .fail _

theorem walks_questionMark : Walks s questionMark := by
  refine .look ?_
  cases hrest : s.rest with
  | nil => exact .pure _
  | cons token rest =>
    refine .ite (fun hkind => Walks.go (.advance_one hrest ?_ ?_) fun _ t => .pure _)
      fun _ => .pure _
    · simp [hkind, TokenKind.opens]
    · simp [hkind, TokenKind.closes]

theorem walks_readonlyMark : Walks s readonlyMark := by
  refine .look ?_
  cases hrest : s.rest with
  | nil => exact .pure _
  | cons token rest =>
    refine .ite (fun hword => ?_) fun _ => .pure _
    obtain ⟨first, behind, hfirst, hkind⟩ := rest_of_atWord (Bool.and_eq_true_iff.mp hword).1
    exact (Walks.word hfirst hkind).go fun _ t => .pure _

theorem walks_modifiers {step : Bool → Token → List Token → ModifierStep}
    (hstep : LooksAhead step) : Walks s (modifiers step) := by
  refine .look (Walks.go (.advance (.of_plain fun token htoken => ?_)) fun _ t => .pure _)
  have hkind := kind_of_mem_take_leadingModifiers hstep _ _ token htoken
  simp [hkind, TokenKind.opens, TokenKind.closes]

theorem walks_binding : Walks s binding := by
  refine .look ?_
  cases hrest : s.rest with
  | nil => exact .fail _
  | cons token rest =>
    dsimp only
    cases hkind : token.kind with
    | word => exact (walks_identifier _).go fun name t => .pure _
    | lBrace | lBracket =>
      exact (walks_skipGroup_of_cons hrest (by rw [hkind]; rfl)).go fun _ t => .pure _
    | _ => exact .fail _

theorem walks_body : Walks s body := by
  refine .look (.ite (fun hopen => ?_) fun _ => ?_)
  · obtain ⟨token, rest, hrest, hkind⟩ := rest_of_isAt hopen
    exact walks_skipGroup_of_cons hrest (by rw [hkind]; rfl)
  · exact (Walks.accept (by decide) (by decide)).go fun _ t => .pure _

section

variable {levels : Nat} (h : ∀ s, Walks s (typeWithin levels))

include h

theorem walks_typeIfAny : Walks s (optional (accept .colon) (typeWithin levels)) :=
  .optional (.accept (by decide) (by decide)) h

theorem walks_typeParameter : Walks s (typeParameter (typeWithin levels)) := by
  unfold typeParameter
  dsimp only
  refine .look ((Walks.acceptWord _).go fun _ t => .look (.when (fun hvariance => ?_) fun u => ?_))
  · rcases Bool.or_eq_true_iff.mp (Bool.and_eq_true_iff.mp hvariance).1 with hword | hword
    · obtain ⟨token, rest, hrest, hkind⟩ := rest_of_atWord hword
      exact .word hrest hkind
    · obtain ⟨token, rest, hrest, hkind⟩ := rest_of_atWord hword
      exact .word hrest hkind
  · refine (walks_identifier _).go fun name u => ?_
    refine Walks.go (.optional (.acceptWord _) h) fun bound v => ?_
    refine Walks.go (.optional (.accept (by decide) (by decide)) h) fun preset w => ?_
    exact .look (.pure _)

theorem walks_typeParametersIfAny : Walks s (typeParametersIfAny (typeWithin levels)) := by
  refine .look (.ite (fun _ => ?_) fun _ => .pure _)
  refine (Walks.expect (by decide) (by decide)).go fun _ t => ?_
  exact (Encloses.commaList fun u => walks_typeParameter h).walks (by decide) (by decide)

theorem walks_parameter : Walks s (parameter (typeWithin levels)) := by
  unfold parameter
  dsimp only
  refine walks_skipDecorators.go fun _ s => .look ?_
  refine (walks_modifiers looksAhead_parameterModifier).go fun words t => ?_
  refine (Walks.accept (by decide) (by decide)).go fun _ t => ?_
  refine walks_binding.go fun name t => walks_questionMark.go fun question t => ?_
  refine (walks_typeIfAny h).go fun typeNode t => ?_
  refine (Walks.accept (by decide) (by decide)).go fun _ t => ?_
  exact .when (fun _ => walks_skipInitializer _) fun t => .look (.pure _)

theorem walks_parameters : Walks s (parameters (typeWithin levels)) :=
  .enclosed rfl rfl fun _ => .commaList fun _ => walks_parameter h

/-- A return type is kept or given back. -/
theorem walks_returnType (withBody : Bool) :
    Walks s (returnType (typeWithin levels) withBody) := by
  have htype := h s
  rcases hrun : typeWithin levels s with ⟨result, t⟩
  unfold Walks at htype ⊢
  rw [hrun] at htype
  rw [returnType_apply withBody hrun]
  split
  · next hkept =>
    rw [(Bool.and_eq_true_iff.mp hkept).1] at htype
    exact .returned htype
  · exact .gaveBack _ htype

theorem walks_signature (withBody : Bool) :
    Walks s (signature (typeWithin levels) withBody) := by
  refine (walks_typeParametersIfAny h).go fun generics t => ?_
  refine (walks_parameters h).go fun arguments u => ?_
  refine (Walks.accept (by decide) (by decide)).go fun colon u => ?_
  refine .when (fun _ => walks_returnType h withBody) fun u => ?_
  exact .when (fun _ => walks_body) fun u => .pure _

theorem walks_indexSignature : Walks s (indexSignature (typeWithin levels)) := by
  unfold indexSignature
  dsimp only
  refine .enclosed rfl rfl fun _ => .look ?_
  refine .bind (walks_identifier _) fun name t _ => ?_
  refine .bind (.expect (by decide) (by decide)) fun _ t _ => ?_
  refine .bind (h t) fun keyType t _ => .look (.expect fun _ => ?_)
  refine walks_questionMark.go fun question u => ?_
  refine (Walks.expect (by decide) (by decide)).go fun _ u => ?_
  exact (h u).go fun value u => .pure _

theorem walksMember_typeMember : WalksMember s (typeMember (typeWithin levels)) := by
  unfold typeMember
  dsimp only
  show WalksMember s (takeDocs >>= _)
  refine .documented (fun tags t => walks_readonlyMark.go fun words t => ?_) fun tags => ?_
  · refine .look (.ite (fun haccessor => ?_) fun _ => .ite (fun _ => ?_) fun _ =>
      .ite (fun _ => ?_) fun _ => ?_)
    · obtain ⟨token, rest, hrest, hkind⟩ := rest_of_atAccessor haccessor
      refine (Walks.word hrest hkind).go fun _ u => walks_memberName.go fun name u => ?_
      exact (walks_signature h false).go fun parts u => .look (.pure _)
    · exact (walks_indexSignature h).go fun parts u => .look (.pure _)
    · refine (Walks.acceptWord _).go fun _ u => (walks_signature h false).go ?_
      exact fun parts u => .look (.pure _)
    refine walks_memberName.go fun name u => walks_questionMark.go fun question u => ?_
    refine .look (.ite (fun _ => ?_) fun _ => ?_)
    · exact (walks_signature h false).go fun parts u => .look (.pure _)
    · exact (walks_typeIfAny h).go fun typeNode u => .look (.pure _)
  · refine .after fun _ => .after fun s => ?_
    refine .ite ?_ (.ite ?_ (.ite ?_ ?_))
    · exact .after fun _ => .bind consumes_memberName
    · exact .bind consumes_indexSignature
    · exact .after fun _ => .bind (consumes_signature false)
    · exact .bind consumes_memberName

theorem walksInside_typeMembers : WalksInside s (typeMembers (typeWithin levels)) := by
  refine .members (fun kind hkind => ?_) (fun _ _ hcloses => ?_) recovers_malformedLength
    fun t => (walksMember_typeMember h).map some
  · cases kind <;> first | exact ⟨Bool.false_ne_true, Bool.false_ne_true⟩ | cases hkind
  · exact leavesOpen_malformedLength [] hcloses

theorem walksMember_classMember : WalksMember s (classMember (typeWithin levels)) := by
  unfold classMember
  dsimp only
  refine .decorated (fun before behind t => .look (.ite (fun hstatic => ?_) fun _ => ?_))
    fun before behind => .look fun s t node? hrun => ?_
  · obtain ⟨hword, hopen⟩ := Bool.and_eq_true_iff.mp hstatic
    obtain ⟨token, rest, hrest, hkind⟩ := rest_of_atWord hword
    refine (Walks.word hrest hkind).bind fun _ u hrun => ?_
    refine (walks_skipGroup ?_).go fun _ v => .pure _
    obtain ⟨opening, hopening, hkind⟩ := exists_of_nthIs hopen
    cases hrun
    rw [State.rest_advance, List.head?_drop, hopening]
    simp [hkind, TokenKind.opens]
  · refine (walks_modifiers looksAhead_classModifier).go fun words t => .look ?_
    refine .ite (fun hconstructor => ?_) fun _ => .ite (fun haccessor => ?_) fun _ =>
      (Walks.accept (by decide) (by decide)).go fun _ t => ?_
    · obtain ⟨token, rest, hrest, hkind⟩ := rest_of_atWord (Bool.and_eq_true_iff.mp hconstructor).1
      refine (Walks.word hrest hkind).go fun _ u => (walks_parameters h).go fun parts u => ?_
      exact walks_body.go fun _ u => .look (.pure _)
    · obtain ⟨token, rest, hrest, hkind⟩ := rest_of_atAccessor haccessor
      refine (Walks.word hrest hkind).go fun _ u => walks_memberName.go fun name u => ?_
      exact (walks_signature h true).go fun parts u => .look (.pure _)
    refine .look (.ite (fun _ => (walks_indexSignature h).go fun parts u => ?_) fun _ => ?_)
    · exact (Walks.accept (by decide) (by decide)).go fun _ u => .look (.pure _)
    refine walks_memberName.go fun name u => walks_questionMark.go fun question u => ?_
    refine (Walks.accept (by decide) (by decide)).go fun _ u =>
      .look (.ite (fun _ => ?_) fun _ => ?_)
    · exact (walks_signature h true).go fun parts u => .look (.pure _)
    refine (walks_typeIfAny h).go fun typeNode u => ?_
    refine (Walks.accept (by decide) (by decide)).go fun _ u => ?_
    refine .when (fun _ => walks_skipInitializer _) fun u => ?_
    exact (Walks.accept (by decide) (by decide)).go fun _ u => .look (.pure _)
  · by_cases hstatic : s.atWord "static" && s.nthIs 1 .lBrace
    · rw [if_pos hstatic] at hrun
      have hne := ne_nil_of_atWord (Bool.and_eq_true_iff.mp hstatic).1
      have hle := (Forward.of_run (p := do skipGroup; return none) (s := s.advance 1) hrun).rest
      exact Nat.lt_of_le_of_lt hle.length_le (length_advance_lt Nat.one_pos hne)
    · rw [if_neg hstatic] at hrun
      refine Consumes.after (p := modifiers classModifier) (fun words => .after fun u => ?_)
        s t node? hrun
      refine .ite (.after fun _ => .bind consumes_parameters) (.ite ?_ (.after fun _ => ?_))
      · exact .after fun _ => .bind consumes_memberName
      · exact .after fun v => .ite (.bind consumes_indexSignature) (.bind consumes_memberName)

theorem walksInside_classMembers : WalksInside s (classMembers (typeWithin levels)) := by
  refine .members (fun kind hkind => ?_) (fun _ _ hcloses => ?_) recovers_malformedLength
    fun t => walksMember_classMember h
  · cases kind <;> first | exact ⟨Bool.false_ne_true, Bool.false_ne_true⟩ | cases hkind
  · exact leavesOpen_malformedLength [] hcloses

omit h in
theorem walks_operands {operator : TokenKind} {kind : NodeKind} {operand : Parser Node}
    (hopens : ¬ operator.opens) (hcloses : ¬ operator.closes) (h : ∀ s, Walks s operand) :
    Walks s (operands operator kind operand) := by
  unfold operands
  dsimp only
  refine .look ((Walks.accept hopens hcloses).go fun _ t => ?_)
  exact (Walks.separated hopens hcloses h).go fun nodes t => .look (.pure _)

theorem walks_typeArguments : Walks s (typeArguments (typeWithin levels)) := by
  refine (Walks.expect (by decide) (by decide)).go fun _ t => ?_
  refine (Walks.separated (by decide) (by decide) h).go fun nodes t => ?_
  exact (Walks.expect (by decide) (by decide)).go fun _ t => .pure _

theorem walks_functionType : Walks s (functionType (typeWithin levels)) := by
  unfold functionType
  dsimp only
  refine .look ((walks_typeParametersIfAny h).go fun generics t => ?_)
  refine (walks_parameters h).go fun arguments t => ?_
  refine (Walks.expect (by decide) (by decide)).go fun _ t => ?_
  exact (h t).go fun returned t => .look (.pure _)

omit h in
/-- Before a type in a tuple only a word and marks are read. -/
theorem walks_labelLength (s : State) : Walks s (advance s.labelLength) := by
  have hsucc : ∀ n token, s.rest[n]? = some token → token.kind = .word ∨ token.kind = .colon ∨
      token.kind = .question → (∀ token ∈ s.rest.take n, ¬ token.kind.opens ∧
        ¬ token.kind.closes) →
      ∀ token ∈ s.rest.take (n + 1), ¬ token.kind.opens ∧ ¬ token.kind.closes := by
    intro n token hn hkind htake
    rw [List.take_add_one, hn, List.forall_mem_append]
    refine ⟨htake, List.forall_mem_singleton.mpr ?_⟩
    rcases hkind with hkind | hkind | hkind <;> simp [hkind, TokenKind.opens, TokenKind.closes]
  have hword : s.nthIsWord 0 → ∀ token ∈ s.rest.take 1, ¬ token.kind.opens ∧
      ¬ token.kind.closes := fun hword => by
    obtain ⟨token, htoken, hkind⟩ := exists_of_nthIsWord hword
    exact hsucc 0 token htoken (.inl hkind) (by simp)
  refine .advance (.of_plain ?_)
  unfold State.labelLength
  split
  · next hlabel =>
    obtain ⟨hfirst, hcolon⟩ := Bool.and_eq_true_iff.mp hlabel
    obtain ⟨token, htoken, hkind⟩ := exists_of_nthIs hcolon
    exact hsucc 1 token htoken (.inr (.inl hkind)) (hword hfirst)
  split
  · next hlabel =>
    obtain ⟨hboth, hcolon⟩ := Bool.and_eq_true_iff.mp hlabel
    obtain ⟨hfirst, hquestion⟩ := Bool.and_eq_true_iff.mp hboth
    obtain ⟨mark, hmark, hkind⟩ := exists_of_nthIs hquestion
    obtain ⟨token, htoken, hkind'⟩ := exists_of_nthIs hcolon
    exact hsucc 2 token htoken (.inr (.inl hkind')) (hsucc 1 mark hmark (.inr (.inr hkind))
      (hword hfirst))
  · simp

theorem walks_tupleElement : Walks s (tupleElement (typeWithin levels)) := by
  unfold tupleElement
  dsimp only
  refine .look ((Walks.accept (by decide) (by decide)).go fun spread t => .look ?_)
  refine (walks_labelLength t).go fun _ t => (h t).go fun element t => ?_
  refine (Walks.accept (by decide) (by decide)).go fun _ t => ?_
  exact .ite (fun _ => .look (.pure _)) fun _ => .pure _

theorem walks_tupleType : Walks s (tupleType (typeWithin levels)) := by
  unfold tupleType
  dsimp only
  refine .look (.enclosed rfl rfl fun _ => .go (.commaList fun u => walks_tupleElement h) ?_)
  exact fun elements t => .look (.pure _)

theorem walks_parenthesizedType : Walks s (parenthesizedType (typeWithin levels)) := by
  unfold parenthesizedType
  dsimp only
  refine .look (.enclosed rfl rfl fun _ => .bind (h _) fun inside t _ => .expect fun _ => ?_)
  exact .look (.pure _)

theorem walks_objectType : Walks s (objectType (typeWithin levels)) := by
  have hsplit : objectType (typeWithin levels) = (look >>= fun s =>
      braced (nested (typeMembers (typeWithin levels))) >>= fun inside => do
        return Node.inner .typeLiteral s.start (← look).prevEnd inside) := by
    simp only [objectType, braced, bind_assoc, pure_bind]
  rw [hsplit]
  refine .look (.braced (fun t => .nested fun _ => walksInside_typeMembers h) fun nodes t => ?_)
  exact .look (.pure _)

theorem walks_named {kind : NodeKind} (start : Nat) {name : Node} {c : Prop} [Decidable c] :
    Walks s (do
      let arguments ← if c then typeArguments (typeWithin levels) else pure []
      return Node.inner kind start (← look).prevEnd (name :: arguments)) :=
  .either (fun _ => walks_typeArguments h) (fun _ => .pure _) fun _ _ => .look (.pure _)

theorem walks_typeQuery {word : Token} {rest : List Token} (hrest : s.rest = word :: rest)
    (hkind : word.kind = .word) : Walks s (typeQuery (typeWithin levels)) := by
  unfold typeQuery
  dsimp only
  refine .look ((Walks.word hrest hkind).go fun _ t => .look (.ite (fun _ => ?_) fun _ => .fail _))
  exact walks_entityName.go fun name t => .look (walks_named h _)

theorem walks_typeReference : Walks s (typeReference (typeWithin levels)) := by
  unfold typeReference
  dsimp only
  exact .look (walks_entityName.go fun name t => .look (walks_named h _))

theorem walks_wordType {word : Token} {rest : List Token} (hrest : s.rest = word :: rest)
    (hkind : word.kind = .word) : Walks s (wordType (typeWithin levels) word) := by
  have hone : Walks s (advance 1) := .word hrest hkind
  refine .look (.ite (fun _ => walks_typeQuery h hrest hkind) fun _ => ?_)
  refine .ite (fun _ => hone.go fun _ t => .pure _) fun _ => ?_
  refine .ite (fun _ => hone.go fun _ t => .pure _) fun _ => ?_
  refine .ite (fun _ => hone.go fun _ t => walks_functionType h) fun _ => ?_
  refine .ite (fun _ => .fail _) fun _ => ?_
  cases NodeKind.keywordType? word.text with
  | none => exact walks_typeReference h
  | some kind => exact .ite (fun _ => walks_typeReference h) fun _ => hone.go fun _ t => .pure _

omit h in
theorem walks_negativeType {sign : Token} {rest : List Token} (hrest : s.rest = sign :: rest)
    (hkind : sign.kind = .minus) : Walks s (negativeType sign) := by
  have hone : Walks s (advance 1) := by
    apply Walks.advance_one hrest
    · simp [hkind, TokenKind.opens]
    · simp [hkind, TokenKind.closes]
  exact hone.go fun _ t => (Walks.token (by decide) (by decide) _).go fun number t => .pure _

theorem walks_primaryType : Walks s (primaryType (typeWithin levels)) := by
  refine .look ?_
  cases hrest : s.rest with
  | nil => exact .fail _
  | cons token rest =>
    dsimp only
    have hone := Walks.advance_one hrest
    cases hkind : token.kind with
    | lParen => exact .ite (fun _ => walks_functionType h) fun _ => walks_parenthesizedType h
    | lt => exact walks_functionType h
    | lBrace => exact walks_objectType h
    | lBracket => exact walks_tupleType h
    | string | number =>
      exact (hone (by simp [hkind, TokenKind.opens]) (by simp [hkind, TokenKind.closes])).go
        fun _ t => .pure _
    | minus => exact .ite (fun _ => walks_negativeType hrest hkind) fun _ => .fail _
    | word => exact walks_wordType h hrest hkind
    | _ => exact .fail _

theorem walks_suffix (start : Nat) (target : Node) :
    Walks s (suffix (typeWithin levels) start target) := by
  refine .enclosed rfl rfl fun _ => .accept (fun _ => ?_) fun _ => ?_
  · exact .ite (fun _ => .look (.pure _)) nofun
  · refine .ite nofun fun _ => .bind (h _) fun index t _ => .expect fun _ => ?_
    exact .look (.pure _)

theorem walks_suffixesUpTo (start count : Nat) (target : Node) :
    Walks s (suffixesUpTo (typeWithin levels) start count target) := by
  induction count generalizing s target with
  | zero => exact .pure _
  | succ count ih =>
    refine .look (.ite (fun _ => ?_) fun _ => .pure _)
    exact (walks_suffix h start target).go fun longer t => ih longer

theorem walks_unionType : Walks s (unionType (typeWithin levels)) := by
  have hpostfix : ∀ s, Walks s (postfixType (typeWithin levels)) := by
    intro s
    refine .look (Walks.go (.advance (.of_plain fun token htoken => ?_)) fun _ t => .look ?_)
    · have hkind := kind_of_mem_take_readonlyLength s.rest token htoken
      simp [hkind, TokenKind.opens, TokenKind.closes]
    · exact (walks_primaryType h).go fun target u => walks_suffixesUpTo h _ _ _
  exact walks_operands (by decide) (by decide) fun s =>
    walks_operands (by decide) (by decide) hpostfix

end

theorem walks_typeWithin (levels : Nat) (s : State) : Walks s (typeWithin levels) := by
  induction levels generalizing s with
  | zero => exact .refuse
  | succ levels ih => exact .nested fun _ => walks_unionType ih

theorem walks_type (s : State) : Walks s type :=
  walks_typeWithin maxDepth s

end

end DeclSchema.Parser
