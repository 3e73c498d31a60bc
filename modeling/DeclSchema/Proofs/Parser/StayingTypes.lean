import DeclSchema.Proofs.Parser.Staying

/-!
# Types stay inside of braces

The parsers of signatures, members and types stay inside of the braces that they are run in,
and every node they give ends with the brace that closes its body.
-/

/- The longest parsers have more parts than instance search allows by default. -/
set_option synthInstance.maxSize 8192

namespace DeclSchema.Parser

/-- All nodes of a list are whole. -/
abbrev AllWhole (source : String) (nodes : List Node) : Prop :=
  ∀ node ∈ nodes, Whole source node

section

variable {source : String} {s : State}

theorem stays_identifier (what : Wanted) : Stays source s (identifier what) (Whole source) :=
  (Stays.token (by decide) (by decide) what).go fun _ _ _ => .pure (.leaf rfl)

theorem stays_entityName : Stays source s entityName (Whole source) := by
  refine (stays_identifier _).go fun first t hfirst => ?_
  refine Stays.go (P := AllWhole source) (.repeatWhile fun u hu => ?_)
    fun segments u hsegments => ?_
  · obtain ⟨dot, rest, hrest, hkind⟩ := rest_of_isAt (Bool.and_eq_true_iff.mp hu).1
    refine (Stays.advance_one hrest (by simp [hkind]) (by simp [hkind])).go fun _ v _ => ?_
    exact stays_identifier _
  · refine .ite (fun _ => .pure hfirst) fun _ => .look (.pure (.inner rfl ?_))
    exact List.forall_mem_cons.mpr ⟨hfirst, hsegments⟩

theorem stays_skipGroup (hopen : ∀ token ∈ s.rest.head?, token.kind.opens) :
    Stays source s skipGroup fun _ => True :=
  .look (.advance fun _ htail h => h.drop_group htail hopen)

theorem stays_skipDecorators : Stays source s skipDecorators fun _ => True :=
  .look (.advance fun _ htail h => h.drop_decorators htail)

theorem stays_skipInitializer (ends : TokenKind → Bool) :
    Stays source s (skipInitializer ends) fun _ => True :=
  .look (.advance fun _ htail h => h.drop_initializer htail ends)

theorem stays_memberName : Stays source s memberName (AllWhole source) := by
  refine .look ?_
  cases hrest : s.rest with
  | nil => exact .fail nofun
  | cons token rest =>
    dsimp only
    have hone : token.kind ≠ .lBrace → token.kind ≠ .rBrace →
        Stays source s (advance 1) fun _ => True := Stays.advance_one hrest
    cases hkind : token.kind with
    | word | string | number =>
      refine (hone (by simp [hkind]) (by simp [hkind])).go fun _ t _ => .pure ?_
      exact List.forall_mem_singleton.mpr (.leaf rfl)
    | hash =>
      dsimp only
      cases hname : rest.head? with
      | none => exact .fail nofun
      | some name =>
        refine .ite (fun hword => ?_) fun _ => .fail nofun
        obtain ⟨behind, rfl⟩ := List.head?_eq_some_iff.mp hname
        refine Stays.go (P := fun _ => True) (.advance fun _ htail h => h.drop htail 2 ?_)
          fun _ t _ => .pure (List.forall_mem_singleton.mpr (.leaf rfl))
        simp [hrest, hkind, hword]
    | lBracket =>
      refine (stays_skipGroup (by simp [hrest, hkind, TokenKind.opens])).go fun _ t _ => .pure ?_
      exact List.forall_mem_nil _
    | _ => exact .fail nofun

theorem stays_questionMark : Stays source s questionMark (AllWhole source) := by
  refine .look ?_
  cases hrest : s.rest with
  | nil => exact .pure (List.forall_mem_nil _)
  | cons token rest =>
    refine .ite (fun hkind => ?_) fun _ => .pure (List.forall_mem_nil _)
    refine (Stays.advance_one hrest (by simp [hkind]) (by simp [hkind])).go fun _ t _ => .pure ?_
    exact List.forall_mem_singleton.mpr (.mark rfl)

theorem stays_readonlyMark : Stays source s readonlyMark (AllWhole source) := by
  refine .look ?_
  cases hrest : s.rest with
  | nil => exact .pure (List.forall_mem_nil _)
  | cons token rest =>
    refine .ite (fun hword => ?_) fun _ => .pure (List.forall_mem_nil _)
    obtain ⟨first, behind, hfirst, hkind⟩ := rest_of_atWord (Bool.and_eq_true_iff.mp hword).1
    refine (Stays.advance_one hfirst (by simp [hkind]) (by simp [hkind])).go fun _ t _ => .pure ?_
    exact List.forall_mem_singleton.mpr (.leaf rfl)

theorem kind_of_mem_take_leadingModifiers {step : Bool → Token → List Token → ModifierStep}
    (hstep : LooksAhead step) (kept : Bool) (tokens : List Token) :
    ∀ token ∈ tokens.take (leadingModifiers step kept tokens).2, token.kind = .word := by
  induction tokens generalizing kept with
  | nil => simp [leadingModifiers]
  | cons token rest ih =>
    by_cases hword : token.word? = none
    · rw [leadingModifiers_of_stop (hstep.stop _ _ _ hword)]
      simp
    have hkind : token.kind = .word := by simpa [Token.word?_eq_none_iff] using hword
    rw [leadingModifiers]
    cases step kept token rest with
    | stop => simp
    | pass | keep => simpa [hkind] using ih _

theorem stays_modifiers {step : Bool → Token → List Token → ModifierStep} (hstep : LooksAhead step)
    (hkind : ∀ kept token rest kind, step kept token rest = .keep kind → kind.isModifier) :
    Stays source s (modifiers step) (AllWhole source) := by
  refine .look (Stays.go (P := fun _ => True) (.advance fun _ htail h => h.drop htail _ ?_)
    fun _ t _ => .pure fun node hnode => ?_)
  · intro token htoken
    simp [kind_of_mem_take_leadingModifiers hstep _ _ token htoken]
  · obtain ⟨kind, text, span, hmodifier, rfl⟩ :=
      isModifier_of_mem_leadingModifiers hkind false s.rest node hnode
    exact .leaf (by cases kind <;> first | rfl | cases hmodifier)

theorem stays_binding : Stays source s binding (AllWhole source) := by
  refine .look ?_
  cases hrest : s.rest with
  | nil => exact .fail nofun
  | cons token rest =>
    dsimp only
    cases hkind : token.kind with
    | word =>
      refine (stays_identifier _).go fun name t hname => .pure ?_
      exact List.forall_mem_singleton.mpr hname
    | lBrace | lBracket =>
      refine (stays_skipGroup (by simp [hrest, hkind, TokenKind.opens])).go fun _ t _ => .pure ?_
      exact List.forall_mem_nil _
    | _ => exact .fail nofun

theorem stays_body : Stays source s body fun _ => True := by
  refine .look (.ite (fun hopen => ?_) fun _ => ?_)
  · obtain ⟨token, rest, hrest, hkind⟩ := rest_of_isAt hopen
    exact stays_skipGroup (by simp [hrest, hkind, TokenKind.opens])
  · exact (Stays.accept (by decide) (by decide)).go fun _ t _ => .pure trivial

section

variable {levels : Nat} (h : ∀ s, Stays source s (typeWithin levels) (Whole source))

include h

theorem stays_typeIfAny : Stays source s (optional (accept .colon) (typeWithin levels))
    (AllWhole source) :=
  .optional (.accept (by decide) (by decide)) h

theorem stays_typeParameter :
    Stays source s (typeParameter (typeWithin levels)) (Whole source) := by
  unfold typeParameter
  dsimp only
  refine .look ((Stays.acceptWord _).go fun _ t _ => .look ?_)
  refine .when (fun hvariance => ?_) fun u => ?_
  · obtain ⟨token, rest, hrest, hkind⟩ : ∃ token rest, t.rest = token :: rest ∧
        token.kind = .word := by
      rcases Bool.or_eq_true_iff.mp (Bool.and_eq_true_iff.mp hvariance).1 with hword | hword
      · exact rest_of_atWord hword
      · exact rest_of_atWord hword
    exact .advance_one hrest (by simp [hkind]) (by simp [hkind])
  · refine (stays_identifier _).go fun name u hname => ?_
    refine Stays.go (.optional (.acceptWord _) h) fun bound v hbound => ?_
    refine Stays.go (.optional (.accept (by decide) (by decide)) h) fun preset w hpreset => ?_
    refine .look (.pure (.inner rfl ?_))
    exact List.forall_mem_cons.mpr ⟨hname, List.forall_mem_append.mpr ⟨hbound, hpreset⟩⟩

theorem stays_typeParametersIfAny :
    Stays source s (typeParametersIfAny (typeWithin levels)) (AllWhole source) := by
  refine .look (.ite (fun _ => ?_) fun _ => .pure (List.forall_mem_nil _))
  refine (Stays.expect (by decide) (by decide)).go fun _ t _ => ?_
  exact .commaList (by decide) (by decide) fun u => stays_typeParameter h

theorem stays_parameter : Stays source s (parameter (typeWithin levels)) (Whole source) := by
  unfold parameter
  dsimp only
  refine stays_skipDecorators.go fun _ s _ => .look ?_
  refine (stays_modifiers looksAhead_parameterModifier isModifier_of_parameterModifier).go
    fun words t hwords => ?_
  refine (Stays.accept (by decide) (by decide)).go fun _ t _ => ?_
  refine stays_binding.go fun name t hname => stays_questionMark.go fun question t hquestion => ?_
  refine (stays_typeIfAny h).go fun typeNode t htypeNode => ?_
  refine (Stays.accept (by decide) (by decide)).go fun _ t _ => ?_
  refine .when (fun _ => stays_skipInitializer _) fun t => .look (.pure (.inner rfl ?_))
  simp only [List.forall_mem_append]
  exact ⟨⟨⟨hwords, hname⟩, hquestion⟩, htypeNode⟩

theorem stays_parameters :
    Stays source s (parameters (typeWithin levels)) (AllWhole source) := by
  refine (Stays.expect (by decide) (by decide)).go fun _ t _ => ?_
  exact .commaList (by decide) (by decide) fun u => stays_parameter h

/-- A return type is kept or given back. Its errors are dropped in both cases, but not what
the journal says of it. -/
theorem stays_returnType (hreturn : StatesReturnType source) (withBody : Bool) :
    Stays source s (returnType (typeWithin levels) withBody) fun _ => True := by
  intro tail htail hs
  have herrors := Forward.errors (p := typeWithin levels) s
  rcases hrun : typeWithin levels s with ⟨result, t⟩
  rw [hrun] at herrors
  have hout := (h s).of_run htail hs hrun
  have hrefused : ∀ u : State, u.Astray source → .refused ∈ u.journal := fun u hastray =>
    (hastray.resolve_right fun hno => hno.1 hreturn).2
  have hlength : ∀ u, Enclosed source tail u → u.length = s.length := fun u hu =>
    hu.stands.length.trans hs.stands.length.symm
  have hback : .refused ∈ t.journal ∨ t.length = s.length → Outcome source tail (fun _ => True)
      (.ok (), (s.giveBack t).advance (returnTypeLength withBody true 0 (s.giveBack t).rest)) := by
    rintro (hmem | hsame)
    · exact .inl (.inl ⟨hreturn, List.mem_append_left _ hmem⟩)
    · have hgiven : Enclosed source tail (s.giveBack t) := hs.congr rfl rfl hsame
        (List.prefix_iff_eq_take.mp herrors ▸ List.Subset.refl _)
      exact .inr ⟨hgiven.advance (hgiven.inside.drop_returnType htail withBody), trivial⟩
  rw [returnType_apply withBody hrun]
  cases result with
  | error error =>
    exact hback (hout.imp (hrefused (t.record error)) (hlength (t.record error)))
  | ok node =>
    split
    · refine hout.imp (fun hastray => .inl ⟨hreturn, hrefused t hastray⟩) fun ht => ⟨?_, trivial⟩
      exact ht.1.congr rfl rfl rfl (List.take_subset _ _)
    · exact hback (hout.imp (hrefused t) fun ht => hlength t ht.1)

theorem stays_signature (withBody : Bool) :
    Stays source s (signature (typeWithin levels) withBody) (AllWhole source) := by
  have hstands := steady_standsIn source
  refine (stays_typeParametersIfAny h).go fun generics t hgenerics => .standing fun ht => ?_
  refine (stays_parameters h).bind fun arguments u hrun harguments => ?_
  obtain ⟨v, hv, hclose, rfl⟩ := exists_isAt_of_parameters hstands (grows_nesting _)
    (keeps_typeWithin hstands (grows_nesting _) levels) ht hrun
  refine (Stays.accept (by decide) (by decide)).go fun colon u hcolon => ?_
  refine .when (fun hfound => ?_) fun u => .when (fun _ => stays_body) fun u => .pure ?_
  · exact stays_returnType h (statesReturnType_of_isAt hv hclose (hcolon hfound)) withBody
  · exact List.forall_mem_append.mpr ⟨hgenerics, harguments⟩

theorem stays_indexSignature :
    Stays source s (indexSignature (typeWithin levels)) (AllWhole source) := by
  unfold indexSignature
  dsimp only
  refine (Stays.expect (by decide) (by decide)).go fun _ s _ => .look ?_
  refine (stays_identifier _).go fun name t hname => ?_
  refine (Stays.expect (by decide) (by decide)).go fun _ t _ => ?_
  refine (h t).go fun keyType t hkey => .look ?_
  refine (Stays.expect (by decide) (by decide)).go fun _ u _ => ?_
  refine stays_questionMark.go fun question u hquestion => ?_
  refine (Stays.expect (by decide) (by decide)).go fun _ u _ => ?_
  refine (h u).go fun value u hvalue => .pure ?_
  refine List.forall_mem_append.mpr ⟨List.forall_mem_cons.mpr ⟨.inner rfl ?_, hquestion⟩, ?_⟩
  · exact List.forall_mem_cons.mpr ⟨hname, List.forall_mem_singleton.mpr hkey⟩
  · exact List.forall_mem_singleton.mpr hvalue

/-- No member of an interface could be taken for a part of what stands before its body. -/
theorem stays_typeMember : Stays source s (typeMember (typeWithin levels))
    fun node => Whole source node ∧ ¬ node.kind.heads := by
  unfold typeMember
  dsimp only
  refine .look (Stays.takeDocs.go fun tags t _ => stays_readonlyMark.go fun words t hwords => ?_)
  refine .look (.ite (fun haccessor => ?_) fun _ => .ite (fun _ => ?_) fun _ =>
    .ite (fun _ => ?_) fun _ => ?_)
  · obtain ⟨token, rest, hrest, hkind⟩ := rest_of_atAccessor haccessor
    refine (Stays.advance_one hrest (by simp [hkind]) (by simp [hkind])).go fun _ u _ => ?_
    refine stays_memberName.go fun name u hname => (stays_signature h false).go ?_
    exact fun parts u hparts => .look (.pure
      ⟨.inner rfl (List.forall_mem_append.mpr ⟨hname, hparts⟩), Bool.false_ne_true⟩)
  · refine (stays_indexSignature h).go fun parts u hparts => .look (.pure ?_)
    exact ⟨.inner rfl (List.forall_mem_append.mpr ⟨hwords, hparts⟩), Bool.false_ne_true⟩
  · refine (Stays.acceptWord _).go fun _ u _ => (stays_signature h false).go ?_
    exact fun parts u hparts => .look (.pure ⟨.inner rfl hparts, Bool.false_ne_true⟩)
  refine stays_memberName.go fun name u hname => ?_
  refine stays_questionMark.go fun question u hquestion => ?_
  have hbefore : AllWhole source (words ++ name ++ question) := by
    simp only [AllWhole, List.forall_mem_append]
    exact ⟨⟨hwords, hname⟩, hquestion⟩
  refine .look (.ite (fun _ => ?_) fun _ => ?_)
  · refine (stays_signature h false).go fun parts u hparts => .look (.pure ?_)
    exact ⟨.inner rfl (List.forall_mem_append.mpr ⟨hbefore, hparts⟩), Bool.false_ne_true⟩
  · refine (stays_typeIfAny h).go fun typeNode u htypeNode => .look (.pure ?_)
    exact ⟨.inner rfl (List.forall_mem_append.mpr ⟨hbefore, htypeNode⟩), Bool.false_ne_true⟩

theorem stays_typeMembers : Stays source s (typeMembers (typeWithin levels))
    fun nodes => ∀ node ∈ nodes, Whole source node ∧ ¬ node.kind.heads := by
  refine .members (by decide) (by decide) (fun _ _ htail hinside => hinside.drop_malformed htail) ?_
  exact fun t => (stays_typeMember h).map fun node hnode => by simpa using hnode

theorem stays_classMember : Stays source s (classMember (typeWithin levels))
    fun node? => ∀ node ∈ node?, Whole source node := by
  have hmember : ∀ {kind text tags span children} {t : State}, NodeKind.hasBody kind = false →
      AllWhole source children → Stays source t
        (pure (some ⟨kind, text, tags, span, children⟩) : Parser (Option Node))
        fun node? => ∀ node ∈ node?, Whole source node := by
    intro kind text tags span children t hkind hchildren
    exact .pure fun node hnode => Option.some.inj hnode ▸ .inner hkind hchildren
  unfold classMember
  dsimp only
  refine Stays.takeDocs.go fun before t _ => stays_skipDecorators.go fun _ t _ => ?_
  refine Stays.takeDocs.go fun behind t _ => .look (.ite (fun hstatic => ?_) fun _ => ?_)
  · obtain ⟨hword, hopen⟩ := Bool.and_eq_true_iff.mp hstatic
    obtain ⟨token, rest, hrest, hkind⟩ := rest_of_atWord hword
    refine (Stays.advance_one hrest (by simp [hkind]) (by simp [hkind])).bind fun _ u hrun _ => ?_
    refine (stays_skipGroup ?_).go fun _ v _ => .pure nofun
    obtain ⟨opening, hopening, hkind⟩ := exists_of_nthIs hopen
    cases hrun
    rw [State.rest_advance, List.head?_drop, hopening]
    simp [hkind, TokenKind.opens]
  refine (stays_modifiers looksAhead_classModifier isModifier_of_classModifier).go
    fun words t hwords => .look (.ite (fun hconstructor => ?_) fun _ => .ite (fun haccessor => ?_)
      fun _ => (Stays.accept (by decide) (by decide)).go fun _ t _ => ?_)
  · obtain ⟨token, rest, hrest, hkind⟩ := rest_of_atWord (Bool.and_eq_true_iff.mp hconstructor).1
    refine (Stays.advance_one hrest (by simp [hkind]) (by simp [hkind])).go fun _ u _ => ?_
    refine (stays_parameters h).go fun parts u hparts => stays_body.go fun _ u _ => .look ?_
    exact hmember rfl (List.forall_mem_append.mpr ⟨hwords, hparts⟩)
  · obtain ⟨token, rest, hrest, hkind⟩ := rest_of_atAccessor haccessor
    refine (Stays.advance_one hrest (by simp [hkind]) (by simp [hkind])).go fun _ u _ => ?_
    refine stays_memberName.go fun name u hname => (stays_signature h true).go ?_
    refine fun parts u hparts => .look (hmember rfl ?_)
    exact List.forall_mem_append.mpr ⟨List.forall_mem_append.mpr ⟨hwords, hname⟩, hparts⟩
  refine .look (.ite (fun _ => ?_) fun _ => ?_)
  · refine (stays_indexSignature h).go fun parts u hparts => ?_
    refine (Stays.accept (by decide) (by decide)).go fun _ u _ => .look (hmember rfl ?_)
    exact List.forall_mem_append.mpr ⟨hwords, hparts⟩
  refine stays_memberName.go fun name u hname => ?_
  refine stays_questionMark.go fun question u hquestion => ?_
  have hbefore : AllWhole source (words ++ name ++ question) := by
    simp only [AllWhole, List.forall_mem_append]
    exact ⟨⟨hwords, hname⟩, hquestion⟩
  refine (Stays.accept (by decide) (by decide)).go fun _ u _ => ?_
  refine .look (.ite (fun _ => ?_) fun _ => ?_)
  · refine (stays_signature h true).go fun parts u hparts => .look (hmember rfl ?_)
    exact List.forall_mem_append.mpr ⟨hbefore, hparts⟩
  · refine (stays_typeIfAny h).go fun typeNode u htypeNode => ?_
    refine (Stays.accept (by decide) (by decide)).go fun _ u _ => ?_
    refine .when (fun _ => stays_skipInitializer _) fun u => ?_
    refine (Stays.accept (by decide) (by decide)).go fun _ u _ => .look (hmember rfl ?_)
    exact List.forall_mem_append.mpr ⟨hbefore, htypeNode⟩

theorem stays_classMembers :
    Stays source s (classMembers (typeWithin levels)) (AllWhole source) :=
  .members (by decide) (by decide) (fun _ _ htail hinside => hinside.drop_malformed htail)
    fun t => stays_classMember h

omit h in
theorem stays_operands {operator : TokenKind} {kind : NodeKind} {operand : Parser Node}
    [Forward operand] (hopen : operator ≠ .lBrace) (hclose : operator ≠ .rBrace)
    (hkind : kind.hasBody = false) (h : ∀ s, Stays source s operand (Whole source)) :
    Stays source s (operands operator kind operand) (Whole source) := by
  unfold operands
  dsimp only
  refine .look ((Stays.accept hopen hclose).go fun _ t _ => (Stays.separated hopen hclose h).go ?_)
  refine fun nodes t hnodes => .look (.pure ?_)
  unfold combine
  split
  · exact hnodes _ (by simp)
  · exact .inner hkind hnodes

theorem stays_typeArguments :
    Stays source s (typeArguments (typeWithin levels)) (AllWhole source) := by
  refine (Stays.expect (by decide) (by decide)).go fun _ t _ => ?_
  refine (Stays.separated (by decide) (by decide) h).go fun nodes t hnodes => ?_
  exact (Stays.expect (by decide) (by decide)).go fun _ t _ => .pure hnodes

theorem stays_functionType :
    Stays source s (functionType (typeWithin levels)) (Whole source) := by
  unfold functionType
  dsimp only
  refine .look ((stays_typeParametersIfAny h).go fun generics t hgenerics => ?_)
  refine (stays_parameters h).go fun arguments t harguments => ?_
  refine (Stays.expect (by decide) (by decide)).go fun _ t _ => ?_
  refine (h t).go fun returned t hreturned => .look (.pure (.inner rfl ?_))
  simp only [List.forall_mem_append, List.forall_mem_singleton]
  exact ⟨⟨hgenerics, harguments⟩, hreturned⟩

omit h in
/-- Before a type in a tuple only a word and marks are read. -/
theorem stays_labelLength (s : State) :
    Stays source s (advance s.labelLength) fun _ => True := by
  refine .advance fun _ htail hinside => hinside.drop htail _ ?_
  have hsucc : ∀ n token, s.rest[n]? = some token → token.kind = .word ∨ token.kind = .colon ∨
      token.kind = .question → (∀ token ∈ s.rest.take n, token.kind ≠ .lBrace ∧
        token.kind ≠ .rBrace) →
      ∀ token ∈ s.rest.take (n + 1), token.kind ≠ .lBrace ∧ token.kind ≠ .rBrace := by
    intro n token hn hkind htake
    rw [List.take_add_one, hn, List.forall_mem_append]
    refine ⟨htake, List.forall_mem_singleton.mpr ?_⟩
    rcases hkind with hkind | hkind | hkind <;> simp [hkind]
  have hword : s.nthIsWord 0 → ∀ token ∈ s.rest.take 1, token.kind ≠ .lBrace ∧
      token.kind ≠ .rBrace := fun hword => by
    obtain ⟨token, htoken, hkind⟩ := exists_of_nthIsWord hword
    exact hsucc 0 token htoken (.inl hkind) (by simp)
  unfold State.labelLength
  split
  · next hlabel =>
    obtain ⟨hfirst, hcolon⟩ := Bool.and_eq_true_iff.mp hlabel
    obtain ⟨token, htoken, hkind⟩ := exists_of_nthIs hcolon
    exact hsucc 1 token htoken (.inr (.inl hkind)) (hword hfirst)
  split
  · next hlabel =>
    obtain ⟨hboth, hcolon⟩ := Bool.and_eq_true_iff.mp hlabel
    obtain ⟨hfirst, hquestion⟩ := Bool.and_eq_true_iff.mp hboth
    obtain ⟨mark, hmark, hkind⟩ := exists_of_nthIs hquestion
    obtain ⟨token, htoken, hkind'⟩ := exists_of_nthIs hcolon
    exact hsucc 2 token htoken (.inr (.inl hkind')) (hsucc 1 mark hmark (.inr (.inr hkind))
      (hword hfirst))
  · simp

theorem stays_tupleElement :
    Stays source s (tupleElement (typeWithin levels)) (Whole source) := by
  unfold tupleElement
  dsimp only
  refine .look ((Stays.accept (by decide) (by decide)).go fun spread t _ => .look ?_)
  refine (stays_labelLength t).go fun _ t _ => (h t).go fun element t helement => ?_
  refine (Stays.accept (by decide) (by decide)).go fun _ t _ => ?_
  refine .ite (fun _ => .look (.pure (.inner rfl ?_))) fun _ => .pure helement
  exact List.forall_mem_singleton.mpr helement

theorem stays_tupleType : Stays source s (tupleType (typeWithin levels)) (Whole source) := by
  unfold tupleType
  dsimp only
  refine .look ((Stays.expect (by decide) (by decide)).go fun _ t _ => ?_)
  refine (Stays.commaList (by decide) (by decide) fun u => stays_tupleElement h).go ?_
  exact fun elements t helements => .look (.pure (.inner rfl helements))

theorem stays_parenthesizedType :
    Stays source s (parenthesizedType (typeWithin levels)) (Whole source) := by
  unfold parenthesizedType
  dsimp only
  refine .look ((Stays.expect (by decide) (by decide)).go fun _ t _ => ?_)
  refine (h t).go fun inside t hinside => (Stays.expect (by decide) (by decide)).go fun _ t _ => ?_
  exact .look (.pure (.inner rfl (List.forall_mem_singleton.mpr hinside)))

/-- A type literal begins with the brace that opens its body. -/
theorem stays_objectType : Stays source s (objectType (typeWithin levels)) (Whole source) := by
  have hsplit : objectType (typeWithin levels) = (look >>= fun s =>
      braced (nested (typeMembers (typeWithin levels))) >>= fun inside => do
        return Node.inner .typeLiteral s.start (← look).prevEnd inside) := by
    simp only [objectType, braced, bind_assoc, pure_bind]
  rw [hsplit]
  refine .look (.standing fun hs => .braced (fun t => .nested (stays_typeMembers h)) ?_ ?_)
  · exact .nested (members_reads (by decide) recovers_malformedLength
      ((consumes_typeMember _).map some).member)
  intro nodes u opening closing behind hsurrounds hrest hnodes
  refine .look (.pure (.of_children (fun _ => ?_) fun node hnode => (hnodes node hnode).1))
  exact endsAtBrace_inner hs hsurrounds hrest (by decide) nodes

theorem stays_named {kind : NodeKind} (hkind : kind.hasBody = false) (start : Nat) {name : Node}
    (hname : Whole source name) {c : Prop} [Decidable c] :
    Stays source s (do
      let arguments ← if c then typeArguments (typeWithin levels) else pure []
      return Node.inner kind start (← look).prevEnd (name :: arguments)) (Whole source) := by
  refine .either (P := AllWhole source) (fun _ => stays_typeArguments h)
    (fun _ => .pure (List.forall_mem_nil _)) fun arguments t harguments => ?_
  exact .look (.pure (.inner hkind (List.forall_mem_cons.mpr ⟨hname, harguments⟩)))

theorem stays_typeQuery {word : Token} {rest : List Token} (hrest : s.rest = word :: rest)
    (hkind : word.kind = .word) :
    Stays source s (typeQuery (typeWithin levels)) (Whole source) := by
  unfold typeQuery
  dsimp only
  refine .look ((Stays.advance_one hrest (by simp [hkind]) (by simp [hkind])).go fun _ t _ => ?_)
  refine .look (.ite (fun _ => ?_) fun _ => .fail nofun)
  exact stays_entityName.go fun name t hname => .look (stays_named h rfl _ hname)

theorem stays_typeReference :
    Stays source s (typeReference (typeWithin levels)) (Whole source) := by
  unfold typeReference
  dsimp only
  exact .look (stays_entityName.go fun name t hname => .look (stays_named h rfl _ hname))

theorem stays_wordType {word : Token} {rest : List Token} (hrest : s.rest = word :: rest)
    (hkind : word.kind = .word) :
    Stays source s (wordType (typeWithin levels) word) (Whole source) := by
  have hone : Stays source s (advance 1) fun _ => True :=
    .advance_one hrest (by simp [hkind]) (by simp [hkind])
  have hliteral : ∀ {kind : NodeKind}, kind.hasBody = false → Whole source
      (literalType (tokenLeaf kind word)) := fun hbody =>
    .inner rfl (List.forall_mem_singleton.mpr (.leaf hbody))
  refine .look (.ite (fun _ => stays_typeQuery h hrest hkind) fun _ => ?_)
  refine .ite (fun _ => hone.go fun _ t _ => .pure (hliteral rfl)) fun _ => ?_
  refine .ite (fun _ => hone.go fun _ t _ => .pure (hliteral rfl)) fun _ => ?_
  refine .ite (fun _ => hone.go fun _ t _ => stays_functionType h) fun _ => ?_
  refine .ite (fun _ => .fail nofun) fun _ => ?_
  cases hkeyword : NodeKind.keywordType? word.text with
  | none => exact stays_typeReference h
  | some kind =>
    refine .ite (fun _ => stays_typeReference h) fun _ => hone.go fun _ t _ => .pure (.leaf ?_)
    unfold NodeKind.keywordType? at hkeyword
    split at hkeyword <;> cases hkeyword <;> rfl

omit h in
theorem stays_negativeType {sign : Token} {rest : List Token} (hrest : s.rest = sign :: rest)
    (hkind : sign.kind = .minus) : Stays source s (negativeType sign) (Whole source) := by
  refine (Stays.advance_one hrest (by simp [hkind]) (by simp [hkind])).go fun _ t _ => ?_
  refine (Stays.token (by decide) (by decide) _).go fun number t _ => .pure (.inner rfl ?_)
  exact List.forall_mem_singleton.mpr (.leaf rfl)

theorem stays_primaryType : Stays source s (primaryType (typeWithin levels)) (Whole source) := by
  refine .look ?_
  cases hrest : s.rest with
  | nil => exact .fail nofun
  | cons token rest =>
    dsimp only
    have hone : token.kind ≠ .lBrace → token.kind ≠ .rBrace →
        Stays source s (advance 1) fun _ => True := Stays.advance_one hrest
    cases hkind : token.kind with
    | lParen => exact .ite (fun _ => stays_functionType h) fun _ => stays_parenthesizedType h
    | lt => exact stays_functionType h
    | lBrace => exact stays_objectType h
    | lBracket => exact stays_tupleType h
    | string | number =>
      refine (hone (by simp [hkind]) (by simp [hkind])).go fun _ t _ => .pure (.inner rfl ?_)
      exact List.forall_mem_singleton.mpr (.leaf rfl)
    | minus => exact .ite (fun _ => stays_negativeType hrest hkind) fun _ => .fail nofun
    | template => exact .fail nofun
    | word => exact stays_wordType h hrest hkind
    | _ => exact .fail nofun

theorem stays_suffix (start : Nat) {target : Node} (htarget : Whole source target) :
    Stays source s (suffix (typeWithin levels) start target) (Whole source) := by
  refine (Stays.expect (by decide) (by decide)).go fun _ t _ => ?_
  refine (Stays.accept (by decide) (by decide)).go fun _ t _ => .ite (fun _ => .look (.pure ?_))
    fun _ => (h t).go fun index t hindex => ?_
  · exact .inner rfl (List.forall_mem_singleton.mpr htarget)
  · refine (Stays.expect (by decide) (by decide)).go fun _ t _ => .look (.pure (.inner rfl ?_))
    exact List.forall_mem_cons.mpr ⟨htarget, List.forall_mem_singleton.mpr hindex⟩

theorem stays_suffixesUpTo (start count : Nat) {target : Node} (htarget : Whole source target) :
    Stays source s (suffixesUpTo (typeWithin levels) start count target) (Whole source) := by
  induction count generalizing s target with
  | zero => exact .pure htarget
  | succ count ih =>
    refine .look (.ite (fun _ => ?_) fun _ => .pure htarget)
    exact (stays_suffix h start htarget).go fun longer t hlonger => ih hlonger

omit h in
theorem kind_of_mem_take_readonlyLength (tokens : List Token) :
    ∀ token ∈ tokens.take (readonlyLength tokens), token.kind = .word := by
  induction tokens using readonlyLength.induct with
  | case1 first following rest hword ih =>
    have hkind : first.kind = .word := by
      simp only [Bool.and_eq_true, decide_eq_true_eq, Token.word?_eq_some_iff] at hword
      exact hword.1.1
    rw [readonlyLength, if_pos hword, Nat.add_comm, List.take_succ_cons]
    exact List.forall_mem_cons.mpr ⟨hkind, ih⟩
  | case2 first following rest hword =>
    rw [readonlyLength, if_neg hword]
    simp
  | case3 tokens hshort => simp [readonlyLength]

theorem stays_unionType : Stays source s (unionType (typeWithin levels)) (Whole source) := by
  have hpostfix : ∀ s, Stays source s (postfixType (typeWithin levels)) (Whole source) := by
    intro s
    refine .look (Stays.go (P := fun _ => True) (.advance fun _ htail hinside => ?_)
      fun _ t _ => ?_)
    · refine hinside.drop htail _ fun token htoken => ?_
      simp [kind_of_mem_take_readonlyLength s.rest token htoken]
    · refine .look ((stays_primaryType h).go fun target u htarget => ?_)
      exact stays_suffixesUpTo h _ _ htarget
  exact stays_operands (by decide) (by decide) rfl fun s =>
    stays_operands (by decide) (by decide) rfl hpostfix

end

theorem stays_typeWithin (levels : Nat) (s : State) :
    Stays source s (typeWithin levels) (Whole source) := by
  induction levels generalizing s with
  | zero => exact .refuse
  | succ levels ih => exact .nested (stays_unionType ih)

theorem stays_type (s : State) : Stays source s type (Whole source) :=
  stays_typeWithin maxDepth s

end

end DeclSchema.Parser
