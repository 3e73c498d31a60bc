import DeclSchema.Proofs.Parser.Carried

/-!
# Types in any context

The parsers of signatures, members and types are carried by every context. As in their
definitions, the parser of the types inside is a parameter, and `carried_type` ties the
knot.
-/

/- The longest parsers have more parts than instance search allows by default. -/
set_option synthInstance.maxSize 1024

namespace DeclSchema.Parser

section

variable {β : Type} [Shift β] {c : Context} {level : Nat} {s : State} {P P' : Prop}
  [Decidable P] [Decidable P']

/-- A step that is taken only under a condition, with what comes behind it. -/
theorem Agrees.when {p p' : Parser Unit} {f f' : Unit → Parser β} [∀ u, Forward (f u)]
    (hP : P' ↔ P) (hp : P → Agrees c level s p' p)
    (hf : ∀ t, Agrees c level t (f' ()) (f ())) :
    Agrees c level s (if P' then p' >>= f' else f' ()) (if P then p >>= f else f ()) :=
  .ite hP (fun h => (hp h).go fun _ t _ => hf t) fun _ => hf s

/-- One of two steps, with what comes behind it in both cases. -/
theorem Agrees.either {α : Type} [Shift α] {p p' q q' : Parser α} {f f' : α → Parser β}
    [∀ a, Forward (f a)] (hP : P' ↔ P) (hp : P → Agrees c level s p' p)
    (hq : ¬ P → Agrees c level s q' q)
    (hf : ∀ a t, Agrees c level t (f' (shift c.offset a)) (f a)) :
    Agrees c level s (if P' then p' >>= f' else q' >>= f')
      (if P then p >>= f else q >>= f) :=
  .ite hP (fun h => (hp h).bind fun a t _ => hf a t) fun h => (hq h).bind fun a t _ => hf a t

theorem Agrees.map {α : Type} [Shift α] {p p' : Parser α} (g : α → β)
    (hg : ∀ a, g (shift c.offset a) = shift c.offset (g a)) (hp : Agrees c level s p' p) :
    Agrees c level s (g <$> p') (g <$> p) :=
  hp.bind (f := fun a => Pure.pure (g a)) fun a _ _ => .pure (hg a)

end

/-- A step over modifiers looks only at a word and the token behind it, and not at their
places. -/
structure LooksAhead (step : Bool → Token → List Token → ModifierStep) : Prop where
  stop : ∀ kept token rest, token.word? = none → step kept token rest = .stop
  same : ∀ kept token rest rest' offset, Meets offset rest'.head? rest.head? →
    step kept (shift offset token) rest' = step kept token rest

theorem looksAhead_parameterModifier : LooksAhead parameterModifier where
  stop kept token rest h := by
    unfold parameterModifier
    rw [h]
  same kept token rest rest' offset h := by
    unfold parameterModifier
    rw [word?_shift, h.any (fun _ => rfl)]
    rintro stop hstops
    cases hkind : stop.kind <;> simp_all [TokenKind.stopsType]

theorem looksAhead_classModifier : LooksAhead classModifier where
  stop kept token rest h := by
    unfold classModifier
    rw [h]
  same kept token rest rest' offset h := by
    unfold classModifier
    rw [word?_shift, h.any (fun _ => rfl)]
    rintro stop hstops
    cases hkind : stop.kind <;> simp_all [TokenKind.stopsType]

theorem looksAhead_statementModifier : LooksAhead statementModifier where
  stop kept token rest h := by
    unfold statementModifier
    rw [h]
  same kept token rest rest' offset h := by
    unfold statementModifier
    rw [word?_shift, h.bind_word?]

section

variable {step : Bool → Token → List Token → ModifierStep} {level : Nat} {tokens : List Token}

theorem leadingModifiers_of_stop {token : Token} {rest : List Token} {kept : Bool}
    (h : step kept token rest = .stop) :
    leadingModifiers step kept (token :: rest) = ([], 0) := by
  rw [leadingModifiers, h]

/-- Modifiers are words, so that they end before what a statement ends with, and before a token
that a type ends before. -/
theorem leadingModifiers_append (hstep : LooksAhead step) (offset : Nat) {tail : List Token}
    (h : tail = [] ∨ Ended tokens ∨ StartsWithStop tail) (kept : Bool) :
    leadingModifiers step kept (shift offset tokens ++ tail) =
      (shift offset (leadingModifiers step kept tokens).1,
        (leadingModifiers step kept tokens).2) := by
  induction tokens generalizing kept with
  | nil =>
    rcases h with rfl | h | ⟨stop, hstop, hstops⟩
    · rfl
    · exact absurd rfl h.ne_nil
    · obtain ⟨rest, rfl⟩ := List.head?_eq_some_iff.mp hstop
      have hword : stop.word? = none := Token.word?_eq_none_iff.mpr (by
        intro hword
        rw [hword] at hstops
        cases hstops)
      exact leadingModifiers_of_stop (hstep.stop _ _ _ hword)
  | cons token rest ih =>
    rw [shift_cons, List.cons_append]
    by_cases hword : token.word? = none
    · rw [leadingModifiers_of_stop (hstep.stop _ _ _ hword), leadingModifiers_of_stop]
      · rfl
      · exact hstep.stop _ _ _ hword
    have hkind : token.kind = .word := by
      simpa [Token.word?_eq_none_iff] using hword
    have hrest : tail = [] ∨ Ended rest ∨ StartsWithStop tail :=
      h.imp id (.imp (·.of_cons (by simp [hkind]) (by simp [hkind])) id)
    have hhead : Meets offset (shift offset rest ++ tail).head? rest.head? := by
      cases rest with
      | cons first behind => exact .inl rfl
      | nil =>
        rcases hrest with rfl | hended | ⟨stop, hstop, hstops⟩
        · exact .inl rfl
        · exact absurd rfl hended.ne_nil
        · exact .inr ⟨rfl, stop, hstop, hstops⟩
    rw [leadingModifiers, leadingModifiers, hstep.same _ _ _ _ _ hhead]
    cases step kept token rest with
    | stop => rfl
    | pass =>
      dsimp only
      rw [ih hrest]
    | keep kind =>
      dsimp only
      rw [ih hrest]
      simp

theorem sealedAt_drop_leadingModifiers (hstep : LooksAhead step) (h : SealedAt level tokens)
    (kept : Bool) : SealedAt level (tokens.drop (leadingModifiers step kept tokens).2) := by
  induction tokens generalizing kept with
  | nil => exact absurd rfl h.ne_nil
  | cons token rest ih =>
    by_cases hword : token.word? = none
    · rw [leadingModifiers_of_stop (hstep.stop _ _ _ hword)]
      exact h
    have hkind : token.kind = .word := by
      simpa [Token.word?_eq_none_iff] using hword
    have hrest := h.of_cons (by simp [hkind]) (by simp [hkind])
    rw [leadingModifiers]
    cases step kept token rest with
    | stop => exact h
    | pass => exact ih hrest kept
    | keep kind => exact ih hrest true

end

variable {c : Context}

theorem carried_modifiers {step : Bool → Token → List Token → ModifierStep}
    (hstep : LooksAhead step) : Carried c (modifiers step) := by
  intro level s
  refine .look fun hs => ?_
  have hsame : leadingModifiers step false (c.embed s).rest =
      (shift c.offset (leadingModifiers step false s.rest).1,
        (leadingModifiers step false s.rest).2) :=
    leadingModifiers_append hstep c.offset hs.ends false
  rw [hsame]
  exact (Agrees.advance fun _ hseal => sealedAt_drop_leadingModifiers hstep hseal false).bind
    fun _ t _ => .pure rfl

/-- What is left of a state behind a return type: its errors are dropped. -/
def State.keepErrors (s t : State) : State :=
  { t with errors := t.errors.take s.errors.length }

/-- The state in which a return type is passed over instead. -/
def State.giveBack (s t : State) : State :=
  State.note { s.keepErrors t with rest := s.rest, prevEnd := s.prevEnd } (.gaveBack t.atEnd)

theorem returnType_apply {type : Parser Node} (withBody : Bool) {s t : State}
    {result : Except ParseError Node} (hrun : type s = (result, t)) :
    returnType type withBody s =
      if result.isOk && (s.keepErrors t).endsReturnType withBody then (.ok (), s.keepErrors t)
      else (.ok (), (s.giveBack t).advance
        (returnTypeLength withBody true 0 (s.giveBack t).rest)) := by
  unfold returnType
  rw [hrun]
  rfl

theorem embed_keepErrors (s t : State) :
    (c.embed s).keepErrors (c.embed t) = c.embed (s.keepErrors t) := by
  unfold State.keepErrors Context.embed
  dsimp only
  rw [List.length_append, length_shift, List.take_length_add_append, take_shift]

theorem embed_giveBack {level : Nat} (s : State) {t : State} (ht : Fits c level t) :
    (c.embed s).giveBack (c.embed t) = c.embed (s.giveBack t) := by
  unfold State.giveBack
  rw [embed_keepErrors, c.embed_note, ht.atEnd]
  rfl

/-- A return type that is given back was not read up to the end of a loose stretch. -/
theorem Context.Calm.of_giveBack {s t : State} (h : c.Calm (s.giveBack t)) : c.Calm t where
  accepts hsealed hmem := h.accepts hsealed (List.mem_append_left _ hmem)
  leaves hloose hrest := by
    refine h.keeps hloose (List.mem_append_right _ (List.mem_singleton.mpr ?_))
    rw [State.atEnd, hrest]
    rfl
  keeps hloose hmem := h.keeps hloose (List.mem_append_left _ hmem)

theorem Fits.giveBack {level : Nat} {s t : State} (hs : Fits c level s) (ht : Fits c level t) :
    Fits c level (s.giveBack t) where
  before := hs.before
  after := hs.after
  stretch := hs.stretch.imp (fun ⟨hfinal, _⟩ => ⟨hfinal, ht.nothing_behind hfinal⟩) id

theorem isOk_shift {α : Type} [Shift α] (offset : Nat) (result : Except ParseError α) :
    (shift offset result).isOk = result.isOk := by
  cases result <;> rfl

section

variable {type : Parser Node} [Forward type]

theorem carried_typeParameter (h : Carried c type) : Carried c (typeParameter type) := by
  intro level s
  unfold typeParameter
  dsimp only
  refine .look fun hs => (carried_acceptWord _ level s).go fun _ t _ => .look fun ht => ?_
  refine .when (by rw [ht.atVariance]) (fun hvariance => ?_) fun u => ?_
  · obtain ⟨token, rest, hrest, hkind⟩ : ∃ token rest, t.rest = token :: rest ∧
        token.kind = .word := by
      rcases Bool.or_eq_true_iff.mp (Bool.and_eq_true_iff.mp hvariance).1 with hword | hword
      · exact rest_of_atWord hword
      · exact rest_of_atWord hword
    exact .advance_one hrest (by simp [hkind]) (by simp [hkind])
  · refine (carried_identifier _ level u).bind fun name u _ => ?_
    refine Agrees.bind (.optional (carried_acceptWord _ level u) (h level)) fun bound v _ => ?_
    refine Agrees.bind (.optional (carried_accept (by decide) (by decide) level v) (h level))
      fun preset w _ => ?_
    exact .look fun hw => .pure (by simp [hs.start])

theorem carried_typeParameters (h : Carried c type) : Carried c (typeParameters type) := by
  intro level s
  refine (carried_expect (by decide) (by decide) level s).bind fun _ t _ => ?_
  exact .commaList (by decide) (by decide) (carried_typeParameter h level)

theorem carried_typeParametersIfAny (h : Carried c type) :
    Carried c (typeParametersIfAny type) := by
  intro level s
  refine .look fun hs => .ite (by rw [hs.isAt]) (fun _ => ?_) fun _ => .pure rfl
  exact carried_typeParameters h level s

theorem carried_binding : Carried c binding := by
  intro level s
  refine .look fun hs => ?_
  cases hrest : s.rest with
  | nil =>
    rw [hs.rest_eq_nil hrest]
    exact .fail _
  | cons token rest =>
    rw [Fits.rest_eq_cons hrest]
    dsimp only
    rw [kind_shift]
    cases hkind : token.kind with
    | word => exact (carried_identifier _ level s).bind fun name t _ => .pure rfl
    | lBrace | lBracket =>
      exact (agrees_skipGroup hrest (by simp [hkind, TokenKind.opens])).go fun _ t _ => .pure rfl
    | _ => exact .fail _

theorem carried_parameter (h : Carried c type) : Carried c (parameter type) := by
  intro level s
  unfold parameter
  dsimp only
  refine (carried_skipDecorators level s).go fun _ s _ => .look fun hs => ?_
  refine (carried_modifiers looksAhead_parameterModifier level s).bind fun words t _ => ?_
  refine (carried_accept (by decide) (by decide) level t).go fun _ t _ => ?_
  refine (carried_binding level t).bind fun name t _ => ?_
  refine (carried_questionMark level t).bind fun question t _ => ?_
  refine Agrees.bind (.optional (carried_accept (by decide) (by decide) level t) (h level))
    fun typeNode t _ => ?_
  refine (carried_accept (by decide) (by decide) level t).go fun _ t _ => ?_
  refine .when Iff.rfl (fun _ => carried_skipInitializer _ level t) fun t => ?_
  exact .look fun ht => .pure (by simp [hs.start])

theorem carried_parameters (h : Carried c type) : Carried c (parameters type) := by
  intro level s
  refine (carried_expect (by decide) (by decide) level s).bind fun _ t _ => ?_
  exact .commaList (by decide) (by decide) (carried_parameter h level)

omit [Forward type] in
/-- Whether the type is kept or given back, the errors recorded in it are dropped. -/
theorem carried_returnType (h : Carried c type) (withBody : Bool) :
    Carried c (returnType type withBody) := by
  intro level s hs hcalm
  rcases hrun : type s with ⟨result, t⟩
  have hkeep := returnType_apply withBody hrun
  by_cases hends : result.isOk && (s.keepErrors t).endsReturnType withBody
  · rw [if_pos hends] at hkeep
    rw [hkeep] at hcalm ⊢
    obtain ⟨hsame, ht⟩ := (h level s).of_run hs hrun ⟨hcalm.accepts, hcalm.leaves, hcalm.keeps⟩
    have hkept : Fits c level (s.keepErrors t) := ⟨ht.before, ht.after, ht.stretch⟩
    rw [returnType_apply withBody hsame, embed_keepErrors, isOk_shift, hkept.endsReturnType,
      if_pos hends]
    exact ⟨rfl, hkept⟩
  · rw [if_neg hends] at hkeep
    rw [hkeep] at hcalm ⊢
    obtain ⟨hsame, ht⟩ := (h level s).of_run hs hrun (hcalm.of_leadsTo (.advance _ _)).of_giveBack
    have hkept : Fits c level (s.keepErrors t) := ⟨ht.before, ht.after, ht.stretch⟩
    obtain ⟨hadvance, hfits⟩ :=
      (hs.giveBack ht).advance_measured (local_returnTypeLength withBody) hcalm
    rw [returnType_apply withBody hsame, embed_keepErrors, embed_giveBack s ht, isOk_shift,
      hkept.endsReturnType, if_neg hends, hadvance]
    exact ⟨rfl, hfits⟩

theorem carried_body : Carried c body := by
  intro level s
  refine .look fun hs => .ite (by rw [hs.isAt]) (fun hopen => ?_) fun _ => ?_
  · obtain ⟨token, rest, hrest, hkind⟩ := rest_of_isAt hopen
    exact agrees_skipGroup hrest (by simp [hkind, TokenKind.opens])
  · exact (carried_accept (by decide) (by decide) level s).go fun _ t _ => .pure rfl

theorem carried_signature (h : Carried c type) (withBody : Bool) :
    Carried c (signature type withBody) := by
  intro level s
  refine (carried_typeParametersIfAny h level s).bind fun generics t _ => ?_
  refine (carried_parameters h level t).bind fun arguments t _ => ?_
  refine (carried_accept (by decide) (by decide) level t).go fun _ t _ => ?_
  refine .when Iff.rfl (fun _ => carried_returnType h withBody level t) fun t => ?_
  exact .when Iff.rfl (fun _ => carried_body level t) fun t => .pure (by simp)

theorem carried_indexSignature (h : Carried c type) : Carried c (indexSignature type) := by
  intro level s
  unfold indexSignature
  dsimp only
  refine (carried_expect (by decide) (by decide) level s).bind fun _ s _ => .look fun hs => ?_
  refine (carried_identifier _ level s).bind fun name t _ => ?_
  refine (carried_expect (by decide) (by decide) level t).bind fun _ t _ => ?_
  refine (h level t).bind fun keyType t _ => .look fun ht => ?_
  refine (carried_expect (by decide) (by decide) level t).bind fun _ u _ => ?_
  refine (carried_questionMark level u).bind fun question u _ => ?_
  refine (carried_expect (by decide) (by decide) level u).bind fun _ u _ => ?_
  exact (h level u).bind fun value u _ => .pure (by simp [hs.start])

theorem carried_readonlyMark : Carried c readonlyMark := by
  intro level s
  refine .look fun hs => ?_
  cases hrest : s.rest with
  | nil =>
    rw [hs.rest_eq_nil hrest]
    exact .pure rfl
  | cons token rest =>
    rw [Fits.rest_eq_cons hrest]
    refine .ite (by rw [hs.atWord_and_nthStartsName]) (fun hword => ?_) fun _ => .pure rfl
    obtain ⟨first, behind, hfirst, hkind⟩ := rest_of_atWord (Bool.and_eq_true_iff.mp hword).1
    refine (Agrees.advance_one hfirst (by simp [hkind]) (by simp [hkind])).go fun _ t _ => ?_
    exact .pure (by simp)

theorem rest_of_atAccessor {s : State} (h : s.atAccessor) :
    ∃ token rest, s.rest = token :: rest ∧ token.kind = .word := by
  rcases Bool.or_eq_true_iff.mp (Bool.and_eq_true_iff.mp h).1 with hword | hword
  · exact rest_of_atWord hword
  · exact rest_of_atWord hword

theorem carried_typeMember (h : Carried c type) : Carried c (typeMember type) := by
  intro level s
  unfold typeMember
  dsimp only
  refine .look fun hs => Agrees.takeDocs.go fun tags t _ => ?_
  refine (carried_readonlyMark level t).bind fun words t _ => .look fun ht => ?_
  refine .ite (by rw [ht.atAccessor]) (fun haccessor => ?_) fun _ => ?_
  · obtain ⟨token, rest, hrest, hkind⟩ := rest_of_atAccessor haccessor
    refine (Agrees.advance_one hrest (by simp [hkind]) (by simp [hkind])).go fun _ u _ => ?_
    refine (carried_memberName level u).bind fun name u _ => ?_
    refine (carried_signature h false level u).bind fun parts u _ => ?_
    exact .look fun hu => .pure (by simp [hs.start])
  refine .ite (by rw [ht.atIndexSignature]) (fun _ => ?_) fun _ => ?_
  · refine (carried_indexSignature h level t).bind fun parts u _ => ?_
    exact .look fun hu => .pure (by simp [hs.start, Node.inner, shift_mk, ofBounds_add])
  refine .ite (by rw [ht.atSignature, ht.atWord_and_opens]) (fun _ => ?_) fun _ => ?_
  · refine (carried_acceptWord _ level t).go fun _ u _ => ?_
    refine (carried_signature h false level u).bind fun parts u _ => ?_
    exact .look fun hu => .pure (by simp [hs.start])
  refine (carried_memberName level t).bind fun name u _ => ?_
  refine (carried_questionMark level u).bind fun question u _ => .look fun hu => ?_
  refine .ite (by rw [hu.atSignature]) (fun _ => ?_) fun _ => ?_
  · refine (carried_signature h false level u).bind fun parts u _ => ?_
    exact .look fun hu => .pure (by simp [hs.start])
  · refine Agrees.bind (.optional (carried_accept (by decide) (by decide) level u) (h level))
      fun typeNode u _ => ?_
    exact .look fun hu => .pure (by simp [hs.start, Node.inner, shift_mk, ofBounds_add])

theorem carried_typeMembers (h : Carried c type) : Carried c (typeMembers type) := by
  intro level s
  refine .members (by decide) (by decide) local_malformedLength recovers_malformedLength ?_ ?_
  · intro t
    exact .map some (fun _ => rfl) (carried_typeMember h level t)
  · exact ((consumes_typeMember type).map some).member

/-- Members one level deeper: either that level is refused, or they are read up to a
closing brace or the end. -/
theorem nested_members_cases (separates : TokenKind → Bool) {recovery : List Token → Nat}
    {member : Parser (Option Node)} [Forward member] (hclose : ¬ separates .rBrace)
    (hrecovers : Recovers recovery) (hconsumes : ConsumesMember member) (s : State) :
    (∃ nodes t, nested (members separates recovery member) s = (.ok nodes, t) ∧ t.endsMembers) ∨
      ∃ error t, nested (members separates recovery member) s = (.error error, t) ∧
        .refused ∈ t.journal := by
  unfold nested
  split
  · exact .inr ⟨_, _, rfl, List.mem_append_right _ (List.mem_singleton.mpr rfl)⟩
  · obtain ⟨nodes, t, hrun, hends⟩ := membersUpTo_ends member hclose hrecovers
      hconsumes s.rest.length { s with depth := s.depth + 1 } (Nat.le_refl _)
    have hmembers : members separates recovery member { s with depth := s.depth + 1 } =
        (.ok nodes, t) := hrun
    rw [hmembers]
    exact .inl ⟨nodes, _, rfl, hends⟩

theorem carried_operands {operator : TokenKind} {kind : NodeKind} {operand : Parser Node}
    [Forward operand] (hopen : operator ≠ .lBrace) (hclose : operator ≠ .rBrace)
    (h : Carried c operand) : Carried c (operands operator kind operand) := by
  intro level s
  unfold operands
  dsimp only
  refine .look fun hs => (carried_accept hopen hclose level s).go fun _ t _ => ?_
  refine Agrees.bind (.separated hopen hclose (h level)) fun nodes t _ => ?_
  exact .look fun ht => .pure (by simp [hs.start])

theorem carried_typeArguments (h : Carried c type) : Carried c (typeArguments type) := by
  intro level s
  refine (carried_expect (by decide) (by decide) level s).bind fun _ t _ => ?_
  refine Agrees.bind (.separated (by decide) (by decide) (h level)) fun nodes t _ => ?_
  exact (carried_expect (by decide) (by decide) level t).bind fun _ t _ => .pure rfl

theorem carried_functionType (h : Carried c type) : Carried c (functionType type) := by
  intro level s
  unfold functionType
  dsimp only
  refine .look fun hs => (carried_typeParametersIfAny h level s).bind fun generics t _ => ?_
  refine (carried_parameters h level t).bind fun arguments t _ => ?_
  refine (carried_expect (by decide) (by decide) level t).bind fun _ t _ => ?_
  refine (h level t).bind fun returned t _ => .look fun ht => .pure ?_
  simp [hs.start]

theorem sealedAt_drop_succ {level n : Nat} {tokens : List Token} {token : Token}
    (h : SealedAt level (tokens.drop n)) (hn : tokens[n]? = some token)
    (hopen : token.kind ≠ .lBrace) (hclose : token.kind ≠ .rBrace) :
    SealedAt level (tokens.drop (n + 1)) := by
  obtain ⟨hlt, rfl⟩ := List.getElem?_eq_some_iff.mp hn
  rw [List.drop_eq_getElem_cons hlt] at h
  exact h.of_cons hopen hclose

theorem sealedAt_drop_labelLength {level : Nat} {s : State} (h : SealedAt level s.rest) :
    SealedAt level (s.rest.drop s.labelLength) := by
  have hword : s.nthIsWord 0 → SealedAt level (s.rest.drop 1) := fun hword => by
    obtain ⟨token, htoken, hkind⟩ := exists_of_nthIsWord hword
    exact sealedAt_drop_succ (n := 0) h htoken (by simp [hkind]) (by simp [hkind])
  have hmark : ∀ n kind, kind ≠ .lBrace → kind ≠ .rBrace → s.nthIs n kind →
      SealedAt level (s.rest.drop n) → SealedAt level (s.rest.drop (n + 1)) := by
    intro n kind hopen hclose hnth hdrop
    obtain ⟨token, htoken, hkind⟩ := exists_of_nthIs hnth
    exact sealedAt_drop_succ hdrop htoken (hkind ▸ hopen) (hkind ▸ hclose)
  unfold State.labelLength
  split
  · next hlabel =>
    rw [Bool.and_eq_true_iff] at hlabel
    exact hmark 1 .colon (by decide) (by decide) hlabel.2 (hword hlabel.1)
  · split
    · next hlabel =>
      rw [Bool.and_eq_true_iff, Bool.and_eq_true_iff] at hlabel
      have htwo := hmark 1 .question (by decide) (by decide) hlabel.1.2 (hword hlabel.1.1)
      exact hmark 2 .colon (by decide) (by decide) hlabel.2 htwo
    · exact h

theorem carried_tupleElement (h : Carried c type) : Carried c (tupleElement type) := by
  intro level s
  unfold tupleElement
  dsimp only
  refine .look fun hs => (carried_accept (by decide) (by decide) level s).go fun spread t _ => ?_
  refine .look fun ht => ?_
  rw [ht.labelLength]
  refine (Agrees.advance fun _ hseal => sealedAt_drop_labelLength hseal).go fun _ t _ => ?_
  refine (h level t).bind fun element t _ => ?_
  refine (carried_accept (by decide) (by decide) level t).go fun _ t _ => ?_
  refine .ite Iff.rfl (fun _ => .look fun ht => .pure ?_) fun _ => .pure rfl
  simp [hs.start]

theorem carried_tupleType (h : Carried c type) : Carried c (tupleType type) := by
  intro level s
  unfold tupleType
  dsimp only
  refine .look fun hs => (carried_expect (by decide) (by decide) level s).bind fun _ t _ => ?_
  refine Agrees.bind (.commaList (by decide) (by decide) (carried_tupleElement h level))
    fun elements t _ => .look fun ht => .pure ?_
  simp [hs.start]

theorem carried_parenthesizedType (h : Carried c type) : Carried c (parenthesizedType type) := by
  intro level s
  unfold parenthesizedType
  dsimp only
  refine .look fun hs => (carried_expect (by decide) (by decide) level s).bind fun _ t _ => ?_
  refine (h level t).bind fun inside t _ => ?_
  refine (carried_expect (by decide) (by decide) level t).bind fun _ t _ => .look fun ht => ?_
  exact .pure (by simp [hs.start])

theorem carried_objectType (h : Carried c type) : Carried c (objectType type) := by
  intro level s
  unfold objectType
  dsimp only
  refine .look fun hs => ?_
  have hcases := nested_members_cases separatesTypeMembers (by decide)
    recovers_malformedLength ((consumes_typeMember type).map some).member
  refine .braces (fun t => .nested (carried_typeMembers h _ _)) ?_ ?_ fun inside t =>
    .look fun ht => .pure (by simp [hs.start])
  · intro t u nodes hrun
    rcases hcases t with ⟨nodes', u', hrun', hends⟩ | ⟨error, u', hrun', -⟩
    · cases hrun.symm.trans hrun'
      exact hends
    · cases hrun.symm.trans hrun'
  · intro t u error hrun
    rcases hcases t with ⟨nodes, u', hrun', -⟩ | ⟨error', u', hrun', hrefused⟩
    · cases hrun.symm.trans hrun'
    · cases hrun.symm.trans hrun'
      exact hrefused

theorem agrees_typeQuery (h : Carried c type) {level : Nat} {s : State} {token : Token}
    {rest : List Token} (hrest : s.rest = token :: rest) (hkind : token.kind = .word) :
    Agrees c level s (typeQuery type) (typeQuery type) := by
  unfold typeQuery
  dsimp only
  refine .look fun hs => ?_
  refine (Agrees.advance_one hrest (by simp [hkind]) (by simp [hkind])).go fun _ t _ => ?_
  refine .look fun ht => .ite (by rw [ht.nthIsWord_zero]) (fun _ => ?_) fun _ => .fail _
  refine (carried_entityName level t).bind fun name t _ => .look fun ht => ?_
  refine .either (by rw [ht.isAt]) (fun _ => carried_typeArguments h level t)
    (fun _ => .pure rfl) fun arguments t => .look fun ht => .pure ?_
  simp [hs.start]

theorem carried_typeReference (h : Carried c type) : Carried c (typeReference type) := by
  intro level s
  unfold typeReference
  dsimp only
  refine .look fun hs => (carried_entityName level s).bind fun name t _ => .look fun ht => ?_
  refine .either (by rw [ht.isAt, ht.atNewline]) (fun _ => carried_typeArguments h level t)
    (fun _ => .pure rfl) fun arguments t => .look fun ht => .pure ?_
  simp [hs.start]

theorem agrees_wordType (h : Carried c type) {level : Nat} {s : State} {token : Token}
    {rest : List Token} (hrest : s.rest = token :: rest) (hkind : token.kind = .word) :
    Agrees c level s (wordType type (shift c.offset token)) (wordType type token) := by
  have hone : Agrees c level s (advance 1) (advance 1) :=
    .advance_one hrest (by simp [hkind]) (by simp [hkind])
  have hzero : s.rest[0]? = some token := by rw [hrest]; rfl
  refine .look fun hs => ?_
  have hnth : ∀ kind : TokenKind, kind.stopsType = false →
      (c.embed s).nthIs 1 kind = s.nthIs 1 kind := hs.nthIs_succ hzero (by simp [hkind])
  have hword : (c.embed s).nthIsWord 1 = s.nthIsWord 1 := hs.nthIsWord_succ hzero (by simp [hkind])
  refine .ite Iff.rfl (fun _ => agrees_typeQuery h hrest hkind) fun _ => ?_
  refine .ite Iff.rfl (fun _ => hone.go fun _ t _ => .pure (by simp)) fun _ => ?_
  refine .ite Iff.rfl (fun _ => hone.go fun _ t _ => .pure (by simp)) fun _ => ?_
  refine .ite (by rw [hnth .lParen rfl, hnth .lt rfl]; rfl)
    (fun _ => hone.go fun _ t _ => carried_functionType h level t) fun _ => ?_
  refine .ite (by rw [hword]; rfl) (fun _ => .fail _) fun _ => ?_
  rw [text_shift]
  cases NodeKind.keywordType? token.text with
  | none => exact carried_typeReference h level s
  | some kind =>
    refine .ite (by rw [hnth .dot rfl]) (fun _ => carried_typeReference h level s) fun _ => ?_
    exact hone.go fun _ t _ => .pure (by simp)

theorem agrees_negativeType {level : Nat} {s : State} {sign : Token} {rest : List Token}
    (hrest : s.rest = sign :: rest) (hkind : sign.kind = .minus) :
    Agrees c level s (negativeType (shift c.offset sign)) (negativeType sign) := by
  refine (Agrees.advance_one hrest (by simp [hkind]) (by simp [hkind])).go fun _ t _ => ?_
  refine (carried_token _ (by decide) (by decide) level t).bind fun number t _ => .pure ?_
  rw [shift_literalType, shift_leaf]
  rfl

theorem Fits.startsFunctionType {level : Nat} {s : State} (hs : Fits c level s) {token : Token}
    {rest : List Token} (hrest : s.rest = token :: rest) (hkind : token.kind = .lParen) :
    Parser.startsFunctionType (c.embed s).rest = Parser.startsFunctionType s.rest := by
  rw [← startsFunctionType_shift c.offset s.rest, Context.embed_rest]
  rcases hs.stretch with ⟨-, htail, -⟩ | ⟨-, hseal⟩ | ⟨-, hparted⟩
  · rw [htail, List.append_nil]
  · rw [← sealedAt_shift c.offset, hrest] at hseal
    rw [hrest]
    exact startsFunctionType_append hseal hkind c.tail
  · have hshifted := parted_shift c.offset hparted
    rw [hrest] at hshifted ⊢
    exact startsFunctionType_append_of_parted hshifted hkind

theorem carried_primaryType (h : Carried c type) : Carried c (primaryType type) := by
  intro level s
  refine .look fun hs => ?_
  cases hrest : s.rest with
  | nil =>
    rw [hs.rest_eq_nil hrest]
    exact .fail _
  | cons token rest =>
    have hzero : s.rest[0]? = some token := by rw [hrest]; rfl
    have hstarts := hs.startsFunctionType hrest
    rw [hrest] at hstarts
    rw [Fits.rest_eq_cons hrest] at hstarts ⊢
    dsimp only
    rw [kind_shift]
    cases hkind : token.kind with
    | lParen =>
      refine .ite (by rw [hstarts hkind]) (fun _ => ?_) fun _ => ?_
      · exact carried_functionType h level s
      · exact carried_parenthesizedType h level s
    | lt => exact carried_functionType h level s
    | lBrace => exact carried_objectType h level s
    | lBracket => exact carried_tupleType h level s
    | string | number =>
      refine (Agrees.advance_one hrest (by simp [hkind]) (by simp [hkind])).go fun _ t _ => ?_
      exact .pure (by simp)
    | minus =>
      refine .ite (by rw [hs.nthIs_succ hzero (by simp [hkind]) .number rfl]) (fun _ => ?_)
        fun _ => .fail _
      exact agrees_negativeType hrest hkind
    | word => exact agrees_wordType h hrest hkind
    | _ => exact .fail _

theorem agrees_suffix (h : Carried c type) {level : Nat} {s : State} (start : Nat)
    (target : Node) :
    Agrees c level s (suffix type (start + c.offset) (shift c.offset target))
      (suffix type start target) := by
  refine (carried_expect (by decide) (by decide) level s).bind fun _ t _ => ?_
  refine (carried_accept (by decide) (by decide) level t).go fun empty t _ => ?_
  refine .ite Iff.rfl (fun _ => .look fun ht => .pure (by simp)) fun _ => ?_
  refine (h level t).bind fun index t _ => ?_
  refine (carried_expect (by decide) (by decide) level t).bind fun _ t _ => ?_
  exact .look fun ht => .pure (by simp)

theorem consumes_suffix (start : Nat) (target : Node) : Consumes (suffix type start target) := by
  unfold suffix
  exact .bind (consumes_expect _)

theorem not_atSuffix_of_rest_eq_nil {s : State} (h : s.rest = []) : ¬ s.atSuffix := by
  simp [State.atSuffix, not_isAt_of_rest_eq_nil h]

omit [Forward type] in
theorem suffixesUpTo_of_not {s : State} {start count : Nat} (target : Node)
    (h : ¬ s.atSuffix) : suffixesUpTo type start count target s = (.ok target, s) := by
  cases count with
  | zero => rfl
  | succ count =>
    show (if s.atSuffix then _ else _ : Parser Node) s = _
    rw [if_neg h]
    rfl

/-- The bound on the number of suffixes is not reached. -/
theorem agrees_suffixesUpTo (h : Carried c type) {level : Nat} (start : Nat) (m n : Nat)
    (target : Node) (s : State) (hm : s.rest.length ≤ m) (hn : s.rest.length ≤ n) :
    Agrees c level s (suffixesUpTo type (start + c.offset) m (shift c.offset target))
      (suffixesUpTo type start n target) := by
  induction n generalizing s m target with
  | zero =>
    have hrest : s.rest = [] := List.eq_nil_of_length_eq_zero (Nat.le_zero.mp hn)
    intro hs _
    rw [suffixesUpTo_of_not _ (not_atSuffix_of_rest_eq_nil hrest),
      suffixesUpTo_of_not _ (hs.atSuffix ▸ not_atSuffix_of_rest_eq_nil hrest)]
    exact ⟨rfl, hs⟩
  | succ n ih =>
    by_cases hsuffix : s.atSuffix
    · have hpos := List.length_pos_iff.mpr fun hrest =>
        not_atSuffix_of_rest_eq_nil hrest hsuffix
      obtain ⟨m, rfl⟩ := Nat.exists_eq_add_one_of_ne_zero
        (Nat.ne_of_gt (Nat.lt_of_lt_of_le hpos hm))
      refine .look fun hs => .ite (by rw [hs.atSuffix]) (fun _ => ?_) fun h => absurd hsuffix h
      refine (agrees_suffix h start target).bind fun outer t hrun => ?_
      have hlt := consumes_suffix start target _ _ _ hrun
      exact ih m outer t (by omega) (by omega)
    · intro hs _
      rw [suffixesUpTo_of_not _ hsuffix, suffixesUpTo_of_not _ (hs.atSuffix ▸ hsuffix)]
      exact ⟨rfl, hs⟩

theorem carried_postfixType (h : Carried c type) : Carried c (postfixType type) := by
  intro level s
  have hsplit : postfixType type = (do advance (readonlyLength (← look).rest)) >>= fun _ => (do
      let s ← look
      let target ← primaryType type
      suffixesUpTo type s.start s.rest.length target) := by
    rw [bind_assoc]
    rfl
  rw [hsplit]
  refine (Agrees.measured local_readonlyLength fun _ _ => trivial).go fun _ t _ => ?_
  refine .look fun ht => (carried_primaryType h level t).bind fun target u hrun => ?_
  have hle := (Forward.of_run hrun).rest.length_le
  rw [ht.start]
  exact agrees_suffixesUpTo h t.start _ _ target u (Nat.le_trans hle (length_le_embed t)) hle

theorem carried_unionType (h : Carried c type) : Carried c (unionType type) :=
  carried_operands (by decide) (by decide)
    (carried_operands (by decide) (by decide) (carried_postfixType h))

end

theorem carried_typeWithin (levels : Nat) : Carried c (typeWithin levels) := by
  induction levels with
  | zero => exact fun level s => .refuse
  | succ levels ih => exact fun level s => .nested (carried_unionType ih level _)

theorem carried_type : Carried c type :=
  carried_typeWithin maxDepth

end DeclSchema.Parser
