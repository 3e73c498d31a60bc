import DeclSchema.Proofs.Parser.Covering

/-!
# Types over tokens

The parsers of names, signatures, members and types give nodes that cover what they read. Each
proof follows the text of its parser: what is laid so far grows with each step, and a node is
closed around it where the parser builds one.
-/

namespace DeclSchema.Parser

section

variable {s : State}

/-- Of a name it matters as well where it begins. -/
theorem leaves_identifier (what : Wanted) :
    Leaves (identifier what) s fun node t => Laid true s t [node] ∧ node.span.start = s.start := by
  refine (leaves_token .word what).bind fun word t ⟨rest, hrest, ht⟩ => .pure ⟨?_, ?_⟩
  · exact ht ▸ .token hrest rfl rfl
  · rw [State.start, hrest]
    rfl

theorem lays_identifier (what : Wanted) : LaysNode (identifier what) s :=
  (leaves_identifier what).mono fun _ _ => And.left

theorem lays_entityName : LaysNode entityName s := by
  refine (leaves_identifier _).bind fun first t ⟨ht, hstart⟩ => ?_
  refine (Lays.repeatWhile fun u => ?_).next ht fun segments u hu => ?_
  · exact (skips_advance 1).go fun _ v hv => (lays_identifier _).last hv
  · refine .ite (fun hnil => .pure ?_) fun _ => .look (.pure (hu.inner ?_ rfl))
    · obtain rfl := List.isEmpty_iff.mp hnil
      exact hu
    · show Span.ofBounds first.span.start _ = _
      rw [hstart]

theorem lays_memberName : LaysNodes true memberName s := by
  refine .look ?_
  cases hrest : s.rest with
  | nil => exact .fail
  | cons token rest =>
    dsimp only
    cases token.kind with
    | word | string | number => exact .advance (.pure (.token hrest rfl rfl))
    | hash =>
      dsimp only
      cases hname : rest.head? with
      | none => exact .fail
      | some name =>
        refine .ite (fun _ => .advance (.pure ?_)) fun _ => .fail
        obtain ⟨behind, rfl⟩ := List.head?_eq_some_iff.mp hname
        have hread := State.Reads.advance s 2
        rw [hrest] at hread
        exact .leaf hread rfl rfl rfl rfl
    | lBracket => exact (skips_group hrest).go fun _ _ ht => .pure ht
    | _ => exact .fail

theorem lays_questionMark : LaysNodes false questionMark s := by
  refine .look ?_
  cases hrest : s.rest with
  | nil => exact .pure (.refl s)
  | cons token rest =>
    refine .ite (fun _ => .advance (.pure ?_)) fun _ => .pure (.refl s)
    exact (Laid.token hrest rfl rfl).lax

theorem lays_readonlyMark : LaysNodes false readonlyMark s := by
  refine .look ?_
  cases hrest : s.rest with
  | nil => exact .pure (.refl s)
  | cons token rest =>
    refine .ite (fun _ => .advance (.pure ?_)) fun _ => .pure (.refl s)
    exact (Laid.token hrest rfl rfl).lax

theorem coveredBy_leadingModifiers (step : Bool → Token → List Token → ModifierStep) (kept : Bool)
    (tokens : List Token) :
    CoveredBy (tokens.take (leadingModifiers step kept tokens).2)
      (leadingModifiers step kept tokens).1 := by
  induction tokens generalizing kept with
  | nil => exact .nil _
  | cons token rest ih =>
    rw [leadingModifiers]
    cases step kept token rest with
    | stop => exact .nil _
    | pass => exact (ih kept).gap [token]
    | keep kind =>
      show CoveredBy ([] ++ ([token] ++ rest.take _)) _
      exact .cons rfl rfl rfl (.nil [token]) (ih true)

theorem lays_modifiers (step : Bool → Token → List Token → ModifierStep) :
    LaysNodes false (modifiers step) s :=
  .look (.advance (.pure fun _ =>
    ⟨_, .advance s _, nofun, coveredBy_leadingModifiers step false s.rest⟩))

theorem lays_binding : LaysNodes true binding s := by
  refine .look ?_
  cases hrest : s.rest with
  | nil => exact .fail
  | cons token rest =>
    dsimp only
    cases token.kind with
    | word => exact (lays_identifier _).go fun _ _ ht => .pure ht
    | lBrace | lBracket => exact (skips_group hrest).go fun _ _ ht => .pure ht
    | _ => exact .fail

section

variable {levels : Nat} (h : ∀ s, LaysNode (typeWithin levels) s)

theorem reaches_typeWithin (levels : Nat) (s : State) :
    Keeps s.Reaches (typeWithin levels) fun _ => True :=
  keeps_typeWithin (steady_reaches s) (grows_trivial _) levels

include h

theorem lays_typeParameter : LaysNode (typeParameter (typeWithin levels)) s := by
  refine .look ((skips_acceptWord _).go fun _ t ht => .look ?_)
  refine .when (fun _ => skips_advance 1) ht fun t ht => ?_
  refine (lays_identifier _).next ht fun name t ht => ?_
  refine (Lays.optional (skips_acceptWord _) h).next ht fun bound t ht => ?_
  refine (Lays.optional (skips_accept _) h).next ht fun preset t ht => ?_
  exact .look (.pure (ht.inner rfl rfl))

theorem lays_typeParameters : LaysNodes true (typeParameters (typeWithin levels)) s :=
  (skips_expect _).go fun _ _ ht => (Lays.commaList fun _ => lays_typeParameter h).last ht

theorem lays_typeParametersIfAny : LaysNodes false (typeParametersIfAny (typeWithin levels)) s :=
  .look (.ite (fun _ => (lays_typeParameters h).lax) fun _ => .pure (.refl s))

theorem lays_parameter : LaysNode (parameter (typeWithin levels)) s := by
  refine skips_skipDecorators.go fun _ first hfirst => .look ?_
  refine (lays_modifiers _).go fun words t ht => (skips_accept _).next ht fun _ t ht => ?_
  refine lays_binding.next ht fun name t ht => lays_questionMark.next ht fun question t ht => ?_
  refine (Lays.optional (skips_accept _) h).next ht fun typeNode t ht => ?_
  refine (skips_accept _).next ht fun _ t ht => ?_
  refine .when (fun _ => skips_skipInitializer _) ht fun t ht => .look (.pure ?_)
  exact hfirst.trans (ht.inner rfl rfl)

theorem lays_parameters : LaysNodes true (parameters (typeWithin levels)) s :=
  (skips_expect _).go fun _ _ ht => (Lays.commaList fun _ => lays_parameter h).last ht

omit h in
theorem skips_returnType (withBody : Bool) :
    Skips false (returnType (typeWithin levels) withBody) s := by
  intro _ t hrun
  have hreached := (State.Reaches.refl s).returnType withBody (reaches_typeWithin levels s)
  rw [hrun] at hreached
  exact .of_reaches hreached

theorem lays_signature (withBody : Bool) :
    LaysNodes true (signature (typeWithin levels) withBody) s := by
  refine (lays_typeParametersIfAny h).go fun generics t ht => ?_
  refine (lays_parameters h).next ht fun arguments t ht => ?_
  refine (skips_accept _).next ht fun _ t ht => ?_
  refine .when (fun _ => skips_returnType withBody) ht fun t ht => ?_
  exact .when (fun _ => skips_body) ht fun t ht => .pure ht

theorem lays_indexSignature : LaysNodes true (indexSignature (typeWithin levels)) s := by
  refine (skips_expect _).go fun _ first hfirst => .look ?_
  refine (lays_identifier _).go fun name t ht => (skips_expect _).next ht fun _ t ht => ?_
  refine (h t).next ht fun keyType t ht => .look ?_
  have hkey : Laid true first t [Node.inner .parameter first.start t.prevEnd [name, keyType]] :=
    ht.inner rfl rfl
  refine (skips_expect _).next (hfirst.trans hkey) fun _ t ht => ?_
  refine lays_questionMark.next ht fun question t ht => (skips_expect _).next ht fun _ t ht => ?_
  exact (h t).next ht fun value t ht => .pure ht

/-- The words before an accessor and before a signature without a name are not kept. -/
theorem lays_typeMember : LaysNode (typeMember (typeWithin levels)) s := by
  refine .look (skips_takeDocs.go fun tags t ht => lays_readonlyMark.next ht fun words t ht => ?_)
  refine .look (.ite (fun _ => ?_) fun _ => .ite (fun _ => ?_) fun _ => .ite (fun _ => ?_)
    fun _ => ?_)
  · refine (skips_advance 1).next ht.forget fun _ t ht => ?_
    refine lays_memberName.next ht fun name t ht => ?_
    refine (lays_signature h false).next ht fun parts t ht => ?_
    exact .look (.pure (ht.inner rfl rfl))
  · refine (lays_indexSignature h).next ht fun parts t ht => ?_
    exact .look (.pure (ht.inner rfl rfl))
  · refine (skips_acceptWord _).next ht.forget fun _ t ht => ?_
    refine (lays_signature h false).next ht fun parts t ht => ?_
    exact .look (.pure (ht.inner rfl rfl))
  · refine lays_memberName.next ht fun name t ht => ?_
    refine lays_questionMark.next ht fun question t ht => .look (.ite (fun _ => ?_) fun _ => ?_)
    · refine (lays_signature h false).next ht fun parts t ht => ?_
      exact .look (.pure (ht.inner rfl rfl))
    · refine (Lays.optional (skips_accept _) h).next ht fun typeNode t ht => ?_
      exact .look (.pure (ht.inner rfl rfl))

theorem lays_typeMembers : LaysNodes false (typeMembers (typeWithin levels)) s := by
  refine Lays.members (fun t => ?_) fun t => ?_
  · exact (lays_typeMember h).go fun node u hu => .pure hu.lax
  · have hkeeps : Keeps t.Reaches (typeMember (typeWithin levels)) fun _ => True :=
      keeps_typeMember (steady_reaches t) (grows_trivial _) (n := 0) (reaches_typeWithin levels t)
    exact .bind hkeeps fun _ _ => .pure trivial

/-- A class member begins behind its decorators, as a parameter does. -/
theorem lays_classMember : Lays false Option.toList (classMember (typeWithin levels)) s := by
  refine skips_takeDocs.go fun before t ht => skips_skipDecorators.next ht fun _ t ht => ?_
  refine skips_takeDocs.next ht fun behind first hfirst => .look (.ite (fun _ => ?_) fun _ => ?_)
  · refine (skips_advance 1).next hfirst fun _ t ht => ?_
    exact skips_skipGroup.next ht fun _ _ hu => .pure hu
  refine (lays_modifiers _).go fun words t ht => .look (.ite (fun _ => ?_) fun _ =>
    .ite (fun _ => ?_) fun _ => ?_)
  · refine (skips_advance 1).next ht fun _ t ht => (lays_parameters h).next ht fun parts t ht => ?_
    refine skips_body.next ht fun _ t ht => .look (.pure ?_)
    exact (hfirst.trans (ht.inner rfl rfl)).lax
  · refine (skips_advance 1).next ht fun _ t ht => lays_memberName.next ht fun name t ht => ?_
    refine (lays_signature h true).next ht fun parts t ht => .look (.pure ?_)
    exact (hfirst.trans (ht.inner rfl rfl)).lax
  refine (skips_accept _).next ht fun _ t ht => .look (.ite (fun _ => ?_) fun _ => ?_)
  · refine (lays_indexSignature h).next ht fun parts t ht => ?_
    refine (skips_accept _).next ht fun _ t ht => .look (.pure ?_)
    exact (hfirst.trans (ht.inner rfl rfl)).lax
  refine lays_memberName.next ht fun name t ht => lays_questionMark.next ht fun question t ht => ?_
  refine (skips_accept _).next ht fun _ t ht => .look (.ite (fun _ => ?_) fun _ => ?_)
  · refine (lays_signature h true).next ht fun parts t ht => .look (.pure ?_)
    exact (hfirst.trans (ht.inner rfl rfl)).lax
  · refine (Lays.optional (skips_accept _) h).next ht fun typeNode t ht => ?_
    refine (skips_accept _).next ht fun _ t ht => .when (fun _ => skips_skipInitializer _) ht ?_
    refine fun t ht => (skips_accept _).next ht fun _ t ht => .look (.pure ?_)
    exact (hfirst.trans (ht.inner rfl rfl)).lax

theorem lays_classMembers : LaysNodes false (classMembers (typeWithin levels)) s := by
  refine Lays.members (fun t => lays_classMember h) fun t => ?_
  have hkeeps : Keeps t.Reaches (classMember (typeWithin levels)) fun node? =>
      ∀ node ∈ node?, True :=
    keeps_classMember (steady_reaches t) (grows_trivial _) (n := 0) (reaches_typeWithin levels t)
  exact hkeeps.mono fun _ _ => trivial

omit h in
theorem lays_operands {operator : TokenKind} {kind : NodeKind} {operand : Parser Node}
    (h : ∀ s, LaysNode operand s) : LaysNode (operands operator kind operand) s := by
  refine .look ((skips_accept _).go fun _ t ht => (Lays.separated h).next ht fun nodes t ht => ?_)
  refine .look (.pure ?_)
  unfold combine
  split
  · exact ht
  · exact ht.inner rfl rfl

theorem lays_typeArguments : LaysNodes true (typeArguments (typeWithin levels)) s := by
  refine (skips_expect _).go fun _ t ht => (Lays.separated h).next ht fun nodes t ht => ?_
  exact (skips_expect _).next ht fun _ t ht => .pure ht

theorem lays_functionType : LaysNode (functionType (typeWithin levels)) s := by
  refine .look ((lays_typeParametersIfAny h).go fun generics t ht => ?_)
  refine (lays_parameters h).next ht fun arguments t ht => ?_
  refine (skips_expect _).next ht fun _ t ht => (h t).next ht fun returned t ht => ?_
  exact .look (.pure (ht.inner rfl rfl))

theorem lays_tupleElement : LaysNode (tupleElement (typeWithin levels)) s := by
  refine .look ((skips_accept _).go fun spread t ht => .look ?_)
  refine (skips_advance _).next ht fun _ t ht => (h t).next ht fun element t ht => ?_
  refine (skips_accept _).next ht fun _ t ht => .ite (fun _ => ?_) fun _ => .pure ht
  exact .look (.pure (ht.inner rfl rfl))

theorem lays_tupleType : LaysNode (tupleType (typeWithin levels)) s := by
  refine .look ((skips_expect _).go fun _ t ht => ?_)
  refine (Lays.commaList fun _ => lays_tupleElement h).next ht fun elements t ht => ?_
  exact .look (.pure (ht.inner rfl rfl))

theorem lays_parenthesizedType : LaysNode (parenthesizedType (typeWithin levels)) s := by
  refine .look ((skips_expect _).go fun _ t ht => (h t).next ht fun inside t ht => ?_)
  exact (skips_expect _).next ht fun _ t ht => .look (.pure (ht.inner rfl rfl))

theorem lays_objectType : LaysNode (objectType (typeWithin levels)) s := by
  refine .look ((skips_expect _).go fun _ t ht => ?_)
  refine (Lays.nested fun _ => lays_typeMembers h).next ht fun inside t ht => ?_
  exact (skips_expect _).next ht fun _ t ht => .look (.pure (ht.inner rfl rfl))

/-- A name and the type arguments behind it, if there are any, become a node that begins where
the name or the word before it does. -/
theorem leaves_named {t : State} {kind : NodeKind} {name : Node} (ht : Laid true s t [name])
    {c : Prop} [Decidable c] :
    Leaves (do
      let arguments ← if c then typeArguments (typeWithin levels) else pure []
      return Node.inner kind s.start (← look).prevEnd (name :: arguments)) t
      fun node u => Laid true s u [node] := by
  have harguments : c → LaysNodes false (typeArguments (typeWithin levels)) t :=
    fun _ => (lays_typeArguments h).lax
  exact .either harguments (fun _ => .pure (.refl t)) ht fun _ _ hu =>
    .look (.pure (hu.inner rfl rfl))

theorem lays_typeQuery : LaysNode (typeQuery (typeWithin levels)) s := by
  refine .look ((skips_advance 1).go fun _ t ht => .look (.ite (fun _ => ?_) fun _ => .fail))
  exact lays_entityName.next ht fun name t ht => .look (leaves_named h ht)

theorem lays_typeReference : LaysNode (typeReference (typeWithin levels)) s :=
  .look (lays_entityName.go fun _ _ ht => .look (leaves_named h ht))

omit h in
/-- A literal of one token in the place of a type. -/
theorem lays_literal {token : Token} {rest : List Token} (hrest : s.rest = token :: rest)
    {literal : Node} (hspan : literal.span = token.span) (hchildren : literal.children = []) :
    LaysNode (do advance 1; return literalType literal) s :=
  .advance (.pure ((Laid.token hrest hspan hchildren).wrap rfl rfl))

theorem lays_wordType {token : Token} {rest : List Token} (hrest : s.rest = token :: rest) :
    LaysNode (wordType (typeWithin levels) token) s := by
  refine .look (.ite (fun _ => lays_typeQuery h) fun _ => ?_)
  refine .ite (fun _ => lays_literal hrest rfl rfl) fun _ => ?_
  refine .ite (fun _ => lays_literal hrest rfl rfl) fun _ => .ite (fun _ => ?_) fun _ => ?_
  · exact (skips_advance 1).go fun _ t ht => (lays_functionType h).last ht
  refine .ite (fun _ => .fail) fun _ => ?_
  cases NodeKind.keywordType? token.text with
  | none => exact lays_typeReference h
  | some kind =>
    exact .ite (fun _ => lays_typeReference h) fun _ => .advance (.pure (.token hrest rfl rfl))

omit h in
theorem lays_negativeType {sign : Token} {rest : List Token} (hrest : s.rest = sign :: rest) :
    LaysNode (negativeType sign) s := by
  refine .advance ((leaves_token _ _).bind fun number t ⟨behind, hbehind, ht⟩ => .pure ?_)
  have hread := (State.Reads.advance s 1).trans (.advance (s.advance 1) 1)
  rw [hbehind, hrest, ← ht] at hread
  have hleaf : Laid true s t
      [Node.leaf .numericLiteral ("-" ++ number.text) ⟨sign.span.start, number.span.stop⟩] :=
    .leaf hread rfl rfl rfl rfl
  exact hleaf.wrap rfl rfl

theorem lays_primaryType : LaysNode (primaryType (typeWithin levels)) s := by
  refine .look ?_
  cases hrest : s.rest with
  | nil => exact .fail
  | cons token rest =>
    dsimp only
    cases token.kind with
    | lParen => exact .ite (fun _ => lays_functionType h) fun _ => lays_parenthesizedType h
    | lt => exact lays_functionType h
    | lBrace => exact lays_objectType h
    | lBracket => exact lays_tupleType h
    | string | number => exact lays_literal hrest rfl rfl
    | minus => exact .ite (fun _ => lays_negativeType hrest) fun _ => .fail
    | template => exact .fail
    | word => exact lays_wordType h hrest
    | _ => exact .fail

/-- Square brackets and what is between them become one node with the type before them. -/
theorem leaves_suffix {t : State} {target : Node} (ht : Laid true s t [target]) :
    Leaves (suffix (typeWithin levels) s.start target) t fun node u => Laid true s u [node] := by
  refine (skips_expect _).next ht fun _ t ht => (skips_accept _).next ht fun _ t ht =>
    .ite (fun _ => .look (.pure (ht.inner rfl rfl))) fun _ => ?_
  refine (h t).next ht fun index t ht => (skips_expect _).next ht fun _ t ht => ?_
  exact .look (.pure (ht.inner rfl rfl))

theorem leaves_suffixesUpTo (count : Nat) {t : State} {target : Node}
    (ht : Laid true s t [target]) :
    Leaves (suffixesUpTo (typeWithin levels) s.start count target) t
      fun node u => Laid true s u [node] := by
  induction count generalizing t target with
  | zero => exact .pure ht
  | succ count ih =>
    refine .look (.ite (fun _ => ?_) fun _ => .pure ht)
    exact (leaves_suffix h ht).bind fun longer u hu => ih hu

/-- The words `readonly` before a type are not part of its node. -/
theorem lays_postfixType : LaysNode (postfixType (typeWithin levels)) s := by
  refine .look ((skips_advance _).go fun _ first hfirst => .look ?_)
  refine (lays_primaryType h).go fun target t ht => ?_
  exact (leaves_suffixesUpTo h _ ht).mono fun _ _ hu => hfirst.trans hu

theorem lays_unionType : LaysNode (unionType (typeWithin levels)) s :=
  lays_operands fun _ => lays_operands fun _ => lays_postfixType h

end

theorem lays_typeWithin (levels : Nat) (s : State) : LaysNode (typeWithin levels) s := by
  induction levels generalizing s with
  | zero => exact .refuse
  | succ levels ih => exact .nested fun _ => lays_unionType ih

theorem lays_type (s : State) : LaysNode type s :=
  lays_typeWithin maxDepth s

end

end DeclSchema.Parser
