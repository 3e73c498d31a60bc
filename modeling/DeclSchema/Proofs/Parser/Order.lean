import DeclSchema.Proofs.Parser.Reading

/-!
# The parsers of types and members are orderly

Each parser below statements is shown to be orderly, and to give nodes that no
interface and no class is part of. Parsers that read types inside what they read take
the parser of types as a parameter, as their definitions do; `orderly_type` ties the
knot.
-/

namespace DeclSchema

/-- The kinds of the declarations that can become elements. -/
def NodeKind.declares : NodeKind → Bool
  | .interfaceDeclaration | .classDeclaration => true
  | _ => false

namespace Node

/-- Neither the node nor any node below it is an interface or a class. -/
def Plain (node : Node) : Prop :=
  ∀ inner ∈ node.preorder, inner.kind.declares = false

/-- All of several nodes are plain. -/
def AllPlain (nodes : List Node) : Prop :=
  ∀ node ∈ nodes, node.Plain

theorem plain_iff {node : Node} :
    node.Plain ↔ node.kind.declares = false ∧ AllPlain node.children :=
  forall_mem_preorder_iff

@[simp] theorem plain_leaf {kind : NodeKind} {text : String} {span : Span} :
    (leaf kind text span).Plain ↔ kind.declares = false :=
  plain_iff.trans (by simp [leaf, AllPlain])

@[simp] theorem plain_mark {kind : NodeKind} {span : Span} :
    (mark kind span).Plain ↔ kind.declares = false :=
  plain_iff.trans (by simp [mark, AllPlain])

@[simp] theorem plain_mk {kind : NodeKind} {text : Option String} {tags : List DocTag}
    {span : Span} {children : List Node} :
    Plain ⟨kind, text, tags, span, children⟩ ↔ kind.declares = false ∧ AllPlain children :=
  plain_iff

@[simp] theorem plain_inner {kind : NodeKind} {start stop : Nat} {children : List Node} :
    (Node.inner kind start stop children).Plain ↔ kind.declares = false ∧ AllPlain children :=
  plain_iff

@[simp] theorem allPlain_nil : AllPlain [] := by
  simp [AllPlain]

@[simp] theorem allPlain_cons {node : Node} {nodes : List Node} :
    AllPlain (node :: nodes) ↔ node.Plain ∧ AllPlain nodes := by
  simp [AllPlain]

@[simp] theorem allPlain_append {first second : List Node} :
    AllPlain (first ++ second) ↔ AllPlain first ∧ AllPlain second := by
  simp only [AllPlain, List.mem_append]
  grind

end Node

namespace Parser

open Node

@[simp] theorem plain_tokenLeaf {kind : NodeKind} {token : Token} :
    (tokenLeaf kind token).Plain ↔ kind.declares = false :=
  plain_leaf

@[simp] theorem plain_stringLeaf {token : Token} : (stringLeaf token).Plain :=
  plain_leaf.mpr rfl

theorem orderly_identifier (what : Wanted) : Orderly Quiet (identifier what) Plain :=
  .bind (orderly_token .word what) fun _ _ => .pure (by simp [NodeKind.declares])

theorem orderly_entityName : Orderly Quiet entityName Plain := by
  refine .bind (orderly_identifier .name) fun first hfirst => ?_
  refine .bind (P := AllPlain) (.repeatWhile ?_) fun segments hsegments => ?_
  · exact .bind (orderly_advance 1) fun _ _ => orderly_identifier .name
  · refine .ite (.pure hfirst) (.look fun s => .pure ?_)
    simp [qualified, Node.inner, NodeKind.declares, hfirst, hsegments]

theorem orderly_skipGroup : Orderly Quiet skipGroup fun _ => True :=
  .look fun _ => orderly_advance _

theorem orderly_skipDecorators : Orderly Quiet skipDecorators fun _ => True :=
  .look fun _ => orderly_advance _

theorem orderly_skipInitializer (ends : TokenKind → Bool) :
    Orderly Quiet (skipInitializer ends) fun _ => True :=
  .look fun _ => orderly_advance _

theorem orderly_memberName : Orderly Quiet memberName AllPlain := by
  refine .look fun s => ?_
  cases s.rest with
  | nil => exact orderly_fail _
  | cons token rest =>
    dsimp only
    cases token.kind with
    | word => exact .bind (orderly_advance 1) fun _ _ => .pure (by simp [NodeKind.declares])
    | string => exact .bind (orderly_advance 1) fun _ _ => .pure (by simp)
    | number => exact .bind (orderly_advance 1) fun _ _ => .pure (by simp [NodeKind.declares])
    | hash =>
      cases rest.head? with
      | none => exact orderly_fail _
      | some name =>
        exact .ite (.bind (orderly_advance 2) fun _ _ => .pure (by simp [NodeKind.declares]))
          (orderly_fail _)
    | lBracket => exact .bind orderly_skipGroup fun _ _ => .pure (by simp)
    | _ => exact orderly_fail _

theorem orderly_questionMark : Orderly Quiet questionMark AllPlain := by
  refine .look fun s => ?_
  cases s.rest with
  | nil => exact .pure (by simp)
  | cons token rest =>
    exact .ite (.bind (orderly_advance 1) fun _ _ => .pure (by simp [NodeKind.declares]))
      (.pure (by simp))

theorem allPlain_leadingModifiers {step : Bool → Token → List Token → ModifierStep}
    (hstep : ∀ kept token rest kind, step kept token rest = .keep kind → kind.declares = false)
    (kept : Bool) (tokens : List Token) : AllPlain (leadingModifiers step kept tokens).1 := by
  induction tokens generalizing kept with
  | nil => simp [leadingModifiers]
  | cons token rest ih =>
    unfold leadingModifiers
    cases h : step kept token rest with
    | keep kind => simpa [hstep _ _ _ _ h] using ih true
    | pass => exact ih kept
    | stop => simp

theorem orderly_modifiers {step : Bool → Token → List Token → ModifierStep}
    (hstep : ∀ kept token rest kind, step kept token rest = .keep kind →
      kind.declares = false) : Orderly Quiet (modifiers step) AllPlain :=
  .look fun s => .bind (orderly_advance _) fun _ _ =>
    .pure (allPlain_leadingModifiers hstep false s.rest)

theorem declares_of_isModifier {kind : NodeKind} (h : kind.isModifier) :
    kind.declares = false := by
  cases kind <;> simp_all [NodeKind.isModifier, NodeKind.declares]

theorem declares_of_parameterModifier (kept : Bool) (token : Token) (rest : List Token)
    (kind : NodeKind) (h : parameterModifier kept token rest = .keep kind) :
    kind.declares = false := by
  unfold parameterModifier at h
  grind [NodeKind.isModifier_of_modifier?, declares_of_isModifier]

theorem declares_of_classModifier (kept : Bool) (token : Token) (rest : List Token)
    (kind : NodeKind) (h : classModifier kept token rest = .keep kind) :
    kind.declares = false := by
  unfold classModifier at h
  grind [NodeKind.isModifier_of_modifier?, declares_of_isModifier]

theorem declares_of_statementModifier (kept : Bool) (token : Token) (rest : List Token)
    (kind : NodeKind) (h : statementModifier kept token rest = .keep kind) :
    kind.declares = false := by
  unfold statementModifier at h
  grind [NodeKind.declares]

section

variable {type : Parser Node}

theorem orderly_typeParameter (h : Orderly Quiet type Plain) : Orderly Quiet (typeParameter type) Plain := by
  refine .look fun first => .bind (orderly_acceptWord _) fun _ _ => .look fun s => ?_
  refine .when (orderly_advance 1) fun _ => .bind (orderly_identifier _) fun name hname => ?_
  refine .bind (P := AllPlain) (.optional (orderly_acceptWord _) h) fun bound hbound => ?_
  refine .bind (P := AllPlain) (.optional (orderly_accept _) h) fun preset hpreset => ?_
  refine .look fun last => .pure ?_
  simp [NodeKind.declares, hname, hbound, hpreset]

theorem orderly_typeParameters (h : Orderly Quiet type Plain) :
    Orderly Quiet (typeParameters type) AllPlain :=
  .bind (orderly_expect _) fun _ _ => .commaList (orderly_typeParameter h)

theorem orderly_typeParametersIfAny (h : Orderly Quiet type Plain) :
    Orderly Quiet (typeParametersIfAny type) AllPlain :=
  .look fun _ => .ite (orderly_typeParameters h) (.pure (by simp))

theorem orderly_binding : Orderly Quiet binding AllPlain := by
  refine .look fun s => ?_
  cases s.rest with
  | nil => exact orderly_fail _
  | cons token rest =>
    dsimp only
    cases token.kind with
    | word => exact .bind (orderly_identifier _) fun _ hname => .pure (by simpa using hname)
    | lBrace => exact .bind orderly_skipGroup fun _ _ => .pure (by simp)
    | lBracket => exact .bind orderly_skipGroup fun _ _ => .pure (by simp)
    | _ => exact orderly_fail _

theorem orderly_parameter (h : Orderly Quiet type Plain) : Orderly Quiet (parameter type) Plain := by
  refine .bind orderly_skipDecorators fun _ _ => .look fun first => ?_
  refine .bind (orderly_modifiers declares_of_parameterModifier) fun words hwords => ?_
  refine .bind (orderly_accept _) fun _ _ => .bind orderly_binding fun name hname => ?_
  refine .bind orderly_questionMark fun question hquestion => ?_
  refine .bind (P := AllPlain) (.optional (orderly_accept _) h) fun typeNode htype => ?_
  refine .bind (orderly_accept _) fun _ _ => .when (orderly_skipInitializer _) fun _ => ?_
  refine .look fun last => .pure ?_
  simp [NodeKind.declares, hwords, hname, hquestion, htype]

theorem orderly_parameters (h : Orderly Quiet type Plain) : Orderly Quiet (parameters type) AllPlain :=
  .bind (orderly_expect _) fun _ _ => .commaList (orderly_parameter h)

/-- Whatever happened while a return type was read as a type, its errors are dropped and
the reader stands where it stood, or behind the type. -/
theorem orderly_returnType (h : Orderly Quiet type Plain) (withBody : Bool) :
    Orderly Quiet (returnType type withBody) fun _ => True := by
  intro s hs
  have hstep := h s hs
  have hback : ∀ (t : State) (b : Nat), Follows Quiet s t b →
      Follows Quiet s { t with rest := s.rest, prevEnd := s.prevEnd, errors := s.errors } 0 := by
    intro t b hst
    exact { hst with
      rest := List.suffix_refl _
      moved := .inl ⟨rfl, rfl⟩
      ordered := by
        unfold State.Ordered
        rw [hst.length]
        exact hs
      errors := ⟨[], by simp⟩ }
  have hkept : ∀ (t : State) (b : Nat), Follows Quiet s t b →
      t.errors.take s.errors.length = s.errors := by
    intro t b hst
    obtain ⟨errors, herrors, -⟩ := hst.errors
    rw [herrors, List.take_left]
  have hpass : ∀ (t : State) (b : Nat), Follows Quiet s t b → Follows Quiet s
      ((State.note { t with rest := s.rest, prevEnd := s.prevEnd, errors := s.errors }
        (.gaveBack t.atEnd)).advance (returnTypeLength withBody true 0 s.rest)) 0 := by
    intro t b hst
    have hnote := Follows.note (J := Quiet) (hback t b hst).ordered (quiet_gaveBack t.atEnd) 0
    exact ((hback t b hst).trans hnote (Nat.le_refl _)).trans
      (.advance hnote.ordered _ _) (Nat.le_refl _)
  unfold returnType
  rcases ht : type s with ⟨error | node, t⟩ <;> rw [ht] at hstep
  · simp only [Except.isOk, Except.toBool, Bool.false_and, Bool.false_eq_true, if_false]
    rw [hkept t _ hstep.1]
    exact ⟨(hpass t _ hstep.1).mono (Nat.zero_le _), trivial⟩
  · dsimp only
    rw [hkept t _ hstep.1]
    split
    · refine ⟨?_, trivial⟩
      exact { hstep.1 with errors := ⟨[], by simp⟩ }
    · exact ⟨(hpass t _ hstep.1).mono (Nat.zero_le _), trivial⟩

theorem orderly_body : Orderly Quiet body fun _ => True :=
  .look fun _ => .ite orderly_skipGroup (.bind (orderly_accept _) fun _ _ => .pure trivial)

theorem orderly_signature (h : Orderly Quiet type Plain) (withBody : Bool) :
    Orderly Quiet (signature type withBody) AllPlain := by
  refine .bind (orderly_typeParametersIfAny h) fun generics hgenerics => ?_
  refine .bind (orderly_parameters h) fun arguments harguments => ?_
  refine .bind (orderly_accept _) fun _ _ => .when (orderly_returnType h withBody) fun _ => ?_
  refine .when orderly_body fun _ => .pure ?_
  simp [hgenerics, harguments]

theorem orderly_indexSignature (h : Orderly Quiet type Plain) :
    Orderly Quiet (indexSignature type) AllPlain := by
  refine .bind (orderly_expect _) fun _ _ => .look fun first => ?_
  refine .bind (orderly_identifier _) fun name hname => ?_
  refine .bind (orderly_expect _) fun _ _ => .bind h fun keyType hkey => .look fun last => ?_
  refine .bind (orderly_expect _) fun _ _ => .bind orderly_questionMark fun question hq => ?_
  refine .bind (orderly_expect _) fun _ _ => .bind h fun value hvalue => .pure ?_
  simp [NodeKind.declares, hname, hkey, hq, hvalue]

theorem orderly_readonlyMark : Orderly Quiet readonlyMark AllPlain := by
  refine .look fun s => ?_
  cases s.rest with
  | nil => exact .pure (by simp)
  | cons token rest =>
    exact .ite (.bind (orderly_advance 1) fun _ _ => .pure (by simp [NodeKind.declares]))
      (.pure (by simp))

theorem orderly_typeMember (h : Orderly Quiet type Plain) : Orderly Quiet (typeMember type) Plain := by
  refine .look fun first => .bind orderly_takeDocs fun tags _ => ?_
  refine .bind orderly_readonlyMark fun words hwords => .look fun s => .ite ?_ (.ite ?_ (.ite ?_ ?_))
  · refine .bind (orderly_advance 1) fun _ _ => .bind orderly_memberName fun name hname => ?_
    refine .bind (orderly_signature h false) fun parts hparts => .look fun last => .pure ?_
    simp [NodeKind.declares, hname, hparts]
  · refine .bind (orderly_indexSignature h) fun parts hparts => .look fun last => .pure ?_
    simp [Node.inner, NodeKind.declares, hwords, hparts]
  · refine .bind (orderly_acceptWord _) fun _ _ => ?_
    refine .bind (orderly_signature h false) fun parts hparts => .look fun last => .pure ?_
    simp [NodeKind.declares, hparts]
  · refine .bind orderly_memberName fun name hname => ?_
    refine .bind orderly_questionMark fun question hquestion => .look fun t => .ite ?_ ?_
    · refine .bind (orderly_signature h false) fun parts hparts => .look fun last => .pure ?_
      simp [NodeKind.declares, hwords, hname, hquestion, hparts]
    · refine .bind (P := AllPlain) (.optional (orderly_accept _) h) fun typeNode htype => ?_
      refine .look fun last => .pure ?_
      simp [Node.inner, NodeKind.declares, hwords, hname, hquestion, htype]

theorem trailing_typeMembers (h : Orderly Quiet type Plain) : Trailing Quiet (typeMembers type) AllPlain :=
  .members (.bind (orderly_typeMember h) fun _ hnode => .pure (by simpa using hnode))

theorem orderly_classMember (h : Orderly Quiet type Plain) :
    Orderly Quiet (classMember type) fun node? => ∀ node ∈ node?, node.Plain := by
  refine .bind orderly_takeDocs fun before _ => .bind orderly_skipDecorators fun _ _ => ?_
  refine .bind orderly_takeDocs fun behind _ => .look fun s => .ite ?_ ?_
  · exact .bind (orderly_advance 1) fun _ _ => .bind orderly_skipGroup fun _ _ =>
      .pure (by simp)
  refine .bind (orderly_modifiers declares_of_classModifier) fun words hwords => ?_
  refine .look fun s => .ite ?_ ?_
  · refine .bind (orderly_advance 1) fun _ _ => .bind (orderly_parameters h) fun parts hparts => ?_
    refine .bind orderly_body fun _ _ => .look fun last => .pure ?_
    simp [Node.inner, NodeKind.declares, hwords, hparts]
  refine .ite ?_ ?_
  · refine .bind (orderly_advance 1) fun _ _ => .bind orderly_memberName fun name hname => ?_
    refine .bind (orderly_signature h true) fun parts hparts => .look fun last => .pure ?_
    simp [Node.inner, NodeKind.declares, hwords, hname, hparts]
  refine .bind (orderly_accept _) fun _ _ => .look fun s => .ite ?_ ?_
  · refine .bind (orderly_indexSignature h) fun parts hparts => ?_
    refine .bind (orderly_accept _) fun _ _ => .look fun last => .pure ?_
    simp [Node.inner, NodeKind.declares, hwords, hparts]
  refine .bind orderly_memberName fun name hname => .bind orderly_questionMark fun question hq => ?_
  refine .bind (orderly_accept _) fun _ _ => .look fun s => .ite ?_ ?_
  · refine .bind (orderly_signature h true) fun parts hparts => .look fun last => .pure ?_
    simp [Node.inner, NodeKind.declares, hwords, hname, hq, hparts]
  refine .bind (P := AllPlain) (.optional (orderly_accept _) h) fun typeNode htype => ?_
  refine .bind (orderly_accept _) fun _ _ => .when (orderly_skipInitializer _) fun _ => ?_
  refine .bind (orderly_accept _) fun _ _ => .look fun last => .pure ?_
  simp [Node.inner, NodeKind.declares, hwords, hname, hq, htype]

theorem trailing_classMembers (h : Orderly Quiet type Plain) : Trailing Quiet (classMembers type) AllPlain :=
  .members (orderly_classMember h)

theorem plain_combine {kind : NodeKind} (hkind : kind.declares = false) {start stop : Nat}
    {nodes : List Node} (h : AllPlain nodes) : (combine kind start stop nodes).Plain := by
  unfold combine
  split
  · simpa using h
  · simpa [hkind] using h

@[simp] theorem plain_literalType {literal : Node} :
    (literalType literal).Plain ↔ literal.Plain := by
  simp [literalType, NodeKind.declares]

theorem orderly_operands {operator : TokenKind} {kind : NodeKind} {operand : Parser Node}
    (hkind : kind.declares = false) (h : Orderly Quiet operand Plain) :
    Orderly Quiet (operands operator kind operand) Plain := by
  refine .look fun first => .bind (orderly_accept _) fun _ _ => ?_
  refine .bind (P := AllPlain) (.separated h) fun nodes hnodes => .look fun last => .pure ?_
  exact plain_combine hkind hnodes

theorem orderly_typeArguments (h : Orderly Quiet type Plain) :
    Orderly Quiet (typeArguments type) AllPlain := by
  refine .bind (orderly_expect _) fun _ _ => ?_
  refine .bind (P := AllPlain) (.separated h) fun nodes hnodes => ?_
  exact .bind (orderly_expect _) fun _ _ => .pure hnodes

theorem orderly_functionType (h : Orderly Quiet type Plain) : Orderly Quiet (functionType type) Plain := by
  refine .look fun first => .bind (orderly_typeParametersIfAny h) fun generics hgenerics => ?_
  refine .bind (orderly_parameters h) fun arguments harguments => ?_
  refine .bind (orderly_expect _) fun _ _ => .bind h fun returned hreturned => ?_
  refine .look fun last => .pure ?_
  simp [NodeKind.declares, hgenerics, harguments, hreturned]

theorem orderly_tupleElement (h : Orderly Quiet type Plain) : Orderly Quiet (tupleElement type) Plain := by
  refine .look fun first => .bind (orderly_accept _) fun spread _ => .look fun s => ?_
  refine .bind (orderly_advance _) fun _ _ => .bind h fun element helement => ?_
  refine .bind (orderly_accept _) fun _ _ => .ite (.look fun last => .pure ?_) (.pure helement)
  simp [NodeKind.declares, helement]

theorem orderly_tupleType (h : Orderly Quiet type Plain) : Orderly Quiet (tupleType type) Plain := by
  refine .look fun first => .bind (orderly_expect _) fun _ _ => ?_
  refine .bind (P := AllPlain) (.commaList (orderly_tupleElement h)) fun elements helements => ?_
  refine .look fun last => .pure ?_
  simp [NodeKind.declares, helements]

theorem orderly_parenthesizedType (h : Orderly Quiet type Plain) :
    Orderly Quiet (parenthesizedType type) Plain := by
  refine .look fun first => .bind (orderly_expect _) fun _ _ => .bind h fun inside hinside => ?_
  refine .bind (orderly_expect _) fun _ _ => .look fun last => .pure ?_
  simp [NodeKind.declares, hinside]

/-- An error at the brace that closes the members is behind the type once that brace is
read. -/
theorem orderly_objectType (h : Orderly Quiet type Plain) : Orderly Quiet (objectType type) Plain := by
  refine .look fun first => .bind (orderly_expect _) fun _ _ => ?_
  refine Trailing.expect ((trailing_typeMembers h).nested quiet_refused) fun inside hinside => ?_
  refine .look fun last => .pure ?_
  simp [NodeKind.declares, hinside]

theorem orderly_typeQuery (h : Orderly Quiet type Plain) : Orderly Quiet (typeQuery type) Plain := by
  refine .look fun first => .bind (orderly_advance _) fun _ _ => .look fun s => ?_
  refine .ite (.bind orderly_entityName fun name hname => .look fun t => ?_) (orderly_fail _)
  refine .either (orderly_typeArguments h) (.pure allPlain_nil) fun arguments harguments => ?_
  refine .look fun last => .pure ?_
  simp [NodeKind.declares, hname, harguments]

theorem orderly_typeReference (h : Orderly Quiet type Plain) : Orderly Quiet (typeReference type) Plain := by
  refine .look fun first => .bind orderly_entityName fun name hname => .look fun s => ?_
  refine .either (orderly_typeArguments h) (.pure allPlain_nil) fun arguments harguments => ?_
  refine .look fun last => .pure ?_
  simp [NodeKind.declares, hname, harguments]

theorem declares_of_keywordType? {word : String} {kind : NodeKind}
    (h : NodeKind.keywordType? word = some kind) : kind.declares = false := by
  have htype := NodeKind.isType_of_keywordType? h
  cases kind <;> simp_all [NodeKind.isType, NodeKind.declares]

theorem orderly_wordType (h : Orderly Quiet type Plain) (token : Token) :
    Orderly Quiet (wordType type token) Plain := by
  refine .look fun s => .ite (orderly_typeQuery h) (.ite ?_ (.ite ?_ (.ite ?_ (.ite ?_ ?_))))
  · exact .bind (orderly_advance 1) fun _ _ => .pure (by simp [NodeKind.declares])
  · exact .bind (orderly_advance 1) fun _ _ => .pure (by simp [NodeKind.declares])
  · exact .bind (orderly_advance 1) fun _ _ => orderly_functionType h
  · exact orderly_fail _
  · split
    · exact orderly_typeReference h
    · next kind hkind =>
      refine .ite (orderly_typeReference h) (.bind (orderly_advance 1) fun _ _ => .pure ?_)
      simpa using declares_of_keywordType? hkind

theorem orderly_negativeType (sign : Token) : Orderly Quiet (negativeType sign) Plain :=
  .bind (orderly_advance 1) fun _ _ => .bind (orderly_token _ _) fun _ _ =>
    .pure (by simp [NodeKind.declares])

theorem orderly_primaryType (h : Orderly Quiet type Plain) : Orderly Quiet (primaryType type) Plain := by
  refine .look fun s => ?_
  cases s.rest with
  | nil => exact orderly_fail _
  | cons token rest =>
    dsimp only
    cases token.kind with
    | lParen => exact .ite (orderly_functionType h) (orderly_parenthesizedType h)
    | lt => exact orderly_functionType h
    | lBrace => exact orderly_objectType h
    | lBracket => exact orderly_tupleType h
    | string => exact .bind (orderly_advance 1) fun _ _ => .pure (by simp)
    | number => exact .bind (orderly_advance 1) fun _ _ => .pure (by simp [NodeKind.declares])
    | minus => exact .ite (orderly_negativeType token) (orderly_fail _)
    | template => exact orderly_fail _
    | word => exact orderly_wordType h token
    | _ => exact orderly_fail _

theorem orderly_suffix (h : Orderly Quiet type Plain) (start : Nat) {target : Node}
    (htarget : target.Plain) : Orderly Quiet (suffix type start target) Plain := by
  refine .bind (orderly_expect _) fun _ _ => .bind (orderly_accept _) fun _ _ => .ite ?_ ?_
  · exact .look fun last => .pure (by simp [NodeKind.declares, htarget])
  · refine .bind h fun index hindex => .bind (orderly_expect _) fun _ _ => ?_
    exact .look fun last => .pure (by simp [NodeKind.declares, htarget, hindex])

theorem orderly_suffixesUpTo (h : Orderly Quiet type Plain) (start count : Nat) {target : Node}
    (htarget : target.Plain) : Orderly Quiet (suffixesUpTo type start count target) Plain := by
  induction count generalizing target with
  | zero => exact .pure htarget
  | succ count ih =>
    refine .look fun s => .ite ?_ (.pure htarget)
    exact .bind (orderly_suffix h start htarget) fun _ hlonger => ih hlonger

theorem orderly_postfixType (h : Orderly Quiet type Plain) : Orderly Quiet (postfixType type) Plain :=
  .look fun _ => .bind (orderly_advance _) fun _ _ => .look fun _ =>
    .bind (orderly_primaryType h) fun _ htarget => orderly_suffixesUpTo h _ _ htarget

theorem orderly_unionType (h : Orderly Quiet type Plain) : Orderly Quiet (unionType type) Plain :=
  orderly_operands rfl (orderly_operands rfl (orderly_postfixType h))

end

theorem orderly_typeWithin (levels : Nat) : Orderly Quiet (typeWithin levels) Plain := by
  induction levels with
  | zero => exact orderly_refuse quiet_refused
  | succ levels ih => exact (orderly_unionType ih).nested quiet_refused

theorem orderly_type : Orderly Quiet type Plain :=
  orderly_typeWithin maxDepth

theorem orderly_heritageClause : Orderly Quiet heritageClause Plain := by
  refine .look fun s => ?_
  cases s.rest with
  | nil => exact orderly_fail _
  | cons keyword rest =>
    refine .bind (orderly_advance 1) fun _ _ => ?_
    refine .bind (P := AllPlain) (.separated orderly_type) fun types htypes => ?_
    refine .look fun last => .pure ?_
    simp [Node.inner, NodeKind.declares, htypes]

/-- Members in braces are as orderly as they are trailing. -/
theorem orderly_braced {J : Event → Prop} {inside : Parser (List Node)} {P : List Node → Prop}
    (h : Trailing J inside P) : Orderly J (braced inside) P :=
  .bind (orderly_expect _) fun _ _ => h.expect fun _ hnodes => .pure hnodes

theorem orderly_interfaceParts : Orderly Quiet interfaceParts AllPlain := by
  refine .bind (orderly_identifier _) fun name hname => ?_
  refine .bind (orderly_typeParametersIfAny orderly_type) fun generics hgenerics => ?_
  refine .bind (P := AllPlain) (.repeatWhile orderly_heritageClause) fun clauses hclauses => ?_
  refine .bind (orderly_braced (trailing_typeMembers orderly_type)) fun inside hinside => .pure ?_
  simp [hname, hgenerics, hclauses, hinside]

theorem orderly_className : Orderly Quiet className AllPlain :=
  .look fun _ => .ite
    (.bind (orderly_identifier _) fun _ hname => .pure (by simpa using hname))
    (.pure (by simp))

theorem orderly_classParts : Orderly Quiet classParts AllPlain := by
  refine .bind orderly_className fun name hname => ?_
  refine .bind (orderly_typeParametersIfAny orderly_type) fun generics hgenerics => ?_
  refine .bind (P := AllPlain) (.repeatWhile orderly_heritageClause) fun clauses hclauses => ?_
  refine .bind (orderly_braced (trailing_classMembers orderly_type)) fun inside hinside => .pure ?_
  simp [hname, hgenerics, hclauses, hinside]

theorem orderly_typeAliasParts : Orderly Quiet typeAliasParts AllPlain := by
  refine .bind (orderly_identifier _) fun name hname => ?_
  refine .bind (orderly_typeParametersIfAny orderly_type) fun generics hgenerics => ?_
  refine .bind (orderly_expect _) fun _ _ => .bind orderly_type fun meaning hmeaning => ?_
  refine .bind (orderly_accept _) fun _ _ => .pure ?_
  simp [hname, hgenerics, hmeaning]

theorem orderly_enumParts : Orderly Quiet enumParts AllPlain :=
  .bind (orderly_identifier _) fun name hname => .look fun _ => .ite
    (.bind orderly_skipGroup fun _ _ => .pure (by simpa using hname)) (orderly_fail _)

theorem orderly_moduleName : Orderly Quiet moduleName Plain := by
  refine .look fun s => ?_
  cases s.rest with
  | nil => exact orderly_entityName
  | cons token rest =>
    exact .ite (.bind (orderly_advance 1) fun _ _ => .pure (by simp)) orderly_entityName

end Parser

end DeclSchema
