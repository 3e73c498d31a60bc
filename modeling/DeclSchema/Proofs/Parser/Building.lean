import DeclSchema.Proofs.Parser.Keeping
import DeclSchema.Proofs.Parser.Rounds
import DeclSchema.Proofs.Parser.Shape

/-!
# How trees are built

`Grows` lists the ways in which a node is made of others, for a property of nodes that
follows from that of their children. The property carries a bound, which a level of types
and a level of blocks raise by a constant; square brackets behind a type do not raise it.
What is special about a member is passed to the property: its annotation is what is read
behind a colon, see `Annotated`. `Keeps.sourceFile` is the resulting principle: what grows
in this way holds of every tree that is read.
-/

namespace DeclSchema

/-- Whether a node of the kind may carry the annotation of a member. -/
def NodeKind.isAnnotated : NodeKind → Bool
  | .parameter | .propertySignature | .propertyDeclaration => true
  | _ => false

/-- Whether a node of the kind is made of the type before it by square brackets. -/
def NodeKind.isSuffixed : NodeKind → Bool
  | .arrayType | .indexedAccessType => true
  | _ => false

/-- Whether a node of the kind is like most others. -/
def NodeKind.isOrdinary (kind : NodeKind) : Bool :=
  !kind.isAnnotated && !kind.isSuffixed && !kind.isLiteral

namespace Parser

/-- A node of a member with its annotation: `w` is the state behind the parts of the member
that come before it, and `annotation` what is read there behind a colon, if one comes next.
The member begins in `s` and ends in `t`. -/
inductive Annotated (I : State → Prop) : Node → Prop
  | intro {kind : NodeKind} {tags : List DocTag} {parts annotation : List Node} {levels : Nat}
    {s w v t : State} (member : kind.isAnnotated) (starts : I s) (before : Within I s w)
    (plain : ∀ part ∈ parts, ¬ part.kind.isType)
    (read : optional (accept .colon) (typeWithin levels) w = (.ok annotation, v))
    (behind : Within I v t) :
    Annotated I ⟨kind, none, tags, Span.ofBounds s.start t.prevEnd, parts ++ annotation⟩

/-- The property follows from that of the children, at a bound that is raised by one for
every node but those made by square brackets. -/
structure Grows (I : State → Prop) (Q : Nat → Node → Prop) : Prop where
  mono : ∀ {m n node}, m ≤ n → Q m node → Q n node
  inner : ∀ {n kind text tags span children}, NodeKind.isOrdinary kind →
    (∀ child ∈ children, Q n child) → Q (n + 1) ⟨kind, text, tags, span, children⟩
  literal : ∀ {n kind text span}, NodeKind.isLiteral kind → Q (n + 1) (Node.leaf kind text span)
  annotated : ∀ {n node}, Annotated I node → (∀ child ∈ node.children, Q n child) →
    Q (n + 1) node
  array : ∀ {n span target}, Q n target → Q n ⟨.arrayType, none, [], span, [target]⟩
  indexed : ∀ {n span target index}, Q (n + 1) target → Q n index →
    Q (n + 1) ⟨.indexedAccessType, none, [], span, [target, index]⟩

/-- A node without children that stands for no type: a name, a literal, a mark or a
modifier. -/
inductive Atomic : Node → Prop
  | leaf {kind : NodeKind} (h : kind.isOrdinary || kind.isLiteral) (h' : kind.isType = false)
    (text : String) (span : Span) : Atomic (Node.leaf kind text span)
  | mark {kind : NodeKind} (h : kind.isOrdinary) (h' : kind.isType = false) (span : Span) :
    Atomic (Node.mark kind span)

theorem Atomic.isType {node : Node} (h : Atomic node) : node.kind.isType = false := by
  cases h with
  | leaf _ h | mark _ h => exact h

theorem IsModifier.atomic {node : Node} (h : IsModifier node) : Atomic node := by
  obtain ⟨kind, text, span, hkind, rfl⟩ := h
  cases kind <;> first | exact absurd hkind Bool.false_ne_true | exact .leaf rfl rfl _ _

section

variable {I : State → Prop} {Q : Nat → Node → Prop}

namespace Grows

variable (hQ : Grows I Q)

include hQ

theorem atomic {n : Nat} {node : Node} (h : Atomic node) : Q (n + 1) node := by
  cases h with
  | @leaf kind h =>
    by_cases hliteral : kind.isLiteral
    · exact hQ.literal hliteral
    · exact hQ.inner ((Bool.or_eq_true_iff.mp h).resolve_right hliteral) (by simp)
  | mark h => exact hQ.inner h (by simp)

theorem atomics {n : Nat} {nodes : List Node} (h : ∀ node ∈ nodes, Atomic node) :
    ∀ node ∈ nodes, Q (n + 1) node :=
  fun node hnode => hQ.atomic (h node hnode)

theorem raise {p : Parser Node} {m n : Nat} (hmn : m ≤ n) (h : Keeps I p (Q m)) :
    Keeps I p (Q n) :=
  h.mono fun _ hnode => hQ.mono hmn hnode

theorem all_mono {m n : Nat} (hmn : m ≤ n) {nodes : List Node} (h : ∀ node ∈ nodes, Q m node) :
    ∀ node ∈ nodes, Q n node :=
  fun node hnode => hQ.mono hmn (h node hnode)

/-- Parts that stand for no type, before others. -/
theorem behind {n : Nat} {parts nodes : List Node} (hparts : ∀ part ∈ parts, Atomic part)
    (hnodes : ∀ node ∈ nodes, Q (n + 1) node) : ∀ node ∈ parts ++ nodes, Q (n + 1) node :=
  List.forall_mem_append.mpr ⟨hQ.atomics hparts, hnodes⟩

/-- A member of such parts and its annotation. -/
theorem member {kind : NodeKind} {tags : List DocTag} {parts annotation : List Node}
    {levels n : Nat} {s w v t : State} (hkind : kind.isAnnotated) (hs : I s) (hw : Within I s w)
    (hparts : ∀ part ∈ parts, Atomic part)
    (hrun : optional (accept .colon) (typeWithin levels) w = (.ok annotation, v))
    (ht : Within I v t) (hnodes : ∀ node ∈ annotation, Q (n + 1) node) :
    Q (n + 2) ⟨kind, none, tags, Span.ofBounds s.start t.prevEnd, parts ++ annotation⟩ := by
  have hplain : ∀ part ∈ parts, ¬ part.kind.isType := fun part hpart =>
    Bool.not_eq_true _ ▸ (hparts part hpart).isType
  exact hQ.annotated (.intro hkind hs hw hplain hrun ht) (hQ.behind hparts hnodes)

end Grows

/-- The parts of a member before its annotation. -/
theorem forall_mem_parts {words name question : List Node} (hwords : ∀ part ∈ words, Atomic part)
    (hname : ∀ part ∈ name, Atomic part) (hquestion : ∀ part ∈ question, Atomic part) :
    ∀ part ∈ words ++ name ++ question, Atomic part := by
  simp only [List.forall_mem_append]
  exact ⟨⟨hwords, hname⟩, hquestion⟩

variable (hI : Steady I)

include hI

theorem keeps_identifier (what : Wanted) : Keeps I (identifier what) Atomic :=
  .bind (.token hI .word what) fun _ _ => .pure (.leaf rfl rfl _ _)

theorem keeps_entityName (hQ : Grows I Q) (n : Nat) : Keeps I entityName (Q (n + 2)) := by
  refine .bind (keeps_identifier hI .name) fun first hfirst => ?_
  refine .bind (P := fun segments => ∀ segment ∈ segments, Atomic segment)
    (.repeatWhile (.bind (.advance hI 1) fun _ _ => keeps_identifier hI .name))
    fun segments hsegments => ?_
  refine .ite (.pure (hQ.atomic hfirst)) (.look fun last _ => .pure ?_)
  exact hQ.inner rfl (hQ.atomics (List.forall_mem_cons.mpr ⟨hfirst, hsegments⟩))

theorem keeps_skipGroup : Keeps I skipGroup fun _ => True :=
  .look fun _ _ => .advance hI _

theorem keeps_skipDecorators : Keeps I skipDecorators fun _ => True :=
  .look fun _ _ => .advance hI _

theorem keeps_skipInitializer (ends : TokenKind → Bool) :
    Keeps I (skipInitializer ends) fun _ => True :=
  .look fun _ _ => .advance hI _

theorem keeps_memberName : Keeps I memberName fun nodes => ∀ node ∈ nodes, Atomic node := by
  have hname : ∀ count node, Atomic node →
      Keeps I (do advance count; return [node] : Parser (List Node))
        fun nodes => ∀ node ∈ nodes, Atomic node :=
    fun count node hnode => .bind (.advance hI count) fun _ _ => .pure (by simpa using hnode)
  refine .look fun s _ => ?_
  cases s.rest with
  | nil => exact .fail hI _
  | cons token rest =>
    dsimp only
    cases token.kind with
    | word => exact hname 1 _ (.leaf rfl rfl _ _)
    | string => exact hname 1 _ (.leaf rfl rfl _ _)
    | number => exact hname 1 _ (.leaf rfl rfl _ _)
    | hash =>
      cases rest.head? with
      | none => exact .fail hI _
      | some name => exact .ite (hname 2 _ (.leaf rfl rfl _ _)) (.fail hI _)
    | lBracket => exact .bind (keeps_skipGroup hI) fun _ _ => .pure (by simp)
    | _ => exact .fail hI _

theorem keeps_questionMark : Keeps I questionMark fun nodes => ∀ node ∈ nodes, Atomic node := by
  refine .look fun s _ => ?_
  cases s.rest with
  | nil => exact .pure (by simp)
  | cons token rest =>
    refine .ite (.bind (.advance hI 1) fun _ _ => .pure ?_) (.pure (by simp))
    simpa using Atomic.mark rfl rfl token.span

theorem keeps_readonlyMark : Keeps I readonlyMark fun nodes => ∀ node ∈ nodes, Atomic node := by
  refine .look fun s _ => ?_
  cases s.rest with
  | nil => exact .pure (by simp)
  | cons token rest =>
    refine .ite (.bind (.advance hI 1) fun _ _ => .pure ?_) (.pure (by simp))
    simpa [tokenLeaf] using Atomic.leaf rfl rfl token.text token.span

theorem keeps_binding : Keeps I binding fun nodes => ∀ node ∈ nodes, Atomic node := by
  refine .look fun s _ => ?_
  cases s.rest with
  | nil => exact .fail hI _
  | cons token rest =>
    dsimp only
    cases token.kind with
    | word => exact .bind (keeps_identifier hI _) fun _ hname => .pure (by simpa using hname)
    | lBrace => exact .bind (keeps_skipGroup hI) fun _ _ => .pure (by simp)
    | lBracket => exact .bind (keeps_skipGroup hI) fun _ _ => .pure (by simp)
    | _ => exact .fail hI _

theorem keeps_modifiers {step : Bool → Token → List Token → ModifierStep}
    (hstep : ∀ kept token rest kind, step kept token rest = .keep kind → kind.isModifier) :
    Keeps I (modifiers step) fun nodes => ∀ node ∈ nodes, Atomic node := by
  refine .look fun s _ => .bind (.advance hI _) fun _ _ => .pure fun node hnode => ?_
  exact (isModifier_of_mem_leadingModifiers hstep false s.rest node hnode).atomic

theorem keeps_body : Keeps I body fun _ => True :=
  .look fun _ _ => .ite (keeps_skipGroup hI) (.bind (.accept hI _) fun _ _ => .pure trivial)

section

variable (hQ : Grows I Q) {levels n : Nat} (htype : Keeps I (typeWithin levels) (Q n))

include hQ htype

theorem keeps_typeParameter : Keeps I (typeParameter (typeWithin levels)) (Q (n + 2)) := by
  refine .look fun first _ => .bind (.acceptWord hI _) fun _ _ => .look fun s _ => ?_
  refine .when (.advance hI 1) fun _ => .bind (keeps_identifier hI _) fun name hname => ?_
  refine .bind (.optional (.acceptWord hI _) htype) fun bound hbound => ?_
  refine .bind (.optional (.accept hI _) htype) fun preset hpreset => .look fun last _ => .pure ?_
  refine hQ.inner rfl (List.forall_mem_cons.mpr ⟨hQ.atomic hname, ?_⟩)
  exact List.forall_mem_append.mpr
    ⟨hQ.all_mono (Nat.le_succ n) hbound, hQ.all_mono (Nat.le_succ n) hpreset⟩

theorem keeps_typeParametersIfAny :
    Keeps I (typeParametersIfAny (typeWithin levels)) fun nodes =>
      ∀ node ∈ nodes, Q (n + 2) node :=
  .look fun _ _ => .ite
    (.bind (.expect hI _) fun _ _ => .commaList hI (keeps_typeParameter hI hQ htype))
    (.pure (by simp))

theorem keeps_parameter : Keeps I (parameter (typeWithin levels)) (Q (n + 2)) := by
  refine .bind (keeps_skipDecorators hI) fun _ _ => .from fun s hs => ?_
  have hmodifiers := keeps_modifiers hI isModifier_of_parameterModifier
  refine .bind (hmodifiers.within s) fun words hwords => ?_
  refine .bind ((Keeps.accept hI _).within s) fun _ _ => ?_
  refine .bind ((keeps_binding hI).within s) fun name hname => ?_
  refine .bind ((keeps_questionMark hI).within s) fun question hquestion => ?_
  refine .typeIfAny hI htype fun w v annotation hw hnodes hrun => ?_
  refine .bind ((Keeps.accept hI _).within v) fun _ _ => ?_
  refine .when ((keeps_skipInitializer hI _).within v) fun _ => .look fun t ht => .pure ?_
  exact hQ.member rfl hs hw (forall_mem_parts hwords hname hquestion) hrun ht
    (hQ.all_mono (Nat.le_succ n) hnodes)

theorem keeps_parameters :
    Keeps I (parameters (typeWithin levels)) fun nodes => ∀ node ∈ nodes, Q (n + 2) node :=
  .bind (.expect hI _) fun _ _ => .commaList hI (keeps_parameter hI hQ htype)

omit hI hQ htype in
/-- A return type is always passed over. -/
theorem returnType_eq_ok (type : Parser Node) (withBody : Bool) (s : State) :
    ∃ t, returnType type withBody s = (.ok (), t) := by
  unfold returnType
  dsimp only
  split <;> exact ⟨_, rfl⟩

omit hQ in
/-- A return type behind a closing bracket and a colon, with what comes behind it. -/
theorem left_returnTypeIfAny {β : Type} {f : Unit → Parser β} {P : β → Prop} (withBody : Bool)
    {s : State} (hs : I s) (hclose : s.isAt .rParen) (hf : ∀ u, Keeps I (f u) P) :
    Left I P ((do
      let colon ← accept .colon
      if colon then returnType (typeWithin levels) withBody >>= f else f () : Parser β)
        (s.advance 1)) := by
  by_cases hcolon : (s.advance 1).isAt .colon
  · have hreturned := hI.returned s levels withBody hs hclose hcolon (htype.mono fun _ _ => trivial)
    obtain ⟨t, hrun⟩ := returnType_eq_ok (typeWithin levels) withBody ((s.advance 1).advance 1)
    rw [bind_apply_ok (accept_of_isAt hcolon), if_pos rfl, bind_apply_ok hrun]
    rw [hrun] at hreturned
    exact hf () t hreturned
  · rw [bind_apply_ok (accept_of_not_isAt hcolon), if_neg Bool.false_ne_true]
    exact hf () _ (hI.advance s 1 hs)

/-- Parameters that are read end with a closing bracket. -/
theorem exists_isAt_of_parameters {s t : State} {nodes : List Node} (hs : I s)
    (hrun : parameters (typeWithin levels) s = (.ok nodes, t)) :
    ∃ u, I u ∧ u.isAt .rParen ∧ t = u.advance 1 := by
  obtain ⟨mark, u, hopen, hrun⟩ := exists_of_bind_ok hrun
  obtain ⟨-, rfl⟩ := isAt_of_expect hopen
  exact exists_isAt_of_listUpTo hI (keeps_parameter hI hQ htype) _ (Nat.lt_succ_self _)
    (hI.advance s 1 hs) hrun

theorem keeps_signature (withBody : Bool) :
    Keeps I (signature (typeWithin levels) withBody) fun nodes =>
      ∀ node ∈ nodes, Q (n + 2) node := by
  refine .bind (keeps_typeParametersIfAny hI hQ htype) fun generics hgenerics => ?_
  refine .bindRun (keeps_parameters hI hQ htype) fun s arguments t hs hrun _ harguments => ?_
  obtain ⟨u, hu, hclose, rfl⟩ := exists_isAt_of_parameters hI hQ htype hs hrun
  refine left_returnTypeIfAny hI htype withBody hu hclose fun _ => ?_
  exact .when (keeps_body hI) fun _ => .pure (List.forall_mem_append.mpr ⟨hgenerics, harguments⟩)

theorem keeps_indexSignature :
    Keeps I (indexSignature (typeWithin levels)) fun nodes => ∀ node ∈ nodes, Q (n + 2) node := by
  refine .bind (.expect hI _) fun _ _ => .from fun s hs => ?_
  refine .bind ((keeps_identifier hI _).within s) fun name hname => ?_
  refine .expectType hI htype fun w v keyType hw hkey hrun => .look fun t ht => ?_
  refine .bind ((Keeps.expect hI _).within v) fun _ _ => ?_
  refine .bind ((keeps_questionMark hI).within v) fun question hquestion => ?_
  refine .bind ((Keeps.expect hI _).within v) fun _ _ => ?_
  refine .bind (htype.within v) fun value hvalue => .pure ?_
  have hparameter : Q (n + 2) (Node.inner .parameter s.start t.prevEnd [name, keyType]) := by
    have hname : ∀ part ∈ [name], Atomic part := by simpa using hname
    exact hQ.member rfl hs hw hname hrun ht (by simpa using hQ.mono (Nat.le_succ n) hkey)
  refine List.forall_mem_append.mpr ⟨?_, ?_⟩
  · exact List.forall_mem_cons.mpr ⟨hparameter, hQ.atomics hquestion⟩
  · simpa using hQ.mono (Nat.le_add_right n 2) hvalue

theorem keeps_typeMember : Keeps I (typeMember (typeWithin levels)) (Q (n + 3)) := by
  have hmember : ∀ {kind text tags span children}, NodeKind.isOrdinary kind →
      (∀ child ∈ children, Q (n + 2) child) → Q (n + 3) ⟨kind, text, tags, span, children⟩ :=
    hQ.inner
  refine .from fun s hs => .bind ((Keeps.takeDocs hI).within s) fun tags _ => ?_
  refine .bind ((keeps_readonlyMark hI).within s) fun words hwords => .look fun u _ => ?_
  have hsignature := (keeps_signature hI hQ htype false).within s
  refine .ite ?_ (.ite ?_ (.ite ?_ ?_))
  · refine .bind ((Keeps.advance hI 1).within s) fun _ _ => ?_
    refine .bind ((keeps_memberName hI).within s) fun name hname => ?_
    refine .bind hsignature fun parts hparts => .look fun t _ => .pure ?_
    exact hmember rfl (hQ.behind hname hparts)
  · refine .bind ((keeps_indexSignature hI hQ htype).within s) fun parts hparts => ?_
    exact .look fun t _ => .pure (hmember rfl (hQ.behind hwords hparts))
  · refine .bind ((Keeps.acceptWord hI _).within s) fun _ _ => ?_
    exact .bind hsignature fun parts hparts => .look fun t _ => .pure (hmember rfl hparts)
  · refine .bind ((keeps_memberName hI).within s) fun name hname => ?_
    refine .bind ((keeps_questionMark hI).within s) fun question hquestion => .look fun u _ => ?_
    have hparts := forall_mem_parts hwords hname hquestion
    refine .ite ?_ ?_
    · refine .bind hsignature fun parts hmore => .look fun t _ => .pure ?_
      exact hmember rfl (hQ.behind hparts hmore)
    · refine .typeIfAny hI htype fun w v annotation hw hnodes hrun => .look fun t ht => .pure ?_
      exact hQ.member rfl hs hw hparts hrun ht (hQ.all_mono (Nat.le_add_right n 2) hnodes)

theorem keeps_typeMembers :
    Keeps I (typeMembers (typeWithin levels)) fun nodes => ∀ node ∈ nodes, Q (n + 3) node :=
  .members hI (.bind (keeps_typeMember hI hQ htype) fun _ hnode => .pure (by simpa using hnode))

theorem keeps_classMember :
    Keeps I (classMember (typeWithin levels)) fun node? => ∀ node ∈ node?, Q (n + 3) node := by
  have hmember : ∀ {kind text tags span children}, NodeKind.isOrdinary kind →
      (∀ child ∈ children, Q (n + 2) child) →
      ∀ node ∈ some (⟨kind, text, tags, span, children⟩ : Node), Q (n + 3) node := by
    intro kind text tags span children hkind hchildren node hnode
    cases hnode
    exact hQ.inner hkind hchildren
  refine .bind (.takeDocs hI) fun before _ => .bind (keeps_skipDecorators hI) fun _ _ => ?_
  refine .bind (.takeDocs hI) fun behind _ => .from fun s hs => .ite ?_ ?_
  · refine .bind ((Keeps.advance hI 1).within s) fun _ _ => ?_
    exact .bind ((keeps_skipGroup hI).within s) fun _ _ => .pure nofun
  have hsignature := (keeps_signature hI hQ htype true).within s
  refine .bind ((keeps_modifiers hI isModifier_of_classModifier).within s) fun words hwords => ?_
  refine .look fun u _ => .ite ?_ (.ite ?_ (.bind ((Keeps.accept hI _).within s) fun _ _ => ?_))
  · refine .bind ((Keeps.advance hI 1).within s) fun _ _ => ?_
    refine .bind ((keeps_parameters hI hQ htype).within s) fun parts hparts => ?_
    refine .bind ((keeps_body hI).within s) fun _ _ => .look fun t _ => .pure ?_
    exact hmember rfl (hQ.behind hwords hparts)
  · refine .bind ((Keeps.advance hI 1).within s) fun _ _ => ?_
    refine .bind ((keeps_memberName hI).within s) fun name hname => ?_
    refine .bind hsignature fun parts hparts => .look fun t _ => .pure ?_
    exact hmember rfl (hQ.behind (List.forall_mem_append.mpr ⟨hwords, hname⟩) hparts)
  refine .look fun u _ => .ite ?_ ?_
  · refine .bind ((keeps_indexSignature hI hQ htype).within s) fun parts hparts => ?_
    refine .bind ((Keeps.accept hI _).within s) fun _ _ => .look fun t _ => .pure ?_
    exact hmember rfl (hQ.behind hwords hparts)
  refine .bind ((keeps_memberName hI).within s) fun name hname => ?_
  refine .bind ((keeps_questionMark hI).within s) fun question hquestion => ?_
  refine .bind ((Keeps.accept hI _).within s) fun _ _ => .look fun u _ => ?_
  have hparts := forall_mem_parts hwords hname hquestion
  refine .ite ?_ ?_
  · refine .bind hsignature fun parts hmore => .look fun t _ => .pure ?_
    exact hmember rfl (hQ.behind hparts hmore)
  · refine .typeIfAny hI htype fun w v annotation hw hnodes hrun => ?_
    refine .bind ((Keeps.accept hI _).within v) fun _ _ => ?_
    refine .when ((keeps_skipInitializer hI _).within v) fun _ => ?_
    refine .bind ((Keeps.accept hI _).within v) fun _ _ => .look fun t ht => .pure ?_
    intro node hnode
    cases hnode
    exact hQ.member rfl hs hw hparts hrun ht (hQ.all_mono (Nat.le_add_right n 2) hnodes)

theorem keeps_classMembers :
    Keeps I (classMembers (typeWithin levels)) fun nodes => ∀ node ∈ nodes, Q (n + 3) node :=
  .members hI (keeps_classMember hI hQ htype)

omit htype in
theorem keeps_operands {operator : TokenKind} {kind : NodeKind} {operand : Parser Node}
    (hkind : kind.isOrdinary) (h : Keeps I operand (Q n)) :
    Keeps I (operands operator kind operand) (Q (n + 1)) := by
  refine .look fun first _ => .bind (.accept hI _) fun _ _ => .bind (.separated hI h) ?_
  refine fun nodes hnodes => .look fun last _ => .pure ?_
  unfold combine
  split
  · exact hQ.mono (Nat.le_succ n) (hnodes _ (by simp))
  · exact hQ.inner hkind hnodes

omit hQ in
theorem keeps_typeArguments :
    Keeps I (typeArguments (typeWithin levels)) fun nodes => ∀ node ∈ nodes, Q n node :=
  .bind (.expect hI _) fun _ _ => .bind (.separated hI htype) fun _ hnodes =>
    .bind (.expect hI _) fun _ _ => .pure hnodes

theorem keeps_functionType : Keeps I (functionType (typeWithin levels)) (Q (n + 3)) := by
  refine .look fun first _ => .bind (keeps_typeParametersIfAny hI hQ htype) fun generics hg => ?_
  refine .bind (keeps_parameters hI hQ htype) fun arguments harguments => ?_
  refine .bind (.expect hI _) fun _ _ => .bind htype fun returned hreturned => ?_
  refine .look fun last _ => .pure (hQ.inner rfl ?_)
  simp only [List.forall_mem_append, List.forall_mem_singleton]
  exact ⟨⟨hg, harguments⟩, hQ.mono (Nat.le_add_right n 2) hreturned⟩

theorem keeps_tupleElement : Keeps I (tupleElement (typeWithin levels)) (Q (n + 1)) := by
  refine .look fun first _ => .bind (.accept hI _) fun spread _ => .look fun s _ => ?_
  refine .bind (.advance hI _) fun _ _ => .bind htype fun element helement => ?_
  refine .bind (.accept hI _) fun _ _ => .ite ?_ (.pure (hQ.mono (Nat.le_succ n) helement))
  exact .look fun last _ => .pure (hQ.inner rfl (by simpa using helement))

theorem keeps_tupleType : Keeps I (tupleType (typeWithin levels)) (Q (n + 2)) := by
  refine .look fun first _ => .bind (.expect hI _) fun _ _ => ?_
  refine .bind (.commaList hI (keeps_tupleElement hI hQ htype)) fun elements helements => ?_
  exact .look fun last _ => .pure (hQ.inner rfl helements)

theorem keeps_parenthesizedType :
    Keeps I (parenthesizedType (typeWithin levels)) (Q (n + 1)) := by
  refine .look fun first _ => .bind (.expect hI _) fun _ _ => .bind htype fun inside hinside => ?_
  refine .bind (.expect hI _) fun _ _ => .look fun last _ => .pure ?_
  exact hQ.inner rfl (by simpa using hinside)

theorem keeps_objectType : Keeps I (objectType (typeWithin levels)) (Q (n + 4)) := by
  refine .look fun first _ => .bind (.expect hI _) fun _ _ => ?_
  refine .bind ((keeps_typeMembers hI hQ htype).nested hI) fun inside hinside => ?_
  refine .bind (.expect hI _) fun _ _ => .look fun last _ => .pure ?_
  exact hQ.inner rfl hinside

theorem keeps_named {kind : NodeKind} (hkind : kind.isOrdinary) (start : Nat) {name : Node}
    (hname : Q (n + 2) name) {c : Prop} [Decidable c] :
    Keeps I (do
      let arguments ← if c then typeArguments (typeWithin levels) else pure []
      return Node.inner kind start (← look).prevEnd (name :: arguments)) (Q (n + 3)) := by
  refine .either (keeps_typeArguments hI htype) (.pure (by simp)) fun arguments harguments => ?_
  refine .look fun last _ => .pure (hQ.inner hkind (List.forall_mem_cons.mpr ⟨hname, ?_⟩))
  exact hQ.all_mono (Nat.le_add_right n 2) harguments

theorem keeps_typeQuery : Keeps I (typeQuery (typeWithin levels)) (Q (n + 3)) := by
  refine .look fun first _ => .bind (.advance hI 1) fun _ _ => .look fun s _ => ?_
  refine .ite (.bind (keeps_entityName hI hQ n) fun name hname => ?_) (.fail hI _)
  exact .look fun t _ => keeps_named hI hQ htype rfl _ hname

theorem keeps_typeReference : Keeps I (typeReference (typeWithin levels)) (Q (n + 3)) := by
  refine .look fun first _ => .bind (keeps_entityName hI hQ n) fun name hname => ?_
  exact .look fun s _ => keeps_named hI hQ htype rfl _ hname

omit htype in
/-- A literal or a word in the place of a type. -/
theorem keeps_literal {literal : Node} (h : Atomic literal) (count : Nat) :
    Keeps I (do advance count; return literalType literal) (Q (n + 3)) :=
  .bind (.advance hI count) fun _ _ => .pure (hQ.inner rfl (by simpa using hQ.atomic h))

theorem keeps_wordType (token : Token) :
    Keeps I (wordType (typeWithin levels) token) (Q (n + 3)) := by
  refine .look fun s _ => .ite (keeps_typeQuery hI hQ htype)
    (.ite (keeps_literal hI hQ (.leaf rfl rfl _ _) 1)
    (.ite (keeps_literal hI hQ (.leaf rfl rfl _ _) 1) (.ite ?_ (.ite (.fail hI _) ?_))))
  · exact .bind (.advance hI 1) fun _ _ => keeps_functionType hI hQ htype
  · cases hkind : NodeKind.keywordType? token.text with
    | none => exact keeps_typeReference hI hQ htype
    | some kind =>
      refine .ite (keeps_typeReference hI hQ htype) (.bind (.advance hI 1) fun _ _ => .pure ?_)
      unfold NodeKind.keywordType? at hkind
      split at hkind <;> cases hkind <;> exact hQ.inner rfl (by simp)

omit htype in
theorem keeps_negativeType (sign : Token) : Keeps I (negativeType sign) (Q (n + 3)) :=
  .bind (.advance hI 1) fun _ _ => .bind (.token hI _ _) fun _ _ =>
    .pure (hQ.inner rfl (by simpa using hQ.atomic (.leaf rfl rfl _ _)))

theorem keeps_primaryType : Keeps I (primaryType (typeWithin levels)) (Q (n + 4)) := by
  have hfunction := hQ.raise (Nat.le_succ _) (keeps_functionType hI hQ htype)
  have hliteral : ∀ {literal : Node}, Atomic literal →
      Keeps I (do advance 1; return literalType literal) (Q (n + 4)) :=
    fun h => hQ.raise (Nat.le_succ _) (keeps_literal hI hQ h 1)
  refine .look fun s _ => ?_
  cases s.rest with
  | nil => exact .fail hI _
  | cons token rest =>
    dsimp only
    cases token.kind with
    | lParen =>
      exact .ite hfunction (hQ.raise (by omega) (keeps_parenthesizedType hI hQ htype))
    | lt => exact hfunction
    | lBrace => exact keeps_objectType hI hQ htype
    | lBracket => exact hQ.raise (by omega) (keeps_tupleType hI hQ htype)
    | string => exact hliteral (.leaf rfl rfl _ _)
    | number => exact hliteral (.leaf rfl rfl _ _)
    | minus =>
      exact .ite (hQ.raise (Nat.le_succ (n + 3)) (keeps_negativeType hI hQ token)) (.fail hI _)
    | template => exact .fail hI _
    | word => exact hQ.raise (Nat.le_succ _) (keeps_wordType hI hQ htype token)
    | _ => exact .fail hI _

/-- Brackets behind a type are read at the bound of the type. -/
theorem keeps_suffix (start : Nat) {target : Node} (htarget : Q (n + 4) target) :
    Keeps I (suffix (typeWithin levels) start target) (Q (n + 4)) := by
  refine .bind (.expect hI _) fun _ _ => .bind (.accept hI _) fun _ _ => .ite ?_ ?_
  · exact .look fun last _ => .pure (hQ.array htarget)
  · refine .bind htype fun index hindex => .bind (.expect hI _) fun _ _ => ?_
    exact .look fun last _ => .pure (hQ.indexed htarget (hQ.mono (Nat.le_add_right n 3) hindex))

theorem keeps_suffixesUpTo (start count : Nat) {target : Node} (htarget : Q (n + 4) target) :
    Keeps I (suffixesUpTo (typeWithin levels) start count target) (Q (n + 4)) := by
  induction count generalizing target with
  | zero => exact .pure htarget
  | succ count ih =>
    refine .look fun s _ => .ite ?_ (.pure htarget)
    exact .bind (keeps_suffix hI hQ htype start htarget) fun _ hlonger => ih hlonger

theorem keeps_unionType : Keeps I (unionType (typeWithin levels)) (Q (n + 6)) := by
  have hpostfix : Keeps I (postfixType (typeWithin levels)) (Q (n + 4)) :=
    .look fun _ _ => .bind (.advance hI _) fun _ _ => .look fun s _ =>
      .bind (keeps_primaryType hI hQ htype) fun _ htarget =>
        keeps_suffixesUpTo hI hQ htype _ _ htarget
  exact keeps_operands hI hQ rfl (keeps_operands hI hQ rfl hpostfix)

end

variable (hQ : Grows I Q)

include hQ

theorem keeps_typeWithin (levels : Nat) : Keeps I (typeWithin levels) (Q (6 * levels)) := by
  induction levels with
  | zero => exact .refuse hI
  | succ levels ih => exact (keeps_unionType hI hQ ih).nested hI

/-- The bound on types. -/
theorem keeps_type : Keeps I type (Q (6 * maxDepth)) :=
  keeps_typeWithin hI hQ maxDepth

theorem keeps_heritageClause : Keeps I heritageClause (Q (6 * maxDepth + 1)) := by
  refine .look fun s _ => ?_
  cases s.rest with
  | nil => exact .fail hI _
  | cons keyword rest =>
    refine .bind (.advance hI 1) fun _ _ => .bind (.separated hI (keeps_type hI hQ)) ?_
    exact fun types htypes => .look fun last _ => .pure (hQ.inner rfl htypes)

omit hQ in
theorem keeps_braced {inside : Parser (List Node)} {P : List Node → Prop} (h : Keeps I inside P) :
    Keeps I (braced inside) P :=
  .bind (.expect hI _) fun _ _ => .bind h fun _ hnodes => .bind (.expect hI _) fun _ _ =>
    .pure hnodes

/-- The parts of an interface or a class from behind its name on. -/
theorem keeps_clauses {words : List String} {inside : Parser (List Node)} {name : List Node}
    (hname : ∀ node ∈ name, Atomic node)
    (hinside : Keeps I inside fun nodes => ∀ node ∈ nodes, Q (6 * maxDepth + 3) node) :
    Keeps I (do
      let generics ← typeParametersIfAny type
      let clauses ← repeatWhile (·.atHeritage words) heritageClause
      let inside ← braced inside
      return name ++ generics ++ clauses ++ inside)
      fun nodes => ∀ node ∈ nodes, Q (6 * maxDepth + 3) node := by
  refine .bind (keeps_typeParametersIfAny hI hQ (keeps_type hI hQ)) fun generics hgenerics => ?_
  refine .bind (.repeatWhile (keeps_heritageClause hI hQ)) fun clauses hclauses => ?_
  refine .bind (keeps_braced hI hinside) fun inside hinside => .pure ?_
  simp only [List.forall_mem_append]
  exact ⟨⟨⟨hQ.atomics hname, hQ.all_mono (by omega) hgenerics⟩,
    hQ.all_mono (by omega) hclauses⟩, hinside⟩

theorem keeps_interfaceParts :
    Keeps I interfaceParts fun nodes => ∀ node ∈ nodes, Q (6 * maxDepth + 3) node :=
  .bind (keeps_identifier hI _) fun name hname =>
    have hname : ∀ node ∈ [name], Atomic node := by simpa using hname
    keeps_clauses hI hQ hname (keeps_typeMembers hI hQ (keeps_type hI hQ))

theorem keeps_classParts :
    Keeps I classParts fun nodes => ∀ node ∈ nodes, Q (6 * maxDepth + 3) node := by
  have hname : Keeps I className fun nodes => ∀ node ∈ nodes, Atomic node :=
    .look fun _ _ => .ite
      (.bind (keeps_identifier hI _) fun _ hname => .pure (by simpa using hname))
      (.pure (by simp))
  exact .bind hname fun _ hname =>
    keeps_clauses hI hQ hname (keeps_classMembers hI hQ (keeps_type hI hQ))

theorem keeps_typeAliasParts :
    Keeps I typeAliasParts fun nodes => ∀ node ∈ nodes, Q (6 * maxDepth + 3) node := by
  refine .bind (keeps_identifier hI _) fun name hname => ?_
  refine .bind (keeps_typeParametersIfAny hI hQ (keeps_type hI hQ)) fun generics hgenerics => ?_
  refine .bind (.expect hI _) fun _ _ => .bind (keeps_type hI hQ) fun meaning hmeaning => ?_
  refine .bind (.accept hI _) fun _ _ => .pure ?_
  have hbefore := List.forall_mem_cons.mpr
    ⟨hQ.atomic hname, hQ.all_mono (show 6 * maxDepth + 2 ≤ 6 * maxDepth + 3 by omega) hgenerics⟩
  exact List.forall_mem_append.mpr ⟨hbefore, by simpa using hQ.mono (by omega) hmeaning⟩

theorem keeps_enumParts :
    Keeps I enumParts fun nodes => ∀ node ∈ nodes, Q (6 * maxDepth + 3) node :=
  .bind (keeps_identifier hI _) fun _ hname => .look fun _ _ => .ite
    (.bind (keeps_skipGroup hI) fun _ _ => .pure (by simpa using hQ.atomic hname)) (.fail hI _)

theorem keeps_moduleName (n : Nat) : Keeps I moduleName (Q (n + 2)) := by
  refine .look fun s _ => ?_
  cases s.rest with
  | nil => exact keeps_entityName hI hQ n
  | cons token rest =>
    refine .ite (.bind (.advance hI 1) fun _ _ => .pure ?_) (keeps_entityName hI hQ n)
    exact hQ.atomic (.leaf rfl rfl _ _)

section

variable {block : Parser (List Node)} {n : Nat}
  (hblock : Keeps I block fun nodes => ∀ node ∈ nodes, Q (6 * maxDepth + 3 + n) node)

include hblock

theorem keeps_moduleParts :
    Keeps I (moduleParts block) fun nodes => ∀ node ∈ nodes, Q (6 * maxDepth + 4 + n) node := by
  refine .bind (keeps_moduleName hI hQ (6 * maxDepth + 2 + n)) fun name hname => ?_
  have hname : Q (6 * maxDepth + 4 + n) name := hQ.mono (by omega) hname
  refine .look fun s _ => .ite ?_ (.bind (.accept hI _) fun _ _ => .pure (by simpa using hname))
  refine .bind (keeps_braced hI hblock) fun statements hstatements => .look fun last _ => .pure ?_
  have hinner : Q (6 * maxDepth + 3 + n + 1)
      (Node.inner .moduleBlock s.start last.prevEnd statements) := hQ.inner rfl hstatements
  simpa [hname] using hQ.mono (by omega) hinner

theorem keeps_parts (heading : Heading) :
    Keeps I (heading.parts block) fun nodes => ∀ node ∈ nodes, Q (6 * maxDepth + 4 + n) node := by
  have hraise : ∀ {parts : Parser (List Node)},
      Keeps I parts (fun nodes => ∀ node ∈ nodes, Q (6 * maxDepth + 3) node) →
      Keeps I parts fun nodes => ∀ node ∈ nodes, Q (6 * maxDepth + 4 + n) node :=
    fun h => h.mono fun _ hnodes => hQ.all_mono (by omega) hnodes
  cases heading with
  | ofInterface => exact hraise (keeps_interfaceParts hI hQ)
  | ofClass => exact hraise (keeps_classParts hI hQ)
  | ofTypeAlias => exact hraise (keeps_typeAliasParts hI hQ)
  | ofEnum => exact hraise (keeps_enumParts hI hQ)
  | ofModule => exact keeps_moduleParts hI hQ hblock

theorem keeps_declaration (first : State) (tags : List DocTag) {words : List Node}
    (hwords : ∀ word ∈ words, Atomic word) (heading : Heading) :
    Keeps I (declaration block first tags words heading) fun node? =>
      ∀ node ∈ node?, Q (6 * maxDepth + 5 + n) node := by
  refine .bind (keeps_parts hI hQ hblock heading) fun parts hparts => .look fun last hlast => ?_
  refine .bind (P := fun _ => True) (fun s hs => ⟨hI.declared s _ _ _ hs, trivial⟩) fun _ _ => ?_
  refine .pure fun node hnode => ?_
  cases hnode
  have hchildren : ∀ child ∈ words ++ parts, Q (6 * maxDepth + 4 + n) child :=
    List.forall_mem_append.mpr ⟨hQ.all_mono (by omega) (hQ.atomics (n := 0) hwords), hparts⟩
  refine hQ.mono (show 6 * maxDepth + 4 + n + 1 ≤ _ by omega) ?_
  cases heading <;> exact hQ.inner rfl hchildren

theorem keeps_statement :
    Keeps I (statement block) fun node? => ∀ node ∈ node?, Q (6 * maxDepth + 5 + n) node := by
  refine .look fun first _ => .bind (.takeDocs hI) fun before _ => ?_
  refine .bind (keeps_skipDecorators hI) fun _ _ => .bind (.takeDocs hI) fun behind _ => ?_
  refine .bind (keeps_modifiers hI isModifier_of_statementModifier) fun words hwords => ?_
  refine .look fun s _ => ?_
  cases s.heading? with
  | none => exact .bind (.advance hI _) fun _ _ => .pure nofun
  | some announced =>
    exact .bind (.advance hI _) fun _ _ => keeps_declaration hI hQ hblock _ _ hwords _

theorem keeps_statements :
    Keeps I (statements block) fun nodes => ∀ node ∈ nodes, Q (6 * maxDepth + 5 + n) node :=
  .members hI (keeps_statement hI hQ hblock)

end

theorem keeps_blockWithin (levels : Nat) :
    Keeps I (blockWithin levels) fun nodes =>
      ∀ node ∈ nodes, Q (6 * maxDepth + 3 + 2 * levels) node := by
  induction levels with
  | zero => exact .refuse hI
  | succ levels ih =>
    refine ((keeps_statements hI hQ ih).nested hI).mono fun _ hnodes => ?_
    exact hQ.all_mono (by omega) hnodes

theorem keeps_runsUpTo (count : Nat) :
    Keeps I (runsUpTo count) fun nodes => ∀ node ∈ nodes, Q (8 * maxDepth + 5) node := by
  induction count with
  | zero => exact .pure (by simp)
  | succ count ih =>
    have hstatements := keeps_statements hI hQ (keeps_blockWithin hI hQ maxDepth)
    refine .bind (P := fun nodes => ∀ node ∈ nodes, Q (8 * maxDepth + 5) node)
      (hstatements.mono fun _ hnodes => hQ.all_mono (by omega) hnodes) fun nodes hnodes => ?_
    refine .lookAt fun s hs => ?_
    split
    · have hrest : Keeps I (do return nodes ++ (← runsUpTo count) : Parser (List Node))
          fun nodes => ∀ node ∈ nodes, Q (8 * maxDepth + 5) node :=
        .bind ih fun others hothers => .pure (List.forall_mem_append.mpr ⟨hnodes, hothers⟩)
      exact hrest s.passStrayBrace (hI.advance _ 1 (hI.failed s .strayBrace hs))
    · exact ⟨hs, hnodes⟩

/-- What holds of the first state holds of the last, and what grows from the leaves of a tree
holds of every node that is read, at a bound that does not depend on the source. -/
theorem Keeps.sourceFile :
    Keeps I sourceFile fun nodes => ∀ node ∈ nodes, Q (8 * maxDepth + 5) node :=
  fun s hs => keeps_runsUpTo hI hQ (s.rest.length + 1) s hs

end

/-- What holds of every node that is made, be the nodes below it what they may, holds of
all nodes of a tree. -/
theorem grows_everywhere {I : State → Prop} {P : Node → Prop}
    (inner : ∀ node : Node, node.kind.isOrdinary || node.kind.isSuffixed → P node)
    (literal : ∀ kind text span, NodeKind.isLiteral kind → P (Node.leaf kind text span))
    (annotated : ∀ node, Annotated I node → P node) :
    Grows I fun _ node => ∀ below ∈ node.preorder, P below := by
  have hall : ∀ {node : Node}, P node →
      (∀ child ∈ node.children, ∀ below ∈ child.preorder, P below) →
      ∀ below ∈ node.preorder, P below :=
    fun hnode hchildren => Node.forall_mem_preorder_iff.mpr ⟨hnode, hchildren⟩
  exact {
    mono := fun _ h => h
    inner := fun hkind hchildren => hall (inner _ (by simp [hkind])) hchildren
    literal := fun hkind => hall (literal _ _ _ hkind) (by simp [Node.leaf])
    annotated := fun h hchildren => hall (annotated _ h) hchildren
    array := fun h => hall (inner _ rfl) (by simpa using h)
    indexed := fun h h' => hall (inner _ rfl) (by simpa using ⟨h, h'⟩) }

/-- What holds of all nodes anyway. -/
theorem grows_trivial (I : State → Prop) : Grows I fun _ _ => True := by
  constructor <;> intros <;> trivial

end Parser

theorem Parse.root_eq {source : String} {nodes : List Node} {t : Parser.State}
    (h : Parser.sourceFile (.ofSource source) = (.ok nodes, t)) :
    (Parse.ofSource source).root =
      ⟨.sourceFile, none, [], ⟨0, source.utf8ByteSize⟩, nodes⟩ := by
  rw [Parse.ofSource, h]
  rfl

/-- So it holds of all nodes of every source. -/
theorem Parse.forall_descendants {P : Node → Prop} (source : String)
    (inner : ∀ node : Node, node.kind.isOrdinary || node.kind.isSuffixed → P node)
    (literal : ∀ kind text span, NodeKind.isLiteral kind → P (Node.leaf kind text span))
    (annotated : ∀ node, Parser.Annotated (Parser.State.StandsIn source) node → P node) :
    ∀ node ∈ (Parse.ofSource source).root.descendants, P node := by
  have hgrows := Parser.grows_everywhere inner literal annotated
  have hkeeps := Parser.Keeps.sourceFile (Parser.steady_standsIn source) hgrows
  obtain ⟨nodes, t, hrun⟩ := Parser.sourceFile_eq_ok (.ofSource source)
  rw [Parse.root_eq hrun, Node.descendants_eq]
  exact hgrows.inner (n := 8 * Parser.maxDepth + 5) rfl
    (hkeeps.of_ok (Parser.State.standsIn_ofSource source) hrun).2

end DeclSchema
