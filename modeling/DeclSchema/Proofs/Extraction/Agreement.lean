import DeclSchema.Proofs.Extraction.Leaves
import DeclSchema.Proofs.Parser.Building

/-!
# Annotations as the parser makes them

The parser gives every type node the children that its kind asks for, and a member at most
one type. So what guards against other trees when an annotation is looked at is never
needed: no group is empty, no reference is without a name, no literal type without a
literal, and no text is looked up in place of a type. What is left are types that cannot be
expressed or are not mapped, literals without a value, and the two references that lack
what they stand for.
-/

namespace DeclSchema

namespace Resolution

section

variable (fallback : NodeKind → Option String → Except ExtractionError Resolution)

mutual

/-- What a node means as an annotation, where something else may be done with a node that
is no type than looking its text up. -/
def ofNodeBy : Node → Except ExtractionError Resolution
  | ⟨kind, text, _, _, children⟩ =>
    if unsupported kind then
      .error (.unsupportedKind kind)
    else if unmapped kind then
      .error (.unmappedKind kind)
    else
      match simpleType? kind with
      | some type => .ok (single (.simple type))
      | none =>
        match kind with
        | .literalType => ofLiterals children
        | .typeQuery =>
          match target? children with
          | some name => .ok (single (.reference name))
          | none => .error .namelessReference
        | .typeReference =>
          match target? children with
          | none => .error .namelessReference
          | some name =>
            if isPlain children && name = "ReturnType" then
              ofFirstBy (.missingQuery name) (· == .typeQuery) children
            else if isPlain children && name = "Readonly" then
              ofFirstBy (.missingArgument name) NodeKind.isType children
            else
              .ok (single (.reference name))
        | .parenthesizedType | .unionType | .arrayType =>
          match typesOfBy children with
          | .ok types => ofNested kind types
          | .error error => .error error
        | _ => fallback kind text

/-- What the first node of an accepted kind means. -/
def ofFirstBy (missing : ExtractionError) (accepts : NodeKind → Bool) :
    List Node → Except ExtractionError Resolution
  | [] => .error missing
  | node :: rest => if accepts node.kind then ofNodeBy node else ofFirstBy missing accepts rest

/-- The types that the type nodes among several nodes mean, one after the other. -/
def typesOfBy : List Node → Except ExtractionError (List TypeVariant)
  | [] => .ok []
  | node :: rest =>
    if node.kind.isType then
      match ofNodeBy node with
      | .error error => .error error
      | .ok resolution =>
        match typesOfBy rest with
        | .error error => .error error
        | .ok types => .ok (resolution.types ++ types)
    else
      typesOfBy rest

end

end

theorem isType_of_typeQuery (kind : NodeKind) (h : kind == .typeQuery) : kind.isType := by
  rw [beq_iff_eq.mp h]
  rfl

/-- The types mean the same if the first one does, should it be a type, and the others do. -/
theorem typesOfBy_cons {fallback : NodeKind → Option String → Except ExtractionError Resolution}
    {node : Node} {rest : List Node}
    (hnode : node.kind.isType → ofNodeBy fallback node = ofNode node)
    (hrest : typesOfBy fallback rest = typesOf rest) :
    typesOfBy fallback (node :: rest) = typesOf (node :: rest) := by
  cases htype : node.kind.isType with
  | false => simp [typesOfBy, typesOf, htype, hrest]
  | true =>
    have hfirst := hnode htype
    cases hmeant : ofNode node <;> cases hothers : typesOf rest <;>
      simp [typesOfBy, typesOf, htype, hfirst, hrest, hmeant, hothers]

mutual

/-- Looking the text up is what is done with it. -/
theorem ofNodeBy_ofText : ∀ node : Node, ofNodeBy ofText node = ofNode node
  | ⟨kind, text, tags, span, children⟩ => by
    have hfirst := fun missing accepts => ofFirstBy_ofText missing accepts children
    have htypes := typesOfBy_ofText children
    simp only [ofNodeBy.eq_def, hfirst, htypes]
    cases kind <;> exact (ofNode.eq_def ⟨_, text, tags, span, children⟩).symm

theorem ofFirstBy_ofText (missing : ExtractionError) (accepts : NodeKind → Bool) :
    ∀ nodes : List Node, ofFirstBy ofText missing accepts nodes = ofFirst missing accepts nodes
  | [] => rfl
  | node :: rest => by
    rw [ofFirstBy, ofFirst, ofNodeBy_ofText node, ofFirstBy_ofText missing accepts rest]

theorem typesOfBy_ofText : ∀ nodes : List Node, typesOfBy ofText nodes = typesOf nodes
  | [] => rfl
  | node :: rest => typesOfBy_cons (fun _ => ofNodeBy_ofText node) (typesOfBy_ofText rest)

end

mutual

/-- Of a type nothing is looked up, at any place in it. -/
theorem ofNodeBy_eq (fallback : NodeKind → Option String → Except ExtractionError Resolution) :
    ∀ node : Node, node.kind.isType → ofNodeBy fallback node = ofNode node
  | ⟨kind, text, tags, span, children⟩, htype => by
    have hreadonly := fun missing => ofFirstBy_eq fallback missing (fun _ h => h) children
    have hreturn := fun missing => ofFirstBy_eq fallback missing isType_of_typeQuery children
    have htypes := typesOfBy_eq fallback children
    rw [ofNodeBy.eq_def, ofNode.eq_def]
    simp only [hreadonly, hreturn, htypes]
    -- every kind of types has a rule of its own
    cases kind <;> first | rfl | cases htype

theorem ofFirstBy_eq (fallback : NodeKind → Option String → Except ExtractionError Resolution)
    (missing : ExtractionError) {accepts : NodeKind → Bool}
    (haccepts : ∀ kind, accepts kind → kind.isType) : ∀ nodes : List Node,
      ofFirstBy fallback missing accepts nodes = ofFirst missing accepts nodes
  | [] => rfl
  | node :: rest => by
    rw [ofFirstBy, ofFirst, ofFirstBy_eq fallback missing haccepts rest]
    split
    · next h => exact ofNodeBy_eq fallback node (haccepts _ h)
    · rfl

theorem typesOfBy_eq (fallback : NodeKind → Option String → Except ExtractionError Resolution) :
    ∀ nodes : List Node, typesOfBy fallback nodes = typesOf nodes
  | [] => rfl
  | node :: rest => typesOfBy_cons (ofNodeBy_eq fallback node) (typesOfBy_eq fallback rest)

end

/-- The errors that an annotation of a source can have. The text of a number stands
somewhere in the annotation. -/
inductive Lacks (node : Node) : ExtractionError → Prop
  | unsupported {kind : NodeKind} (h : unsupported kind) : Lacks node (.unsupportedKind kind)
  | unmapped {kind : NodeKind} (h : unmapped kind) : Lacks node (.unmappedKind kind)
  | truth : Lacks node .booleanLiteral
  | number {literal : Node} {text : String} (h : literal ∈ node.preorder)
    (kind : literal.kind = .numericLiteral) (htext : literal.text = some text)
    (value : NumericLiteral.value? text = none) : Lacks node (.unsupportedType text)
  | query : Lacks node (.missingQuery "ReturnType")
  | argument : Lacks node (.missingArgument "Readonly")

/-- The numbers in a tree have a text. -/
def Numbered (node : Node) : Prop :=
  ∀ inner ∈ node.preorder, inner.kind = .numericLiteral → ∃ text, inner.text = some text

theorem Numbered.of_mem {node child : Node} (h : Numbered node) (hchild : child ∈ node.children) :
    Numbered child :=
  fun inner hinner => h inner (Node.mem_preorder_of_mem hchild hinner)

theorem Lacks.of_mem {node child : Node} (hchild : child ∈ node.children) {error : ExtractionError}
    (h : Lacks child error) : Lacks node error := by
  cases h with
  | unsupported h => exact .unsupported h
  | unmapped h => exact .unmapped h
  | truth => exact .truth
  | number h hkind htext hvalue =>
    exact .number (Node.mem_preorder_of_mem hchild h) hkind htext hvalue
  | query => exact .query
  | argument => exact .argument

theorem ofLiterals_singleton (literal : Node) :
    ofLiterals [literal] = match literal? literal with
      | .error error => .error error
      | .ok none => .error .emptyLiteral
      | .ok (some value) => .ok (single (.restricted [value])) := by
  rw [ofLiterals, List.mapM_cons, List.mapM_nil]
  rcases literal? literal with error | _ | value <;> rfl

/-- A literal type has a literal, so at most its value is missing. -/
theorem lacks_of_literal {node literal : Node} (hchildren : node.children = [literal])
    (hliteral : literal.kind.isLiteral) (hnumbered : Numbered node) {error : ExtractionError}
    (hrun : ofLiterals node.children = .error error) : Lacks node error := by
  have hmem : literal ∈ node.preorder :=
    Node.mem_preorder_of_mem (hchildren ▸ List.mem_singleton_self literal) literal.mem_preorder_self
  rw [hchildren, ofLiterals_singleton, literal?] at hrun
  cases hkind : literal.kind with
  | stringLiteral =>
    rw [hkind] at hrun
    cases hrun
  | numericLiteral =>
    obtain ⟨text, htext⟩ := hnumbered literal hmem hkind
    rw [hkind, htext, Option.getD_some] at hrun
    cases hvalue : NumericLiteral.value? text with
    | some value => simp [hvalue] at hrun
    | none =>
      simp only [hvalue, Except.error.injEq] at hrun
      subst hrun
      exact .number hmem hkind htext hvalue
  | trueKeyword | falseKeyword =>
    rw [hkind] at hrun
    cases hrun
    exact .truth
  | _ =>
    rw [hkind] at hliteral
    exact absurd hliteral Bool.false_ne_true

/-- The types that mean no other type. -/
theorem lacks_of_other {node : Node} (hformed : Node.Formed node.kind node.children)
    (hnumbered : Numbered node) (htype : node.kind.isType) (hgroups : ¬ Groups node.kind)
    (hreference : node.kind ≠ .typeReference) {error : ExtractionError}
    (hrun : ofNode node = .error error) : Lacks node error := by
  obtain ⟨kind, text, tags, span, children⟩ := node
  rw [ofNode.eq_def] at hrun
  cases kind with
  | literalType =>
    obtain ⟨literal, hchildren, hliteral⟩ := hformed
    exact lacks_of_literal hchildren hliteral hnumbered hrun
  | typeQuery =>
    obtain ⟨name, hname⟩ : ∃ name, target? children = some name := exists_target? hformed
    simp [unsupported, unmapped, simpleType?, hname] at hrun
  | typeReference => exact absurd rfl hreference
  | parenthesizedType => exact absurd (.inl rfl) hgroups
  | unionType => exact absurd (.inr (.inl rfl)) hgroups
  | arrayType => exact absurd (.inr (.inr rfl)) hgroups
  | tupleType | spreadElement | intersectionType | indexedAccessType =>
    cases hrun
    exact .unmapped rfl
  | bigIntKeyword | symbolKeyword | neverKeyword | interfaceKeyword | classKeyword
  | functionKeyword | objectKeyword | enumKeyword | unknownKeyword | functionType
  | typeLiteral =>
    cases hrun
    exact .unsupported rfl
  | anyKeyword | booleanKeyword | numberKeyword | stringKeyword | voidKeyword | nullKeyword
  | undefinedKeyword => cases hrun
  | _ => cases htype

mutual

theorem lacks_ofNode : ∀ (node : Node) (_ : node.Shaped) (_ : Numbered node)
    (_ : node.kind.isType) (error : ExtractionError), ofNode node = .error error → Lacks node error
  | ⟨kind, text, tags, span, children⟩, hshaped, hnumbered, htype, error, hrun => by
    obtain ⟨hformed, hchildren⟩ := Node.shaped_mk.mp hshaped
    have hall : ∀ child ∈ children, Numbered child := fun _ hchild => hnumbered.of_mem hchild
    by_cases hgroups : Groups kind
    · rw [ofNode_of_groups hgroups] at hrun
      cases htypes : typesOf children with
      | error other =>
        rw [htypes] at hrun
        cases hrun
        obtain ⟨child, hchild, hlacks⟩ := lacks_typesOf children hchildren hall error htypes
        exact hlacks.of_mem hchild
      | ok types =>
        have hne := typesOf_ne_nil hchildren (exists_type_of_groups hgroups hformed) htypes
        rw [htypes] at hrun
        simp [ofNested, hne] at hrun
    by_cases hreference : kind = .typeReference
    · subst hreference
      rw [ofNode_reference hformed] at hrun
      split at hrun
      · rcases lacks_ofFirst children hchildren hall (fun _ h => h) hrun with
          rfl | ⟨child, hchild, hlacks⟩
        · exact .argument
        · exact hlacks.of_mem hchild
      · split at hrun
        · rcases lacks_ofFirst children hchildren hall isType_of_typeQuery hrun with
            rfl | ⟨child, hchild, hlacks⟩
          · exact .query
          · exact hlacks.of_mem hchild
        · cases hrun
    exact lacks_of_other hformed hnumbered htype hgroups hreference hrun

theorem lacks_ofFirst : ∀ (nodes : List Node) (_ : Node.AllShaped nodes)
    (_ : ∀ node ∈ nodes, Numbered node) {missing : ExtractionError} {accepts : NodeKind → Bool}
    (_ : ∀ kind, accepts kind → kind.isType) {error : ExtractionError},
    ofFirst missing accepts nodes = .error error →
      error = missing ∨ ∃ node ∈ nodes, Lacks node error
  | [], _, _, missing, accepts, _, error, hrun => by
    cases hrun
    exact .inl rfl
  | node :: rest, hshaped, hnumbered, missing, accepts, haccepts, error, hrun => by
    obtain ⟨hnode, hrest⟩ := Node.allShaped_cons.mp hshaped
    obtain ⟨hnode', hrest'⟩ := List.forall_mem_cons.mp hnumbered
    rw [ofFirst] at hrun
    split at hrun
    · next h =>
      exact .inr ⟨node, List.mem_cons_self,
        lacks_ofNode node hnode hnode' (haccepts _ h) error hrun⟩
    · refine (lacks_ofFirst rest hrest hrest' haccepts hrun).imp_right fun ⟨other, hother, h⟩ => ?_
      exact ⟨other, List.mem_cons_of_mem _ hother, h⟩

theorem lacks_typesOf : ∀ (nodes : List Node) (_ : Node.AllShaped nodes)
    (_ : ∀ node ∈ nodes, Numbered node) (error : ExtractionError),
    typesOf nodes = .error error → ∃ node ∈ nodes, Lacks node error
  | [], _, _, error, hrun => by
    cases hrun
  | node :: rest, hshaped, hnumbered, error, hrun => by
    obtain ⟨hnode, hrest⟩ := Node.allShaped_cons.mp hshaped
    obtain ⟨hnode', hrest'⟩ := List.forall_mem_cons.mp hnumbered
    have hothers : typesOf rest = .error error → ∃ other ∈ node :: rest, Lacks other error := by
      intro h
      obtain ⟨other, hother, hlacks⟩ := lacks_typesOf rest hrest hrest' error h
      exact ⟨other, List.mem_cons_of_mem _ hother, hlacks⟩
    rw [typesOf] at hrun
    split at hrun
    · next htype =>
      cases hresolution : ofNode node with
      | error other =>
        rw [hresolution] at hrun
        cases hrun
        exact ⟨node, List.mem_cons_self, lacks_ofNode node hnode hnode' htype error hresolution⟩
      | ok resolution =>
        rw [hresolution] at hrun
        cases htypes : typesOf rest with
        | error other =>
          rw [htypes] at hrun
          cases hrun
          exact hothers htypes
        | ok types =>
          rw [htypes] at hrun
          cases hrun
    · exact hothers hrun

end

theorem exists_text_of_mem (source : String) :
    ∀ node ∈ (Parse.ofSource source).root.descendants, node.kind = .numericLiteral →
      ∃ text, node.text = some text := by
  refine Parse.forall_descendants source ?_ (fun _ text _ _ _ => ⟨text, rfl⟩) ?_
  · intro node hordinary hkind
    rw [hkind] at hordinary
    exact absurd hordinary Bool.false_ne_true
  · rintro node ⟨hmember, -⟩ hkind
    cases hkind
    exact absurd hmember Bool.false_ne_true

theorem numbered_of_mem {source : String} {node : Node}
    (hnode : node ∈ (Parse.ofSource source).root.descendants) : Numbered node := by
  intro inner hinner
  rw [Node.descendants_eq] at hnode
  refine exists_text_of_mem source inner ?_
  rw [Node.descendants_eq]
  exact Node.mem_preorder_trans _ hnode hinner

/-- What a member says about its type. Reading stands in `w` behind its other parts, and in
`v` behind its type. -/
inductive Says (w v : Parser.State) : List Node → Prop
  | type {levels : Nat} {type : Node} (colon : w.isAt .colon)
    (read : Parser.typeWithin levels (w.advance 1) = (.ok type, v)) : Says w v [type]
  | nothing (colon : ¬ w.isAt .colon) (stays : v = w) : Says w v []

/-- What is read behind a colon, if one comes next, is a type. -/
theorem says_of_optional {levels : Nat} {w v : Parser.State} {nodes : List Node}
    (hspelled : w.Spelled)
    (hrun : Parser.optional (Parser.accept .colon) (Parser.typeWithin levels) w =
      (.ok nodes, v)) :
    Says w v nodes ∧ ∀ node ∈ nodes, node.kind.isType := by
  unfold Parser.optional at hrun
  by_cases hcolon : w.isAt .colon
  · rw [Parser.bind_apply_ok (Parser.accept_of_isAt hcolon), if_pos rfl] at hrun
    obtain ⟨type, u, htype, hrest⟩ := Parser.exists_of_bind_ok hrun
    cases hrest
    have hgives := Parser.gives_typeWithin levels (w.advance 1)
      (hspelled.after (w.rest_advance 1 ▸ List.drop_suffix 1 _)) type _ htype
    exact ⟨.type hcolon htype, by simpa using hgives.isType⟩
  · rw [Parser.bind_apply_ok (Parser.accept_of_not_isAt hcolon)] at hrun
    cases hrun
    exact ⟨.nothing hcolon rfl, by simp⟩

theorem spelled_of_standsIn {source : String} {s : Parser.State} (h : s.StandsIn source) :
    s.Spelled := by
  obtain ⟨count, hrest, -⟩ := h
  intro token htoken
  rw [hrest, Parser.State.rest_advance] at htoken
  exact TokenStream.spelled_ofSource source token (List.drop_subset _ _ htoken)

/-- The last children of a member are what it says about its type, and they are its only
children that are types. -/
structure AnnotatedBy (source : String) (node : Node) (nodes : List Node) : Prop where
  single : nodes.length ≤ 1
  types : node.children.filter (·.kind.isType) = nodes
  read : ∃ parts s w v t, node.children = parts ++ nodes ∧
    node.span = .ofBounds s.start t.prevEnd ∧ s.StandsIn source ∧
    Parser.Within (Parser.State.StandsIn source) s w ∧ Says w v nodes ∧
    Parser.Within (Parser.State.StandsIn source) v t

theorem exists_annotation {source : String} {node : Node}
    (h : Parser.Annotated (Parser.State.StandsIn source) node) :
    ∃ nodes, AnnotatedBy source node nodes := by
  obtain ⟨-, hstarts, hbefore, hplain, hread, hbehind⟩ := h
  rename_i tags parts nodes levels s w v t
  obtain ⟨hstated, htypes⟩ := says_of_optional (spelled_of_standsIn hbefore.1) hread
  have hparts : parts.filter (·.kind.isType) = [] :=
    List.filter_eq_nil_iff.mpr hplain
  have hnodes : nodes.filter (·.kind.isType) = nodes :=
    List.filter_eq_self.mpr htypes
  refine ⟨nodes, ?_, ?_, parts, s, w, v, t, rfl, rfl, hstarts, hbefore, hstated, hbehind⟩
  · cases hstated <;> simp
  · rw [List.filter_append, hparts, hnodes, List.nil_append]

theorem exists_annotation_of_mem {source : String} :
    ∀ node ∈ (Parse.ofSource source).root.descendants, node.kind.isAnnotated →
      ∃ nodes, AnnotatedBy source node nodes := by
  refine Parse.forall_descendants source ?_ ?_ fun _ h _ => exists_annotation h
  · intro node hordinary hmember
    generalize node.kind = kind at hordinary hmember
    cases kind <;> first | exact absurd hmember Bool.false_ne_true | cases hordinary
  · intro kind text span hliteral hmember
    change kind.isAnnotated at hmember
    cases kind <;> first | exact absurd hmember Bool.false_ne_true | cases hliteral

/-- What the parser makes of types is what is looked for in them. A type in a source means
something, or lacks one of the things in `Lacks`; it never matters what would be done with
a node that is no type. A member has at most one child that is a type, which is what it
says behind a colon. -/
theorem ofNode_agrees (source : String) :
    (∀ node, ofNodeBy ofText node = ofNode node) ∧
      ∀ node ∈ (Parse.ofSource source).root.descendants,
        (node.kind.isType → (∀ error, ofNode node = .error error → Lacks node error) ∧
          ∀ fallback, ofNodeBy fallback node = ofNode node) ∧
        (node.kind.isAnnotated → ∃ nodes, AnnotatedBy source node nodes) := by
  refine ⟨ofNodeBy_ofText, fun node hnode => ⟨fun htype => ⟨?_, ?_⟩, ?_⟩⟩
  · exact lacks_ofNode node (Parse.shaped_of_mem hnode) (numbered_of_mem hnode) htype
  · exact fun fallback => ofNodeBy_eq fallback node htype
  · exact exists_annotation_of_mem node hnode

/-- A reference `Readonly` without an argument lacks it, also as the type of a member. -/
theorem ofNode_agrees_readonly :
    let source := "interface A { b: Readonly }"
    (∃ type ∈ (Parse.ofSource source).root.descendants,
      ofNode type = .error (.missingArgument "Readonly") ∧
        Lacks type (.missingArgument "Readonly")) ∧
      ∃ member ∈ (Parse.ofSource source).root.descendants,
        ∃ type, member.kind = .propertySignature ∧ AnnotatedBy source member [type] := by
  intro source
  have hagrees := (ofNode_agrees source).2
  have hmissing : (Parse.ofSource source).root.descendants.any fun type =>
      type.kind.isType && decide (ofNode type = .error (.missingArgument "Readonly")) := by
    decide +kernel
  have hmember : (Parse.ofSource source).root.descendants.any fun member =>
      member.kind == .propertySignature && member.children.any (·.kind.isType) := by
    decide +kernel
  obtain ⟨type, htype, hresult⟩ := List.any_eq_true.mp hmissing
  obtain ⟨member, hmember, hchild⟩ := List.any_eq_true.mp hmember
  rw [Bool.and_eq_true, decide_eq_true_iff] at hresult
  rw [Bool.and_eq_true, beq_iff_eq, List.any_eq_true] at hchild
  refine ⟨⟨type, htype, hresult.2, ((hagrees type htype).1 hresult.1).1 _ hresult.2⟩,
    member, hmember, ?_⟩
  obtain ⟨nodes, hnodes⟩ := (hagrees member hmember).2 (by rw [hchild.1]; rfl)
  obtain ⟨child, hmem, hkind⟩ := hchild.2
  have hin : child ∈ nodes := hnodes.types ▸ List.mem_filter.mpr ⟨hmem, hkind⟩
  obtain ⟨first, rfl⟩ := List.length_eq_one_iff.mp
    (Nat.le_antisymm hnodes.single (List.length_pos_of_mem hin))
  exact ⟨first, hchild.1, hnodes⟩

end Resolution

end DeclSchema
