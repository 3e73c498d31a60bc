import DeclSchema.Proofs.Parser.Reading

/-!
# Progress

What a parser leaves is the end of what it was given, documentation is only taken, and the
journal and the errors only grow. This holds in every state, and is found by instance
search for composed parsers. Some parsers moreover read at least one token where they
succeed. The bounds on repetition are chosen so large that they are never reached: with
progress, any larger bound gives the same.
-/

/- The longest parsers have more parts than instance search allows by default. -/
set_option synthInstance.maxSize 1024

namespace DeclSchema.Parser

/-- Reading on leads from one state to another: it leaves an end of the tokens and some of
the documentation, and only adds to the journal and to the errors. -/
structure State.LeadsTo (s t : State) : Prop where
  rest : t.rest <:+ s.rest
  journal : s.journal <+: t.journal
  docs : t.docs.Sublist s.docs
  errors : s.errors <+: t.errors

namespace State.LeadsTo

variable {s t u : State}

theorem refl (s : State) : s.LeadsTo s :=
  ⟨List.suffix_refl _, List.prefix_refl _, List.Sublist.refl _, List.prefix_refl _⟩

theorem trans (h : s.LeadsTo t) (h' : t.LeadsTo u) : s.LeadsTo u :=
  ⟨h'.rest.trans h.rest, h.journal.trans h'.journal, h'.docs.trans h.docs,
    h.errors.trans h'.errors⟩

theorem advance (s : State) (count : Nat) : s.LeadsTo (s.advance count) :=
  { refl s with rest := List.drop_suffix _ _ }

theorem note (s : State) (event : Event) : s.LeadsTo (s.note event) :=
  { refl s with journal := List.prefix_append _ _ }

theorem record (s : State) (error : ParseError) : s.LeadsTo (s.record error) :=
  { refl s with errors := List.prefix_append _ _ }

end State.LeadsTo

/-- The parser only reads on, whether it succeeds or fails. -/
class Forward (p : Parser α) : Prop where
  leadsTo : ∀ s : State, s.LeadsTo (p s).2

namespace Forward

variable {α β : Type} {p : Parser α} {f : α → Parser β}

section

variable [Forward p] (s : State)

theorem rest : (p s).2.rest <:+ s.rest :=
  (leadsTo s).rest

theorem journal : s.journal <+: (p s).2.journal :=
  (leadsTo s).journal

theorem docs : (p s).2.docs.Sublist s.docs :=
  (leadsTo s).docs

theorem errors : s.errors <+: (p s).2.errors :=
  (leadsTo s).errors

end

theorem of_run [Forward p] {s t : State} {result : Except ParseError α}
    (h : p s = (result, t)) : s.LeadsTo t := by
  have hleads := leadsTo (p := p) s
  rwa [h] at hleads

instance pure (a : α) : Forward (Pure.pure a : Parser α) where
  leadsTo s := .refl s

/-- What follows a parser reads on from where it ended. -/
theorem leadsTo_bind [∀ a, Forward (f a)] (s : State) : (p s).2.LeadsTo ((p >>= f) s).2 := by
  rcases hp : p s with ⟨error | a, t⟩
  · rw [bind_apply_error hp]
    exact .refl t
  · rw [bind_apply_ok hp]
    exact leadsTo t

instance bind [Forward p] [∀ a, Forward (f a)] : Forward (p >>= f) where
  leadsTo s := (leadsTo (p := p) s).trans (leadsTo_bind s)

instance map [Forward p] (g : α → β) : Forward (g <$> p) :=
  inferInstanceAs (Forward (p >>= fun a => Pure.pure (g a)))

theorem leadsTo_map (g : α → β) (s : State) : (p s).2.LeadsTo ((g <$> p) s).2 :=
  leadsTo_bind (f := fun a => Pure.pure (g a)) s

/-- As `bind`, where what follows needs a case distinction. -/
theorem after [Forward p] (h : ∀ a, Forward (f a)) : Forward (p >>= f) :=
  inferInstance

instance look : Forward look where
  leadsTo s := .refl s

instance ite {c : Prop} [Decidable c] {q : Parser α} [Forward p] [Forward q] :
    Forward (if c then p else q) := by
  split <;> infer_instance

instance fail (fault : Fault) : Forward (fail fault : Parser α) where
  leadsTo s := .refl s

instance note (event : Event) : Forward (note event) where
  leadsTo s := .note s event

instance refuse : Forward (refuse : Parser α) :=
  inferInstanceAs (Forward (do Parser.note .refused; Parser.fail .nestingTooDeep))

instance report (error : ParseError) : Forward (report error) where
  leadsTo s := .record s error

instance attempt [Forward p] : Forward (attempt p) where
  leadsTo s := Forward.leadsTo (p := p) s

instance takeDocs : Forward takeDocs where
  leadsTo s := by
    unfold Parser.takeDocs
    split
    · exact .refl s
    · exact { State.LeadsTo.refl s with docs := List.filter_sublist }

instance advance (count : Nat) : Forward (advance count) where
  leadsTo s := .advance s count

instance nested [Forward p] : Forward (nested p) where
  leadsTo s := by
    unfold Parser.nested
    split
    · exact Forward.leadsTo s
    · have hp := Forward.leadsTo (p := p) { s with depth := s.depth + 1 }
      exact ⟨hp.rest, hp.journal, hp.docs, hp.errors⟩

instance token (kind : TokenKind) (what : Wanted) : Forward (token kind what) where
  leadsTo s := by
    unfold Parser.token
    split
    · exact Forward.leadsTo s
    · split
      · exact .advance s 1
      · exact Forward.leadsTo s

instance expect (kind : TokenKind) : Forward (expect kind) :=
  Forward.token _ _

instance accept (kind : TokenKind) : Forward (accept kind) where
  leadsTo s := by
    unfold Parser.accept
    split
    · exact .advance s 1
    · exact .refl s

instance acceptWord (word : String) : Forward (acceptWord word) where
  leadsTo s := by
    unfold Parser.acceptWord
    split
    · exact .advance s 1
    · exact .refl s

instance optional {test : Parser Bool} [Forward test] [Forward p] : Forward (optional test p) := by
  unfold Parser.optional
  infer_instance

instance upTo {continues : State → Bool} [Forward p] (count : Nat) :
    Forward (upTo continues p count) := by
  induction count with
  | zero => exact Forward.pure []
  | succ count ih =>
    unfold Parser.upTo
    infer_instance

instance repeatWhile {continues : State → Bool} [Forward p] : Forward (repeatWhile continues p) where
  leadsTo s := Forward.leadsTo (p := Parser.upTo continues p s.rest.length) s

instance separated {separator : TokenKind} [Forward p] : Forward (separated separator p) := by
  unfold Parser.separated
  infer_instance

instance listUpTo {close : TokenKind} [Forward p] (count : Nat) :
    Forward (listUpTo close p count) := by
  induction count with
  | zero => exact Forward.pure []
  | succ count ih =>
    unfold Parser.listUpTo
    infer_instance

instance commaList {close : TokenKind} [Forward p] : Forward (commaList close p) where
  leadsTo s := Forward.leadsTo (p := Parser.listUpTo close p (s.rest.length + 1)) s

instance membersUpTo {separates : TokenKind → Bool} {recovery : List Token → Nat}
    {member : Parser (Option Node)} [Forward member] (count : Nat) :
    Forward (membersUpTo separates recovery member count) := by
  induction count with
  | zero => exact Forward.pure []
  | succ count ih =>
    unfold Parser.membersUpTo
    refine .after fun s => .after fun _ => .after fun t => @ite _ _ _ _ _ inferInstance ?_
    refine .after fun result => ?_
    cases result <;> infer_instance

instance members {separates : TokenKind → Bool} {recovery : List Token → Nat}
    {member : Parser (Option Node)} [Forward member] :
    Forward (members separates recovery member) where
  leadsTo s := Forward.leadsTo (p := Parser.membersUpTo separates recovery member s.rest.length) s

instance identifier (what : Wanted) : Forward (identifier what) := by
  unfold Parser.identifier
  infer_instance

instance entityName : Forward entityName := by
  unfold Parser.entityName
  infer_instance

instance skipGroup : Forward skipGroup := by
  unfold Parser.skipGroup
  infer_instance

instance skipDecorators : Forward skipDecorators := by
  unfold Parser.skipDecorators
  infer_instance

instance skipInitializer (ends : TokenKind → Bool) : Forward (skipInitializer ends) := by
  unfold Parser.skipInitializer
  infer_instance

instance memberName : Forward memberName := by
  refine .after fun s => ?_
  split
  · infer_instance
  · split <;> try infer_instance
    split <;> infer_instance

instance questionMark : Forward questionMark := by
  refine .after fun s => ?_
  split <;> infer_instance

instance modifiers (step : Bool → Token → List Token → ModifierStep) :
    Forward (modifiers step) := by
  refine .after fun s => ?_
  exact inferInstanceAs (Forward (do
    Parser.advance (leadingModifiers step false s.rest).2
    return (leadingModifiers step false s.rest).1))

section

variable {type : Parser Node} [Forward type]

instance typeParameter : Forward (typeParameter type) := by
  unfold Parser.typeParameter
  dsimp only
  infer_instance

instance typeParameters : Forward (typeParameters type) := by
  unfold Parser.typeParameters
  infer_instance

instance typeParametersIfAny : Forward (typeParametersIfAny type) := by
  unfold Parser.typeParametersIfAny
  infer_instance

instance binding : Forward binding := by
  refine .after fun s => ?_
  split
  · infer_instance
  · split <;> infer_instance

instance parameter : Forward (parameter type) := by
  unfold Parser.parameter
  dsimp only
  infer_instance

instance parameters : Forward (parameters type) := by
  unfold Parser.parameters
  infer_instance

instance returnType (withBody : Bool) : Forward (returnType type withBody) where
  leadsTo s := by
    have htype := Forward.leadsTo (p := type) s
    have herrors : (type s).2.errors.take s.errors.length = s.errors :=
      (List.prefix_iff_eq_take.mp htype.errors).symm
    unfold Parser.returnType
    dsimp only
    rw [herrors]
    split
    · exact { htype with errors := List.prefix_refl _ }
    · exact ⟨List.drop_suffix _ _, htype.journal.trans (List.prefix_append _ _), htype.docs,
        List.prefix_refl _⟩

instance body : Forward body := by
  unfold Parser.body
  infer_instance

instance signature (withBody : Bool) : Forward (signature type withBody) := by
  unfold Parser.signature
  infer_instance

instance indexSignature : Forward (indexSignature type) := by
  unfold Parser.indexSignature
  dsimp only
  infer_instance

instance readonlyMark : Forward readonlyMark := by
  refine .after fun s => ?_
  split <;> infer_instance

instance typeMember : Forward (typeMember type) := by
  unfold Parser.typeMember
  dsimp only
  infer_instance

instance typeMembers : Forward (typeMembers type) := by
  unfold Parser.typeMembers
  infer_instance

instance operands {operator : TokenKind} {kind : NodeKind} {operand : Parser Node}
    [Forward operand] : Forward (operands operator kind operand) := by
  unfold Parser.operands
  dsimp only
  infer_instance

instance typeArguments : Forward (typeArguments type) := by
  unfold Parser.typeArguments
  infer_instance

instance functionType : Forward (functionType type) := by
  unfold Parser.functionType
  dsimp only
  infer_instance

instance tupleElement : Forward (tupleElement type) := by
  unfold Parser.tupleElement
  dsimp only
  infer_instance

instance tupleType : Forward (tupleType type) := by
  unfold Parser.tupleType
  dsimp only
  infer_instance

instance parenthesizedType : Forward (parenthesizedType type) := by
  unfold Parser.parenthesizedType
  dsimp only
  infer_instance

instance objectType : Forward (objectType type) := by
  unfold Parser.objectType
  dsimp only
  infer_instance

instance typeQuery : Forward (typeQuery type) := by
  unfold Parser.typeQuery
  dsimp only
  infer_instance

instance typeReference : Forward (typeReference type) := by
  unfold Parser.typeReference
  dsimp only
  infer_instance

instance wordType (token : Token) : Forward (wordType type token) := by
  refine .after fun s => ?_
  dsimp only
  split
  · infer_instance
  · cases NodeKind.keywordType? token.text <;> infer_instance

instance negativeType (sign : Token) : Forward (negativeType sign) := by
  unfold Parser.negativeType
  infer_instance

instance primaryType : Forward (primaryType type) := by
  refine .after fun s => ?_
  split
  · infer_instance
  · split <;> infer_instance

instance suffix (start : Nat) (target : Node) : Forward (suffix type start target) := by
  unfold Parser.suffix
  infer_instance

instance suffixesUpTo (start count : Nat) (target : Node) :
    Forward (suffixesUpTo type start count target) := by
  induction count generalizing target with
  | zero => exact Forward.pure target
  | succ count ih =>
    unfold Parser.suffixesUpTo
    infer_instance

instance postfixType : Forward (postfixType type) := by
  unfold Parser.postfixType
  infer_instance

instance intersectionType : Forward (intersectionType type) := by
  unfold Parser.intersectionType
  infer_instance

instance unionType : Forward (unionType type) := by
  unfold Parser.unionType
  infer_instance

end

instance typeWithin (levels : Nat) : Forward (typeWithin levels) := by
  induction levels with
  | zero => exact Forward.refuse
  | succ levels ih =>
    unfold Parser.typeWithin
    infer_instance

instance type : Forward type :=
  Forward.typeWithin maxDepth

instance classMember {type : Parser Node} [Forward type] : Forward (classMember type) := by
  unfold Parser.classMember
  refine .after fun before => .after fun _ => .after fun behind => .after fun s => ?_
  refine @ite _ _ _ _ _ inferInstance (.after fun words => .after fun t => ?_)
  refine @ite _ _ _ _ _ inferInstance (@ite _ _ _ _ _ inferInstance (.after fun _ => ?_))
  infer_instance

instance classMembers {type : Parser Node} [Forward type] : Forward (classMembers type) := by
  unfold Parser.classMembers
  infer_instance

instance heritageClause : Forward heritageClause := by
  refine .after fun s => ?_
  split <;> infer_instance

instance braced {inside : Parser (List Node)} [Forward inside] : Forward (braced inside) := by
  unfold Parser.braced
  infer_instance

instance interfaceParts : Forward interfaceParts := by
  unfold Parser.interfaceParts
  infer_instance

instance className : Forward className := by
  unfold Parser.className
  infer_instance

instance classParts : Forward classParts := by
  unfold Parser.classParts
  infer_instance

instance typeAliasParts : Forward typeAliasParts := by
  unfold Parser.typeAliasParts
  infer_instance

instance enumParts : Forward enumParts := by
  unfold Parser.enumParts
  infer_instance

instance moduleName : Forward moduleName := by
  refine .after fun s => ?_
  split <;> infer_instance

section

variable {block : Parser (List Node)} [Forward block]

instance moduleParts : Forward (moduleParts block) := by
  unfold Parser.moduleParts
  infer_instance

instance parts (heading : Heading) : Forward (heading.parts block) := by
  cases heading <;> unfold Heading.parts <;> infer_instance

instance declaration (first : State) (tags : List DocTag) (words : List Node)
    (heading : Heading) : Forward (declaration block first tags words heading) := by
  unfold Parser.declaration
  dsimp only
  infer_instance

instance statement : Forward (statement block) := by
  unfold Parser.statement
  refine .after fun first => .after fun before => .after fun _ => .after fun behind => ?_
  refine .after fun words => .after fun s => ?_
  split <;> infer_instance

instance statements : Forward (statements block) := by
  unfold Parser.statements
  infer_instance

end

instance blockWithin (levels : Nat) : Forward (blockWithin levels) := by
  induction levels with
  | zero => exact Forward.refuse
  | succ levels ih =>
    unfold Parser.blockWithin
    infer_instance

instance runsUpTo (count : Nat) : Forward (runsUpTo count) := by
  induction count with
  | zero => exact Forward.pure []
  | succ count ih =>
    unfold Parser.runsUpTo
    infer_instance

end Forward

/-- Where the parser succeeds, it has read a token. -/
def Consumes (p : Parser α) : Prop :=
  ∀ (s t : State) (a : α), p s = (.ok a, t) → t.rest.length < s.rest.length

section

variable {α β : Type} {p : Parser α} {f : α → Parser β}

theorem Consumes.bind [∀ a, Forward (f a)] (hp : Consumes p) : Consumes (p >>= f) := by
  intro s u b h
  rcases hrun : p s with ⟨error | a, t⟩
  · rw [bind_apply_error hrun] at h
    cases h
  · rw [bind_apply_ok hrun] at h
    have hlt := hp s t a hrun
    have hle := (Forward.of_run h).rest.length_le
    exact Nat.lt_of_le_of_lt hle hlt

theorem Consumes.map (hp : Consumes p) (g : α → β) : Consumes (g <$> p) :=
  hp.bind (f := fun a => Pure.pure (g a))

theorem Consumes.after [Forward p] (hf : ∀ a, Consumes (f a)) : Consumes (p >>= f) := by
  intro s u b h
  rcases hrun : p s with ⟨error | a, t⟩
  · rw [bind_apply_error hrun] at h
    cases h
  · rw [bind_apply_ok hrun] at h
    have hle := (Forward.of_run hrun).rest.length_le
    exact Nat.lt_of_lt_of_le (hf a t u b h) hle

/-- What is seen ahead may be what makes sure that something is read. -/
theorem Consumes.look {f : State → Parser β}
    (hf : ∀ (s t : State) (b : β), f s s = (.ok b, t) → t.rest.length < s.rest.length) :
    Consumes (Parser.look >>= f) :=
  fun s t b h => hf s t b h

theorem Consumes.ite {c : Prop} [Decidable c] {q : Parser α} (hp : Consumes p)
    (hq : Consumes q) : Consumes (if c then p else q) := by
  split
  · exact hp
  · exact hq

theorem consumes_fail (fault : Fault) : Consumes (fail fault : Parser α) := by
  intro s t a h
  cases h

theorem length_advance_lt {s : State} {count : Nat} (hcount : 0 < count) (hrest : s.rest ≠ []) :
    (s.advance count).rest.length < s.rest.length := by
  have := List.length_pos_iff.mpr hrest
  rw [State.rest_advance, List.length_drop]
  omega

theorem consumes_token (kind : TokenKind) (what : Wanted) : Consumes (token kind what) := by
  intro s t a h
  unfold token at h
  split at h
  · cases h
  · next first rest hrest =>
    split at h
    · cases h
      exact length_advance_lt Nat.one_pos (by simp [hrest])
    · cases h

theorem consumes_expect (kind : TokenKind) : Consumes (expect kind) :=
  consumes_token _ _

theorem groupLength_pos (token : Token) (rest : List Token) (depth : Nat) :
    0 < groupLength depth (token :: rest) := by
  unfold groupLength
  grind

theorem consumes_memberName : Consumes memberName := by
  refine .look fun s t nodes h => ?_
  cases hrest : s.rest with
  | nil =>
    rw [hrest] at h
    cases h
  | cons token rest =>
    have hlt : ∀ count, 0 < count → (s.advance count).rest.length < (token :: rest).length :=
      fun count hcount => hrest ▸ length_advance_lt hcount (by simp [hrest])
    rw [hrest] at h
    dsimp only at h
    generalize token.kind = kind at h
    cases kind with
    | word | string | number =>
      cases h
      exact hlt 1 Nat.one_pos
    | hash =>
      dsimp only at h
      cases hname : rest.head? with
      | none =>
        rw [hname] at h
        cases h
      | some name =>
        rw [hname] at h
        dsimp only at h
        split at h
        · cases h
          exact hlt 2 Nat.two_pos
        · cases h
    | lBracket =>
      cases h
      exact hlt (groupLength 0 s.rest) (hrest ▸ groupLength_pos token rest 0)
    | _ => cases h

variable {type : Parser Node} [Forward type]

/-- A member that is read where a list of members does not end reads a token. -/
def ConsumesMember (member : Parser (Option Node)) : Prop :=
  ∀ (s t : State) (node? : Option Node), ¬ s.endsMembers → member s = (.ok node?, t) →
    t.rest.length < s.rest.length

theorem Consumes.member {member : Parser (Option Node)} (h : Consumes member) :
    ConsumesMember member :=
  fun s t node? _ hrun => h s t node? hrun

theorem consumes_parameters : Consumes (parameters type) :=
  .bind (consumes_expect _)

theorem consumes_signature (withBody : Bool) : Consumes (signature type withBody) :=
  .after fun _ => .bind consumes_parameters

theorem consumes_indexSignature : Consumes (indexSignature type) := by
  unfold indexSignature
  dsimp only
  exact .bind (consumes_expect _)

variable (type) in
theorem consumes_typeMember : Consumes (typeMember type) := by
  unfold typeMember
  dsimp only
  refine .after fun _ => .after fun _ => .after fun _ => .after fun s => ?_
  refine .ite ?_ (.ite ?_ (.ite ?_ ?_))
  · exact .after fun _ => .bind consumes_memberName
  · exact .bind consumes_indexSignature
  · exact .after fun _ => .bind (consumes_signature false)
  · exact .bind consumes_memberName

theorem ne_nil_of_atWord {s : State} {word : String} (h : s.atWord word) : s.rest ≠ [] := by
  rintro hrest
  simp [State.atWord, State.nthWord?, hrest] at h

theorem consumes_classMember : Consumes (classMember type) := by
  unfold classMember
  refine .after fun before => .after fun _ => .after fun behind => .look fun s t node? h => ?_
  by_cases hstatic : s.atWord "static" && s.nthIs 1 .lBrace
  · rw [if_pos hstatic] at h
    have hlt := length_advance_lt (s := s) Nat.one_pos
      (ne_nil_of_atWord (Bool.and_eq_true_iff.mp hstatic).1)
    have hrun : (do skipGroup; return none : Parser (Option Node)) (s.advance 1) =
        (.ok node?, t) := h
    have hle := (Forward.of_run hrun).rest.length_le
    exact Nat.lt_of_le_of_lt hle hlt
  rw [if_neg hstatic] at h
  refine Consumes.after (p := modifiers classModifier) (fun words => .after fun t => ?_) s t node? h
  refine .ite (.after fun _ => .bind consumes_parameters) (.ite ?_ (.after fun _ => ?_))
  · exact .after fun _ => .bind consumes_memberName
  · refine .after fun u => .ite (.bind consumes_indexSignature) (.bind consumes_memberName)

end

end DeclSchema.Parser
