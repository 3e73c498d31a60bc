import DeclSchema.Proofs.Parser.Rounds

/-!
# The states of a run

A parser takes a state to the state it ends in, and says nothing of the states between them.
`Runs` lists these, too: the elementary steps lead from one state to the next, and each way of
putting parsers together puts their states together. Every parser of the grammar is put
together from elementary steps alone, so that each of its runs has its states; this is found by
instance search for composed parsers.
-/

/- The longest parsers have more parts than instance search allows by default. -/
set_option synthInstance.maxSize 1024

namespace DeclSchema.Parser

/-- The steps that run no other parser. -/
inductive Elementary : {α : Type} → Parser α → Prop
  | pure {α : Type} (a : α) : Elementary (Pure.pure a : Parser α)
  | look : Elementary look
  | fail {α : Type} (fault : Fault) : Elementary (fail fault : Parser α)
  | report (error : ParseError) : Elementary (report error)
  | note (event : Event) : Elementary (note event)
  | takeDocs : Elementary takeDocs
  | advance (count : Nat) : Elementary (advance count)
  | token (kind : TokenKind) (what : Wanted) : Elementary (token kind what)
  | accept (kind : TokenKind) : Elementary (accept kind)
  | acceptWord (word : String) : Elementary (acceptWord word)

/-- The states that a run of a parser passes through, from the one it begins in to the one it
ends in. -/
inductive Runs : {α : Type} → Parser α → State → List State → Prop
  | step {α : Type} {p : Parser α} (s : State) : Elementary p → Runs p s [s, (p s).2]
  | bind {α β : Type} {p : Parser α} {f : α → Parser β} {s t : State} {a : α}
    {states later : List State} :
      p s = (.ok a, t) → Runs p s states → Runs (f a) t later → Runs (p >>= f) s (states ++ later)
  /-- What would follow a parser that fails is not run. -/
  | broken {α β : Type} {p : Parser α} {f : α → Parser β} {s t : State} {error : ParseError}
    {states : List State} :
      p s = (.error error, t) → Runs p s states → Runs (p >>= f) s states
  | attempt {α : Type} {p : Parser α} {s : State} {states : List State} :
      Runs p s states → Runs (attempt p) s states
  | refused {α : Type} {p : Parser α} {s : State} {states : List State} :
      maxDepth ≤ s.depth → Runs (refuse : Parser α) s states → Runs (nested p) s states
  /-- A level is entered, and left again behind the result and behind an error. -/
  | deeper {α : Type} {p : Parser α} {s : State} {states : List State} :
      s.depth < maxDepth → Runs p { s with depth := s.depth + 1 } states →
      Runs (nested p) s (s :: states ++ [(nested p s).2])
  /-- A return type is read, and kept or given back. -/
  | returnType {type : Parser Node} {withBody : Bool} {s : State} {states : List State} :
      Runs type s states →
      Runs (returnType type withBody) s (states ++ [(returnType type withBody s).2])

/-- Every run of the parser has its states. -/
class Traced (p : Parser α) : Prop where
  exists_runs : ∀ s : State, ∃ states, Runs p s states

namespace Traced

variable {α β : Type} {p : Parser α} {f : α → Parser β}

theorem of_elementary (h : Elementary p) : Traced p where
  exists_runs s := ⟨_, .step s h⟩

instance pure (a : α) : Traced (Pure.pure a : Parser α) :=
  of_elementary (.pure a)

instance look : Traced look :=
  of_elementary .look

instance fail (fault : Fault) : Traced (fail fault : Parser α) :=
  of_elementary (.fail fault)

instance report (error : ParseError) : Traced (report error) :=
  of_elementary (.report error)

instance note (event : Event) : Traced (note event) :=
  of_elementary (.note event)

instance takeDocs : Traced takeDocs :=
  of_elementary .takeDocs

instance advance (count : Nat) : Traced (advance count) :=
  of_elementary (.advance count)

instance token (kind : TokenKind) (what : Wanted) : Traced (token kind what) :=
  of_elementary (.token kind what)

instance accept (kind : TokenKind) : Traced (accept kind) :=
  of_elementary (.accept kind)

instance acceptWord (word : String) : Traced (acceptWord word) :=
  of_elementary (.acceptWord word)

instance bind [Traced p] [∀ a, Traced (f a)] : Traced (p >>= f) where
  exists_runs s := by
    obtain ⟨states, hstates⟩ := exists_runs (p := p) s
    rcases hp : p s with ⟨error | a, t⟩
    · exact ⟨states, .broken hp hstates⟩
    · obtain ⟨later, hlater⟩ := exists_runs (p := f a) t
      exact ⟨states ++ later, .bind hp hstates hlater⟩

instance map [Traced p] (g : α → β) : Traced (g <$> p) :=
  inferInstanceAs (Traced (p >>= fun a => Pure.pure (g a)))

/-- As `bind`, where what follows needs a case distinction. -/
theorem after [Traced p] (h : ∀ a, Traced (f a)) : Traced (p >>= f) :=
  inferInstance

instance ite {c : Prop} [Decidable c] {q : Parser α} [Traced p] [Traced q] :
    Traced (if c then p else q) := by
  split <;> infer_instance

instance refuse : Traced (refuse : Parser α) :=
  inferInstanceAs (Traced (do Parser.note .refused; Parser.fail .nestingTooDeep))

instance attempt [Traced p] : Traced (attempt p) where
  exists_runs s := (exists_runs (p := p) s).imp fun _ => .attempt

instance nested [Traced p] : Traced (nested p) where
  exists_runs s := by
    rcases Nat.lt_or_ge s.depth maxDepth with hdepth | hdepth
    · obtain ⟨states, hstates⟩ := exists_runs (p := p) { s with depth := s.depth + 1 }
      exact ⟨_, .deeper hdepth hstates⟩
    · obtain ⟨states, hstates⟩ := exists_runs (p := (Parser.refuse : Parser α)) s
      exact ⟨states, .refused hdepth hstates⟩

/-- A parser that is chosen by what is ahead. -/
theorem of_look {g : State → Parser α} (h : ∀ s, Traced (g s)) :
    Traced (fun s => g s s) :=
  inferInstanceAs (Traced (Parser.look >>= g))

instance expect (kind : TokenKind) : Traced (expect kind) :=
  Traced.token _ _

instance optional {test : Parser Bool} [Traced test] [Traced p] : Traced (optional test p) := by
  unfold Parser.optional
  infer_instance

instance upTo {continues : State → Bool} [Traced p] (count : Nat) :
    Traced (upTo continues p count) := by
  induction count with
  | zero => exact Traced.pure []
  | succ count ih =>
    unfold Parser.upTo
    infer_instance

instance repeatWhile {continues : State → Bool} [Traced p] : Traced (repeatWhile continues p) :=
  of_look (g := fun s => Parser.upTo continues p s.rest.length) fun _ => inferInstance

instance separated {separator : TokenKind} [Traced p] : Traced (separated separator p) := by
  unfold Parser.separated
  infer_instance

instance listUpTo {close : TokenKind} [Traced p] (count : Nat) :
    Traced (listUpTo close p count) := by
  induction count with
  | zero => exact Traced.pure []
  | succ count ih =>
    unfold Parser.listUpTo
    infer_instance

instance commaList {close : TokenKind} [Traced p] : Traced (commaList close p) :=
  of_look (g := fun s => Parser.listUpTo close p (s.rest.length + 1)) fun _ => inferInstance

section

variable {separates : TokenKind → Bool} {recovery : List Token → Nat}
  {member : Parser (Option Node)} [Traced member]

instance membersUpTo (count : Nat) : Traced (membersUpTo separates recovery member count) := by
  induction count with
  | zero => exact Traced.pure []
  | succ count ih =>
    unfold Parser.membersUpTo
    refine .after fun s => .after fun _ => .after fun t => @ite _ _ _ _ _ inferInstance ?_
    refine .after fun result => ?_
    cases result <;> infer_instance

instance members : Traced (members separates recovery member) :=
  of_look (g := fun s => Parser.membersUpTo separates recovery member s.rest.length)
    fun _ => inferInstance

instance memberRound : Traced (memberRound separates recovery member) := by
  unfold Parser.memberRound
  refine .after fun s => .after fun _ => .after fun t => @ite _ _ _ _ _ inferInstance ?_
  refine .after fun result => ?_
  cases result <;> infer_instance

end

instance identifier (what : Wanted) : Traced (identifier what) := by
  unfold Parser.identifier
  infer_instance

instance entityName : Traced entityName := by
  unfold Parser.entityName
  infer_instance

instance skipGroup : Traced skipGroup := by
  unfold Parser.skipGroup
  infer_instance

instance skipDecorators : Traced skipDecorators := by
  unfold Parser.skipDecorators
  infer_instance

instance skipInitializer (ends : TokenKind → Bool) : Traced (skipInitializer ends) := by
  unfold Parser.skipInitializer
  infer_instance

instance memberName : Traced memberName := by
  refine .after fun s => ?_
  split
  · infer_instance
  · split <;> try infer_instance
    split <;> infer_instance

instance questionMark : Traced questionMark := by
  refine .after fun s => ?_
  split <;> infer_instance

instance modifiers (step : Bool → Token → List Token → ModifierStep) :
    Traced (modifiers step) := by
  refine .after fun s => ?_
  exact inferInstanceAs (Traced (do
    Parser.advance (leadingModifiers step false s.rest).2
    return (leadingModifiers step false s.rest).1))

section

variable {type : Parser Node} [Traced type]

instance typeParameter : Traced (typeParameter type) := by
  unfold Parser.typeParameter
  dsimp only
  infer_instance

instance typeParameters : Traced (typeParameters type) := by
  unfold Parser.typeParameters
  infer_instance

instance typeParametersIfAny : Traced (typeParametersIfAny type) := by
  unfold Parser.typeParametersIfAny
  infer_instance

instance binding : Traced binding := by
  refine .after fun s => ?_
  split
  · infer_instance
  · split <;> infer_instance

instance parameter : Traced (parameter type) := by
  unfold Parser.parameter
  dsimp only
  infer_instance

instance parameters : Traced (parameters type) := by
  unfold Parser.parameters
  infer_instance

instance returnType (withBody : Bool) : Traced (returnType type withBody) where
  exists_runs s := by
    obtain ⟨states, hstates⟩ := exists_runs (p := type) s
    exact ⟨_, .returnType hstates⟩

instance body : Traced body := by
  unfold Parser.body
  infer_instance

instance signature (withBody : Bool) : Traced (signature type withBody) := by
  unfold Parser.signature
  infer_instance

instance indexSignature : Traced (indexSignature type) := by
  unfold Parser.indexSignature
  dsimp only
  infer_instance

instance readonlyMark : Traced readonlyMark := by
  refine .after fun s => ?_
  split <;> infer_instance

instance typeMember : Traced (typeMember type) := by
  unfold Parser.typeMember
  dsimp only
  infer_instance

instance typeMembers : Traced (typeMembers type) := by
  unfold Parser.typeMembers
  infer_instance

instance typeMemberRound : Traced (typeMemberRound type) := by
  unfold Parser.typeMemberRound
  infer_instance

instance operands {operator : TokenKind} {kind : NodeKind} {operand : Parser Node}
    [Traced operand] : Traced (operands operator kind operand) := by
  unfold Parser.operands
  dsimp only
  infer_instance

instance typeArguments : Traced (typeArguments type) := by
  unfold Parser.typeArguments
  infer_instance

instance functionType : Traced (functionType type) := by
  unfold Parser.functionType
  dsimp only
  infer_instance

instance tupleElement : Traced (tupleElement type) := by
  unfold Parser.tupleElement
  dsimp only
  infer_instance

instance tupleType : Traced (tupleType type) := by
  unfold Parser.tupleType
  dsimp only
  infer_instance

instance parenthesizedType : Traced (parenthesizedType type) := by
  unfold Parser.parenthesizedType
  dsimp only
  infer_instance

instance objectType : Traced (objectType type) := by
  unfold Parser.objectType
  dsimp only
  infer_instance

instance typeQuery : Traced (typeQuery type) := by
  unfold Parser.typeQuery
  dsimp only
  infer_instance

instance typeReference : Traced (typeReference type) := by
  unfold Parser.typeReference
  dsimp only
  infer_instance

instance wordType (token : Token) : Traced (wordType type token) := by
  refine .after fun s => ?_
  dsimp only
  split
  · infer_instance
  · cases NodeKind.keywordType? token.text <;> infer_instance

instance negativeType (sign : Token) : Traced (negativeType sign) := by
  unfold Parser.negativeType
  infer_instance

instance primaryType : Traced (primaryType type) := by
  refine .after fun s => ?_
  split
  · infer_instance
  · split <;> infer_instance

instance suffix (start : Nat) (target : Node) : Traced (suffix type start target) := by
  unfold Parser.suffix
  infer_instance

instance suffixesUpTo (start count : Nat) (target : Node) :
    Traced (suffixesUpTo type start count target) := by
  induction count generalizing target with
  | zero => exact Traced.pure target
  | succ count ih =>
    unfold Parser.suffixesUpTo
    infer_instance

instance postfixType : Traced (postfixType type) := by
  unfold Parser.postfixType
  infer_instance

instance intersectionType : Traced (intersectionType type) := by
  unfold Parser.intersectionType
  infer_instance

instance unionType : Traced (unionType type) := by
  unfold Parser.unionType
  infer_instance

end

instance typeWithin (levels : Nat) : Traced (typeWithin levels) := by
  induction levels with
  | zero => exact Traced.refuse
  | succ levels ih =>
    unfold Parser.typeWithin
    infer_instance

instance type : Traced type :=
  Traced.typeWithin maxDepth

section

variable {type : Parser Node} [Traced type]

instance classMember : Traced (classMember type) := by
  unfold Parser.classMember
  refine .after fun before => .after fun _ => .after fun behind => .after fun s => ?_
  refine @ite _ _ _ _ _ inferInstance (.after fun words => .after fun t => ?_)
  refine @ite _ _ _ _ _ inferInstance (@ite _ _ _ _ _ inferInstance (.after fun _ => ?_))
  infer_instance

instance classMembers : Traced (classMembers type) := by
  unfold Parser.classMembers
  infer_instance

instance classMemberRound : Traced (classMemberRound type) := by
  unfold Parser.classMemberRound
  infer_instance

end

instance heritageClause : Traced heritageClause := by
  refine .after fun s => ?_
  split <;> infer_instance

instance braced {inside : Parser (List Node)} [Traced inside] : Traced (braced inside) := by
  unfold Parser.braced
  infer_instance

instance interfaceParts : Traced interfaceParts := by
  unfold Parser.interfaceParts
  infer_instance

instance className : Traced className := by
  unfold Parser.className
  infer_instance

instance classParts : Traced classParts := by
  unfold Parser.classParts
  infer_instance

instance typeAliasParts : Traced typeAliasParts := by
  unfold Parser.typeAliasParts
  infer_instance

instance enumParts : Traced enumParts := by
  unfold Parser.enumParts
  infer_instance

instance moduleName : Traced moduleName := by
  refine .after fun s => ?_
  split <;> infer_instance

section

variable {block : Parser (List Node)} [Traced block]

instance moduleParts : Traced (moduleParts block) := by
  unfold Parser.moduleParts
  infer_instance

instance parts (heading : Heading) : Traced (heading.parts block) := by
  cases heading <;> unfold Heading.parts <;> infer_instance

instance declaration (first : State) (tags : List DocTag) (words : List Node)
    (heading : Heading) : Traced (declaration block first tags words heading) := by
  unfold Parser.declaration
  dsimp only
  infer_instance

instance statement : Traced (statement block) := by
  unfold Parser.statement
  refine .after fun first => .after fun before => .after fun _ => .after fun behind => ?_
  refine .after fun words => .after fun s => ?_
  split <;> infer_instance

instance statements : Traced (statements block) := by
  unfold Parser.statements
  infer_instance

instance statementRound : Traced (statementRound block) := by
  unfold Parser.statementRound
  infer_instance

end

instance blockWithin (levels : Nat) : Traced (blockWithin levels) := by
  induction levels with
  | zero => exact Traced.refuse
  | succ levels ih =>
    unfold Parser.blockWithin
    infer_instance

instance runsUpTo (count : Nat) : Traced (runsUpTo count) := by
  induction count with
  | zero => exact Traced.pure []
  | succ count ih =>
    unfold Parser.runsUpTo
    infer_instance

instance sourceFile : Traced sourceFile :=
  of_look (g := fun s => Parser.runsUpTo (s.rest.length + 1)) fun _ => inferInstance

instance sourceRound : Traced sourceRound := by
  unfold Parser.sourceRound
  refine .after fun nodes? => ?_
  cases nodes? <;> infer_instance

end Traced

theorem Procedure.traced {α : Type} {p : Parser α} (h : Procedure p) : Traced p := by
  cases h <;> infer_instance

end DeclSchema.Parser
