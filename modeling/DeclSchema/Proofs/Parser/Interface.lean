import DeclSchema.Proofs.Parser.CarriedStatements

/-!
# Reading an interface

What a statement is whose tokens are the word `interface`, a name, an opening brace,
members, and a closing brace: the node of an interface with the members that are read.
-/

namespace DeclSchema.Parser

section

variable {s : State} {first : Token} {rest : List Token}

theorem token_of_eq {kind : TokenKind} (hrest : s.rest = first :: rest)
    (hkind : first.kind = kind) (what : Wanted) : token kind what s = (.ok first, s.advance 1) := by
  unfold token
  rw [hrest]
  exact if_pos hkind

theorem identifier_of_word (hrest : s.rest = first :: rest) (hkind : first.kind = .word)
    (what : Wanted) : identifier what s = (.ok (tokenLeaf .identifier first), s.advance 1) :=
  bind_apply_ok (token_of_eq hrest hkind what)

theorem nthWord?_of_eq (hrest : s.rest = first :: rest) : s.nthWord? 0 = first.word? := by
  simp [State.nthWord?, hrest]

theorem binding_of_word (hrest : s.rest = first :: rest) (hkind : first.kind = .word) :
    binding s = (.ok [tokenLeaf .identifier first], s.advance 1) := by
  refine (look_bind_apply _ _).trans ?_
  rw [hrest]
  dsimp only
  rw [hkind]
  exact bind_apply_ok (identifier_of_word hrest hkind _)

theorem questionMark_of_ne (hrest : s.rest = first :: rest) (hkind : first.kind ≠ .question) :
    questionMark s = (.ok [], s) := by
  refine (look_bind_apply _ _).trans ?_
  rw [hrest]
  dsimp only
  rw [if_neg hkind]
  rfl

theorem takeDocs_of_none (h : s.docs.lookup s.start = none) : takeDocs s = (.ok [], s) := by
  unfold takeDocs
  rw [h]

theorem rest_advance_one (hrest : s.rest = first :: rest) : (s.advance 1).rest = rest := by
  rw [State.rest_advance, hrest]
  rfl

theorem typeParametersIfAny_of_ne {type : Parser Node} (hrest : s.rest = first :: rest)
    (hkind : first.kind ≠ .lt) : typeParametersIfAny type s = (.ok [], s) := by
  unfold typeParametersIfAny
  rw [look_bind_apply, if_neg]
  · rfl
  · exact mt (isAt_iff hrest).mp hkind

theorem skipDecorators_of_ne (hrest : s.rest = first :: rest) (hkind : first.kind ≠ .atSign) :
    skipDecorators s = (.ok (), s) := by
  have hnone : decoratorsLength s.rest = 0 := by
    have hzero : decoratorLength (first :: rest) = 0 := by
      rw [decoratorLength, if_neg hkind]
    rw [hrest]
    exact decoratorsUpTo_of_eq_zero rest.length hzero
  show (Except.ok (), s.advance (decoratorsLength s.rest)) = _
  rw [hnone, State.advance_zero]

theorem modifiers_of_stop {step : Bool → Token → List Token → ModifierStep}
    (hrest : s.rest = first :: rest) (hstop : step false first rest = .stop) :
    modifiers step s = (.ok [], s) := by
  have hwords : leadingModifiers step false s.rest = ([], 0) := by
    rw [hrest]
    exact leadingModifiers_of_stop hstop
  show (Except.ok (leadingModifiers step false s.rest).1,
    s.advance (leadingModifiers step false s.rest).2) = _
  rw [hwords, State.advance_zero]

/-- The words before a declaration end before one that is no modifier. -/
theorem statementHead_of_word {word : String} (hrest : s.rest = first :: rest)
    (hdocs : s.docs.lookup s.start = none) (hword : first.word? = some word)
    (hmodifier : word ∉ ["export", "declare", "abstract", "default"]) :
    statementHead s = (.ok ([], []), s) := by
  have hkind := (Token.word?_eq_some_iff.mp hword).1
  have hskip := skipDecorators_of_ne hrest (by simp [hkind])
  have hmodifiers : modifiers statementModifier s = (.ok [], s) := by
    refine modifiers_of_stop hrest ?_
    unfold statementModifier
    rw [hword]
    dsimp only
    split <;> simp_all
  unfold statementHead
  rw [bind_apply_ok (takeDocs_of_none hdocs), bind_apply_ok hskip,
    bind_apply_ok (takeDocs_of_none hdocs), bind_apply_ok hmodifiers]
  rfl

end

section

variable {s u : State} {keyword name opening closing : Token} {rest behind : List Token}
  {inside : List Node}

theorem braced_of_ok {members : Parser (List Node)} (hrest : s.rest = opening :: rest)
    (hopen : opening.kind = .lBrace) (hinside : members (s.advance 1) = (.ok inside, u))
    (hbehind : u.rest = closing :: behind) (hclose : closing.kind = .rBrace) :
    braced members s = (.ok inside, u.advance 1) := by
  unfold braced
  rw [bind_apply_ok (expect_of_eq hrest hopen), bind_apply_ok hinside,
    bind_apply_ok (expect_of_eq hbehind hclose)]
  rfl

theorem interfaceParts_of_ok (hrest : s.rest = name :: opening :: rest)
    (hname : name.kind = .word) (hopen : opening.kind = .lBrace)
    (hinside : typeMembers type (s.advance 2) = (.ok inside, u))
    (hbehind : u.rest = closing :: behind) (hclose : closing.kind = .rBrace) :
    interfaceParts s = (.ok (tokenLeaf .identifier name :: inside), u.advance 1) := by
  have hopening := rest_advance_one hrest
  have hheritage : ¬ (s.advance 1).atHeritage ["extends"] := by
    simp [State.atHeritage, nthWord?_of_eq hopening, Token.word?, hopen]
  have hbraced : braced (typeMembers type) (s.advance 1) = (.ok inside, u.advance 1) :=
    braced_of_ok hopening hopen (by rwa [State.advance_advance]) hbehind hclose
  unfold interfaceParts
  rw [bind_apply_ok (identifier_of_word hrest hname _),
    bind_apply_ok (typeParametersIfAny_of_ne hopening (by simp [hopen])),
    bind_apply_ok (repeatWhile_of_not hheritage), bind_apply_ok hbraced]
  rfl

/-- The node of an interface with a name and members, read from one state to another. -/
def interfaceNode (first last : State) (name : Token) (inside : List Node) : Node :=
  Heading.ofInterface.node first last [] (tokenLeaf .identifier name :: inside)

theorem heading?_interface (hrest : s.rest = keyword :: name :: rest)
    (hkeyword : keyword.word? = some "interface") (hname : name.kind = .word) :
    s.heading? = some (.ofInterface, 1) := by
  have hnext : s.nthIsWord 1 := by
    simp [State.nthIsWord, State.nthWord?, hrest, Token.word?, hname]
  unfold State.heading?
  rw [nthWord?_of_eq hrest, hkeyword]
  simp [hnext]

theorem statement_interface (block : Parser (List Node))
    (hrest : s.rest = keyword :: name :: opening :: rest)
    (hkeyword : keyword.word? = some "interface") (hname : name.kind = .word)
    (hopen : opening.kind = .lBrace) (hdocs : s.docs.lookup s.start = none)
    (hinside : typeMembers type (s.advance 3) = (.ok inside, u))
    (hbehind : u.rest = closing :: behind) (hclose : closing.kind = .rBrace) :
    statement block s = (.ok (some (interfaceNode s (u.advance 1) name inside)),
      (u.advance 1).note
        (.declared (interfaceNode s (u.advance 1) name inside) s.errors u.errors)) := by
  have hhead := statementHead_of_word hrest hdocs hkeyword (by decide)
  have hparts : Heading.ofInterface.parts block (s.advance 1) =
      (.ok (tokenLeaf .identifier name :: inside), u.advance 1) :=
    interfaceParts_of_ok (rest_advance_one hrest) hname hopen (by rwa [State.advance_advance])
      hbehind hclose
  rw [statement_of_head block hhead, heading?_interface hrest hkeyword hname]
  exact declaration_of_parts hparts s [] []

/-- The statement reads on from where the members of the interface end. -/
theorem leadsTo_interface (block : Parser (List Node)) [Forward block]
    (hrest : s.rest = keyword :: name :: opening :: rest)
    (hkeyword : keyword.word? = some "interface") (hname : name.kind = .word)
    (hopen : opening.kind = .lBrace) (hdocs : s.docs.lookup s.start = none) :
    (typeMembers type (s.advance 3)).2.LeadsTo (statement block s).2 := by
  have hopening : (s.advance 2).rest = opening :: rest := by
    rw [State.rest_advance, hrest]
    rfl
  have hbraced : (typeMembers type (s.advance 3)).2.LeadsTo
      (braced (typeMembers type) (s.advance 2)).2 := by
    unfold braced
    rw [bind_apply_ok (expect_of_eq hopening hopen), State.advance_advance]
    exact Forward.leadsTo_bind _
  have hheritage : ¬ (s.advance 2).atHeritage ["extends"] := by
    simp [State.atHeritage, nthWord?_of_eq hopening, Token.word?, hopen]
  have hparts : (braced (typeMembers type) (s.advance 2)).2.LeadsTo
      (interfaceParts (s.advance 1)).2 := by
    unfold interfaceParts
    rw [bind_apply_ok (identifier_of_word (rest_advance_one hrest) hname _),
      State.advance_advance, bind_apply_ok (typeParametersIfAny_of_ne hopening (by simp [hopen])),
      bind_apply_ok (repeatWhile_of_not hheritage)]
    exact Forward.leadsTo_bind _
  have hhead := statementHead_of_word hrest hdocs hkeyword (by decide)
  rw [statement_of_head block hhead, heading?_interface hrest hkeyword hname]
  exact (hbraced.trans hparts).trans (Forward.leadsTo_bind (p := interfaceParts) (s.advance 1))

end

end DeclSchema.Parser
