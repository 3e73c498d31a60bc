import DeclSchema.Proofs.Parser.Interface

/-!
# Members of classes by what comes first

What a member of a class is shows behind its modifiers: a constructor, or what has a name. What
has a name is a method if parameters follow, and else a field.
-/

namespace DeclSchema.Parser

section

variable (type : Parser Node)

/-- Reads a constructor from its parameters on. -/
def constructorBehind (start : Nat) (words : List Node) : Parser (Option Node) := do
  let parts ← parameters type
  body
  return some (.inner .constructorDeclaration start (← look).prevEnd (words ++ parts))

/-- Reads a method or a field from behind its name. -/
def namedBehind (start : Nat) (nodes : List Node) : Parser (Option Node) := do
  if (← look).atSignature then
    let parts ← signature type true
    return some (.inner .methodDeclaration start (← look).prevEnd (nodes ++ parts))
  let typeNode ← optional (accept .colon) type
  if ← accept .eq then
    skipInitializer endsField
  let _ ← accept .semicolon
  return some (.inner .propertyDeclaration start (← look).prevEnd (nodes ++ typeNode))

end

section

variable {type : Parser Node} {s t u v : State} {words name question : List Node}

/-- Nothing stands before the modifiers of the member, and no block that initialises the class
comes in its place. -/
structure State.AtMember (s : State) : Prop where
  undocumented : s.docs.lookup s.start = none
  plain : ∃ first rest, s.rest = first :: rest ∧ first.kind ≠ .atSign
  member : ¬ (s.atWord "static" && s.nthIs 1 .lBrace)

theorem classMember_of_constructor (hs : s.AtMember)
    (hwords : modifiers classModifier s = (.ok words, t))
    (hword : t.atWord "constructor" && t.nthIs 1 .lParen) :
    classMember type s = constructorBehind type s.start words (t.advance 1) := by
  obtain ⟨first, rest, hrest, hat⟩ := hs.plain
  unfold classMember
  rw [bind_apply_ok (takeDocs_of_none hs.undocumented),
    bind_apply_ok (skipDecorators_of_ne hrest hat),
    bind_apply_ok (takeDocs_of_none hs.undocumented), look_bind_apply]
  dsimp only
  rw [if_neg hs.member, bind_apply_ok hwords, look_bind_apply, if_pos hword]
  rfl

theorem classMember_of_name (hs : s.AtMember)
    (hwords : modifiers classModifier s = (.ok words, t))
    (hword : ¬ (t.atWord "constructor" && t.nthIs 1 .lParen)) (haccessor : ¬ t.atAccessor)
    (hstar : ¬ t.isAt .star) (hindex : ¬ t.atIndexSignature)
    (hname : memberName t = (.ok name, u)) (hquestion : questionMark u = (.ok question, v))
    (hbang : ¬ v.isAt .bang) :
    classMember type s = namedBehind type s.start (words ++ name ++ question) v := by
  obtain ⟨first, rest, hrest, hat⟩ := hs.plain
  have hnot : ∀ {kind : TokenKind} {s : State}, ¬ s.isAt kind → accept kind s = (.ok false, s) :=
    fun h => if_neg h
  unfold classMember
  rw [bind_apply_ok (takeDocs_of_none hs.undocumented),
    bind_apply_ok (skipDecorators_of_ne hrest hat),
    bind_apply_ok (takeDocs_of_none hs.undocumented), look_bind_apply]
  dsimp only
  rw [if_neg hs.member, bind_apply_ok hwords, look_bind_apply, if_neg hword, if_neg haccessor,
    bind_apply_ok (hnot hstar), look_bind_apply, if_neg hindex, bind_apply_ok hname,
    bind_apply_ok hquestion, bind_apply_ok (hnot hbang)]
  rfl

end

end DeclSchema.Parser
