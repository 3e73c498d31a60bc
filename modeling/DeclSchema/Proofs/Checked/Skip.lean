import DeclSchema.Proofs.Checked.Reader

/-!
# Passing over text, and names

Groups that close are counted down, which is undefined where none is open. A statement and
an initial value end before that could happen. The search for the bracket that closes a
list of parameters counts only round brackets, and starts at an opening one.
-/

open DeclSchema.Parser

namespace DeclSchema.Reader

/-- A statement that nothing is made of, with `depth` groups open. -/
def statementLength (first : Bool) (depth : Nat) : List Token → Option Nat
  | [] => some 0
  | token :: rest =>
    if depth = 0 && !first && token.newlineBefore && token.word?.any statementWords.contains then
      some 0
    else if token.kind.opens then
      (statementLength false (depth + 1) rest).map (1 + ·)
    else if token.kind = .rBrace && depth = 0 then
      some 0
    else if token.kind.closes && 0 < depth then do
      let depth ← depth.ppred
      if depth = 0 && token.kind = .rBrace then
        return 1 + if rest.head?.any (·.kind == .semicolon) then 1 else 0
      else
        (statementLength false depth rest).map (1 + ·)
    else if token.kind = .semicolon && depth = 0 then
      some 1
    else
      (statementLength false depth rest).map (1 + ·)

/-- An initial value, with `depth` groups open. -/
def initializerLength (ends : TokenKind → Bool) (first : Bool) (depth : Nat) :
    List Token → Option Nat
  | [] => some 0
  | token :: rest =>
    if depth = 0 &&
        (ends token.kind || (!first && token.newlineBefore && token.kind != .dot)) then
      some 0
    else if token.kind.opens then
      (initializerLength ends false (depth + 1) rest).map (1 + ·)
    else if token.kind.closes then
      if depth = 0 then
        some 0
      else do
        (initializerLength ends false (← depth.ppred) rest).map (1 + ·)
    else
      (initializerLength ends false depth rest).map (1 + ·)

/-- How many tokens stand before the round bracket that closes the last of `depth` open
ones. -/
def closingParen? (depth : Nat) : List Token → Option (Option Nat)
  | [] => some none
  | token :: rest =>
    match token.kind with
    | .lParen => (closingParen? (depth + 1) rest).map (·.map (· + 1))
    | .rParen => do
      let depth ← depth.ppred
      if depth = 0 then
        return some 0
      else
        (closingParen? depth rest).map (·.map (· + 1))
    | _ => (closingParen? depth rest).map (·.map (· + 1))

/-- Whether the round group ahead is the parameters of a function type. -/
def startsFunctionType (tokens : List Token) : Option Bool := do
  match ← closingParen? 0 tokens with
  | none => return false
  | some close => return tokens[close + 1]?.any (·.kind == .arrow)

theorem statementLength_eq (first : Bool) (depth : Nat) (tokens : List Token) :
    statementLength first depth tokens = some (Parser.statementLength first depth tokens) := by
  induction tokens generalizing first depth with
  | nil => rfl
  | cons token rest ih =>
    simp only [statementLength, Parser.statementLength, ih, Option.map_some]
    split
    · rfl
    split
    · rfl
    cases depth with
    | zero =>
      simp only [Nat.lt_irrefl, decide_false, Bool.and_false, Bool.false_eq_true, if_false,
        decide_true, Bool.and_true, if_true]
      cases token.kind <;> rfl
    | succ depth =>
      simp only [Nat.succ_ne_zero, decide_false, Bool.and_false, Bool.false_eq_true, if_false,
        Nat.zero_lt_succ, decide_true, Bool.and_true]
      split
      · next hcloses =>
        simp only [Nat.ppred, Option.bind_eq_bind, Option.bind_some]
        cases depth with
        | zero => simpa using (apply_ite some _ _ _).symm
        | succ depth => simp
      · rfl

theorem initializerLength_eq (ends : TokenKind → Bool) (first : Bool) (depth : Nat)
    (tokens : List Token) :
    initializerLength ends first depth tokens =
      some (Parser.initializerLength ends first depth tokens) := by
  induction tokens generalizing first depth with
  | nil => rfl
  | cons token rest ih =>
    rw [initializerLength, Parser.initializerLength]
    simp only [ih, Option.map_some]
    split
    · rfl
    split
    · rfl
    split
    · cases depth <;> rfl
    · rfl

/-- With a bracket open, the search is defined. -/
theorem closingParen?_succ (depth : Nat) (tokens : List Token) :
    closingParen? (depth + 1) tokens = some (Parser.closingParen? (depth + 1) tokens) := by
  induction tokens generalizing depth with
  | nil => rfl
  | cons token rest ih =>
    by_cases hopening : token.kind = .lParen
    · simp only [closingParen?, Parser.closingParen?, hopening, ih, Option.map_some]
    by_cases hclosing : token.kind = .rParen
    · cases depth with
      | zero => simp [closingParen?, Parser.closingParen?, hclosing]
      | succ depth => simp [closingParen?, Parser.closingParen?, hclosing, ih]
    · have hcounted : closingParen? (depth + 1) (token :: rest) =
          (closingParen? (depth + 1) rest).map (·.map (· + 1)) := by
        rw [closingParen?]
        split <;> first | contradiction | rfl
      have hsearched : Parser.closingParen? (depth + 1) (token :: rest) =
          (Parser.closingParen? (depth + 1) rest).map (· + 1) := by
        rw [Parser.closingParen?]
        split <;> first | contradiction | rfl
      rw [hcounted, hsearched, ih, Option.map_some]

/-- The search starts at an opening bracket. -/
theorem startsFunctionType_of_lParen {token : Token} {rest : List Token}
    (h : token.kind = .lParen) :
    startsFunctionType (token :: rest) = some (Parser.startsFunctionType (token :: rest)) := by
  have hsearch : closingParen? 0 (token :: rest) =
      some (Parser.closingParen? 0 (token :: rest)) := by
    simp only [closingParen?, Parser.closingParen?, h, closingParen?_succ, Option.map_some]
  rw [startsFunctionType, Parser.startsFunctionType, hsearch]
  cases Parser.closingParen? 0 (token :: rest) <;> rfl

/-- Passes over an initial value. -/
def skipInitializer (ends : TokenKind → Bool) : Reader Unit := do
  advance (← demand (initializerLength ends true 0 (← look).rest))

theorem mirrors_skipInitializer (ends : TokenKind → Bool) :
    Mirrors (skipInitializer ends) (Parser.skipInitializer ends) := by
  refine .look fun s => ?_
  rw [initializerLength_eq]
  exact .advance _

/-- Reads the modifiers at the start of the tokens ahead. Each one that is kept is taken. -/
def modifiersAmong (step : Bool → Token → List Token → ModifierStep) :
    Bool → List Token → Reader (List Node)
  | _, [] => return []
  | kept, token :: rest =>
    match step kept token rest with
    | .stop => return []
    | .pass => do
      advance 1
      modifiersAmong step kept rest
    | .keep kind => do
      let word ← take
      return Node.leaf kind word.text word.span :: (← modifiersAmong step true rest)

/-- Reads the modifiers ahead. -/
def modifiers (step : Bool → Token → List Token → ModifierStep) : Reader (List Node) := do
  modifiersAmong step false (← look).rest

/-- Reading modifiers one by one is reading them all. -/
theorem modifiersAmong_eq (step : Bool → Token → List Token → ModifierStep) (kept : Bool)
    {tokens : List Token} {s : State} (h : s.rest = tokens) :
    modifiersAmong step kept tokens s =
      some (.ok (leadingModifiers step kept tokens).1,
        s.advance (leadingModifiers step kept tokens).2) := by
  induction tokens generalizing kept s with
  | nil =>
    rw [leadingModifiers, State.advance_zero]
    rfl
  | cons token rest ih =>
    have hrest : (s.advance 1).rest = rest := by rw [State.rest_advance, h, List.drop_one]; rfl
    rw [modifiersAmong, leadingModifiers]
    cases step kept token rest with
    | stop =>
      rw [State.advance_zero]
      rfl
    | pass =>
      show modifiersAmong step kept rest (s.advance 1) = _
      rw [ih kept hrest, State.advance_advance, Nat.add_comm]
    | keep kind =>
      show Reader.bind take _ s = _
      rw [Reader.bind, take_of_rest h]
      show Reader.bind (modifiersAmong step true rest) _ (s.advance 1) = _
      rw [Reader.bind, ih true hrest, State.advance_advance, Nat.add_comm]
      rfl

theorem mirrors_modifiers (step : Bool → Token → List Token → ModifierStep) :
    Mirrors (modifiers step) (Parser.modifiers step) :=
  .lookAt fun _ _ => ⟨modifiersAmong_eq step false rfl, rfl⟩

/-- A string literal as a leaf that carries its value. -/
def stringLeaf (token : Token) : Reader Node := do
  return Node.leaf .stringLiteral (← demand (Checked.unquote token.text)) token.span

/-- Reads a word as a name. -/
def identifier (what : Wanted) : Reader Node := do
  return tokenLeaf .identifier (← token .word what)

/-- Reads a name that may have points in it. -/
def entityName : Reader Node := do
  let first ← identifier .name
  let segments ← repeatWhile State.atSegment do
    advance 1
    identifier .name
  if segments.isEmpty then
    return first
  else
    return qualified first.span.start (← look).prevEnd (first :: segments)

/-- Reads the name of a member. -/
def memberName : Reader (List Node) := do
  match (← look).rest with
  | [] => fail (.expected .memberName)
  | token :: rest =>
    match token.kind with
    | .word =>
      advance 1
      return [tokenLeaf .identifier token]
    | .string =>
      advance 1
      return [← stringLeaf token]
    | .number =>
      advance 1
      return [tokenLeaf .numericLiteral token]
    | .hash =>
      if (rest.head?.bind Token.word?).isSome then
        advance 1
        let name ← take
        return [Node.leaf .identifier ("#" ++ name.text) ⟨token.span.start, name.span.stop⟩]
      else
        fail (.expected .memberName)
    | .lBracket =>
      skipGroup
      return []
    | _ => fail (.expected .memberName)

/-- Reads the question mark that makes a member optional. -/
def questionMark : Reader (List Node) := do
  if (← look).isAt .question then
    let mark ← take
    return [Node.mark .questionToken mark.span]
  else
    return []

theorem mirrors_identifier (what : Wanted) :
    Mirrors (identifier what) (Parser.identifier what) :=
  .bind (.token .word what) fun _ => .pure _

theorem mirrors_entityName : Mirrors entityName Parser.entityName := by
  refine .bind (mirrors_identifier .name) fun first => ?_
  refine .bind (.repeatWhile fun s hs _ => ?_) fun segments => .ite (.pure _) ?_
  · exact (Mirrors.bind (.advance 1) fun _ => mirrors_identifier .name) s hs
  · exact .look fun _ => .pure _

theorem stringLeaf_eq {token : Token} (h : Checked.InQuotes token) (hkind : token.kind = .string) :
    stringLeaf token = Pure.pure (Parser.stringLeaf token) := by
  rw [stringLeaf, Checked.unquote_of_enclosed (h hkind), demand_bind rfl]
  rfl

theorem mirrors_memberName : Mirrors memberName Parser.memberName := by
  refine .lookAt fun s hs => ?_
  cases hrest : s.rest with
  | nil => exact Mirrors.fail _ s hs
  | cons token rest =>
    have hname : ∀ node : Node, Mirrors (do advance 1; return [node])
        (do Parser.advance 1; return [node]) :=
      fun node => .bind (.advance 1) fun _ => .pure _
    dsimp only
    cases hkind : token.kind with
    | word | number => exact hname _ s hs
    | string =>
      have hquotes := hs token (hrest ▸ List.mem_cons_self)
      simp only [stringLeaf_eq hquotes hkind]
      exact hname _ s hs
    | hash =>
      dsimp only
      cases hnext : rest.head? with
      | none => exact Mirrors.fail _ s hs
      | some name =>
        obtain ⟨others, rfl⟩ := List.head?_eq_some_iff.mp hnext
        have hword : ((some name).bind Token.word?).isSome ↔ name.kind = .word := by
          rw [Option.bind_some, Token.word?]
          split <;> simp [*]
        by_cases hkind : name.kind = .word
        · simp only [if_pos (hword.mpr hkind), if_pos hkind]
          have hbehind : (s.advance 1).rest = name :: others := by
            rw [State.rest_advance, hrest]
            rfl
          refine ⟨?_, rfl⟩
          show Reader.bind take _ (s.advance 1) = _
          rw [Reader.bind, take_of_rest hbehind, State.advance_advance]
          rfl
        · simp only [if_neg (mt hword.mp hkind), if_neg hkind]
          exact Mirrors.fail _ s hs
    | lBracket => exact (Mirrors.bind .skipGroup fun _ => .pure []) s hs
    | _ => exact Mirrors.fail _ s hs

theorem mirrors_questionMark : Mirrors questionMark Parser.questionMark := by
  refine .lookAt fun s hs => ?_
  cases hrest : s.rest with
  | nil =>
    rw [if_neg (not_isAt_of_rest_eq_nil hrest)]
    exact .pure [] s
  | cons token rest =>
    simp only [isAt_iff hrest]
    split
    · exact .take hrest (.pure _ _)
    · exact .pure [] s

end DeclSchema.Reader
