import DeclSchema.Proofs.Checked.Skip

/-!
# Types and members read with checked steps

The grammar of signatures, members and types over readers, each with the parser that it
mirrors. Where a reader takes a token or counts groups down, what comes next has been looked
at before.
-/

open DeclSchema.Parser

namespace DeclSchema.Reader

section

variable (type : Reader Node)

/-- Reads a type parameter with its bound and its default. -/
def typeParameter : Reader Node := do
  let start := (← look).start
  let _ ← acceptWord "const"
  let s ← look
  if (s.atWord "in" || s.atWord "out") && s.nthIsWord 1 then
    advance 1
  let name ← identifier .typeParameter
  let bound ← optional (acceptWord "extends") type
  let preset ← optional (accept .eq) type
  return Node.inner .typeParameter start (← look).prevEnd (name :: bound ++ preset)

/-- Reads type parameters in angle brackets. -/
def typeParameters : Reader (List Node) := do
  let _ ← expect .lt
  commaList .gt (typeParameter type)

/-- Reads type parameters if there are any. -/
def typeParametersIfAny : Reader (List Node) := do
  if (← look).isAt .lt then
    typeParameters type
  else
    return []

/-- Reads what a parameter binds. -/
def binding : Reader (List Node) := do
  match (← look).rest with
  | [] => fail (.expected .parameterName)
  | token :: _ =>
    match token.kind with
    | .word => return [← identifier .parameterName]
    | .lBrace | .lBracket =>
      skipGroup
      return []
    | _ => fail (.expected .parameterName)

/-- Reads a parameter. -/
def parameter : Reader Node := do
  skipDecorators
  let start := (← look).start
  let words ← modifiers parameterModifier
  let _ ← accept .ellipsis
  let name ← binding
  let question ← questionMark
  let typeNode ← optional (accept .colon) type
  if ← accept .eq then
    skipInitializer endsParameter
  return Node.inner .parameter start (← look).prevEnd (words ++ name ++ question ++ typeNode)

/-- Reads parameters in round brackets. -/
def parameters : Reader (List Node) := do
  let _ ← expect .lParen
  commaList .rParen (parameter type)

/-- Passes over a return type. It is first read as a type. -/
def returnType (withBody : Bool) : Reader Unit := fun s => do
  let outcome ← type s
  return Parser.returnType (fun _ => outcome) withBody s

/-- Passes over the body of a function, or the semicolon in its place. -/
def body : Reader Unit := do
  if (← look).isAt .lBrace then
    skipGroup
  else
    let _ ← accept .semicolon

/-- Reads type parameters, parameters, the return type and, where there may be one, the
body of a function. -/
def signature (withBody : Bool) : Reader (List Node) := do
  let generics ← typeParametersIfAny type
  let arguments ← parameters type
  if ← accept .colon then
    returnType type withBody
  if withBody then
    body
  return generics ++ arguments

/-- Reads an index signature: its key as a parameter, a question mark, its type. -/
def indexSignature : Reader (List Node) := do
  let _ ← expect .lBracket
  let start := (← look).start
  let name ← identifier .indexName
  let _ ← expect .colon
  let keyType ← type
  let key := Node.inner .parameter start (← look).prevEnd [name, keyType]
  let _ ← expect .rBracket
  let question ← questionMark
  let _ ← expect .colon
  let value ← type
  return key :: question ++ [value]

/-- Reads the word that makes a member of an interface constant. -/
def readonlyMark : Reader (List Node) := do
  let s ← look
  if s.atWord "readonly" && s.nthStartsName 1 then
    let word ← take
    return [tokenLeaf .readonlyKeyword word]
  else
    return []

/-- Reads a member of an interface. -/
def typeMember : Reader Node := do
  let start := (← look).start
  let tags ← takeDocs
  let words ← readonlyMark
  let s ← look
  if s.atAccessor then
    advance 1
    let name ← memberName
    let parts ← signature type false
    return Node.inner .methodSignature start (← look).prevEnd (name ++ parts)
  else if s.atIndexSignature then
    let parts ← indexSignature type
    return { Node.inner .indexSignature start (← look).prevEnd (words ++ parts) with tags }
  else if s.atSignature || (s.atWord "new" && (s.nthIs 1 .lParen || s.nthIs 1 .lt)) then
    let _ ← acceptWord "new"
    let parts ← signature type false
    return Node.inner .methodSignature start (← look).prevEnd parts
  else
    let name ← memberName
    let question ← questionMark
    if (← look).atSignature then
      let parts ← signature type false
      return Node.inner .methodSignature start (← look).prevEnd
        (words ++ name ++ question ++ parts)
    else
      let typeNode ← optional (accept .colon) type
      return { Node.inner .propertySignature start (← look).prevEnd
        (words ++ name ++ question ++ typeNode) with tags }

/-- Reads the members of an interface or a type literal. -/
def typeMembers : Reader (List Node) :=
  members separatesTypeMembers (fun tokens => some (malformedLength 0 tokens))
    (some <$> typeMember type)

/-- Reads a member of a class. -/
def classMember : Reader (Option Node) := do
  let before ← takeDocs
  skipDecorators
  let behind ← takeDocs
  let tags := before ++ behind
  let s ← look
  let start := s.start
  if s.atWord "static" && s.nthIs 1 .lBrace then
    advance 1
    skipGroup
    return none
  let words ← modifiers classModifier
  let s ← look
  if s.atWord "constructor" && s.nthIs 1 .lParen then
    advance 1
    let parts ← parameters type
    body
    return some { Node.inner .constructorDeclaration start (← look).prevEnd
      (words ++ parts) with tags }
  if s.atAccessor then
    advance 1
    let name ← memberName
    let parts ← signature type true
    return some { Node.inner .methodDeclaration start (← look).prevEnd
      (words ++ name ++ parts) with tags }
  let _ ← accept .star
  if (← look).atIndexSignature then
    let parts ← indexSignature type
    let _ ← accept .semicolon
    return some { Node.inner .indexSignature start (← look).prevEnd (words ++ parts) with tags }
  let name ← memberName
  let question ← questionMark
  let _ ← accept .bang
  if (← look).atSignature then
    let parts ← signature type true
    return some { Node.inner .methodDeclaration start (← look).prevEnd
      (words ++ name ++ question ++ parts) with tags }
  let typeNode ← optional (accept .colon) type
  if ← accept .eq then
    skipInitializer endsField
  let _ ← accept .semicolon
  return some { Node.inner .propertyDeclaration start (← look).prevEnd
    (words ++ name ++ question ++ typeNode) with tags }

/-- Reads the members of a class. -/
def classMembers : Reader (List Node) :=
  members separatesClassMembers (fun tokens => some (malformedLength 0 tokens)) (classMember type)

/-- Reads operands with an operator between them; one may stand before the first. -/
def operands (operator : TokenKind) (kind : NodeKind) (operand : Reader Node) : Reader Node := do
  let start := (← look).start
  let _ ← accept operator
  let nodes ← separated operator operand
  return combine kind start (← look).prevEnd nodes

/-- Reads type arguments in angle brackets. -/
def typeArguments : Reader (List Node) := do
  let _ ← expect .lt
  let nodes ← separated .comma type
  let _ ← expect .gt
  return nodes

/-- Reads a function type. -/
def functionType : Reader Node := do
  let start := (← look).start
  let generics ← typeParametersIfAny type
  let arguments ← parameters type
  let _ ← expect .arrow
  let returned ← type
  return Node.inner .functionType start (← look).prevEnd (generics ++ arguments ++ [returned])

/-- Reads an element of a tuple. -/
def tupleElement : Reader Node := do
  let start := (← look).start
  let spread ← accept .ellipsis
  advance (← look).labelLength
  let element ← type
  let _ ← accept .question
  if spread then
    return Node.inner .spreadElement start (← look).prevEnd [element]
  else
    return element

/-- Reads a tuple type. -/
def tupleType : Reader Node := do
  let start := (← look).start
  let _ ← expect .lBracket
  let elements ← commaList .rBracket (tupleElement type)
  return Node.inner .tupleType start (← look).prevEnd elements

/-- Reads a type in round brackets. -/
def parenthesizedType : Reader Node := do
  let start := (← look).start
  let _ ← expect .lParen
  let inside ← type
  let _ ← expect .rParen
  return Node.inner .parenthesizedType start (← look).prevEnd [inside]

/-- Reads the type of an object given by its members, which are one level deeper. -/
def objectType : Reader Node := do
  let start := (← look).start
  let _ ← expect .lBrace
  let inside ← nested (typeMembers type)
  let _ ← expect .rBrace
  return Node.inner .typeLiteral start (← look).prevEnd inside

/-- Reads the type of a value, given by the value's name. -/
def typeQuery : Reader Node := do
  let start := (← look).start
  advance 1
  if (← look).nthIsWord 0 then
    let name ← entityName
    let arguments ← if (← look).isAt .lt then typeArguments type else pure []
    return Node.inner .typeQuery start (← look).prevEnd (name :: arguments)
  else
    fail .unnamedQuery

/-- Reads a named type with its type arguments. -/
def typeReference : Reader Node := do
  let start := (← look).start
  let name ← entityName
  let s ← look
  let arguments ← if s.isAt .lt && !s.atNewline then typeArguments type else pure []
  return Node.inner .typeReference start (← look).prevEnd (name :: arguments)

/-- Reads a type that starts with a word. There has to be one. -/
def wordType : Reader Node := do
  let s ← look
  let token ← demand s.rest.head?
  let word := token.text
  if word = "typeof" then
    typeQuery type
  else if word = "true" then
    advance 1
    return literalType (tokenLeaf .trueKeyword token)
  else if word = "false" then
    advance 1
    return literalType (tokenLeaf .falseKeyword token)
  else if word = "new" && (s.nthIs 1 .lParen || s.nthIs 1 .lt) then
    advance 1
    functionType type
  else if isTypeOperator word && s.nthIsWord 1 then
    fail (.typeOperator word)
  else
    match NodeKind.keywordType? word with
    | none => typeReference type
    | some kind =>
      if s.nthIs 1 .dot then
        typeReference type
      else
        advance 1
        return tokenLeaf kind token

/-- Reads a negative number as one literal. The number has to be there. -/
def negativeType (sign : Token) : Reader Node := do
  advance 1
  let number ← take
  return literalType
    (Node.leaf .numericLiteral ("-" ++ number.text) ⟨sign.span.start, number.span.stop⟩)

/-- Reads a primary type. -/
def primaryType : Reader Node := do
  let s ← look
  match s.rest with
  | [] => fail (.expected .type)
  | token :: _ =>
    match token.kind with
    | .lParen =>
      if ← demand (startsFunctionType s.rest) then functionType type else parenthesizedType type
    | .lt => functionType type
    | .lBrace => objectType type
    | .lBracket => tupleType type
    | .string =>
      advance 1
      return literalType (← stringLeaf token)
    | .number =>
      advance 1
      return literalType (tokenLeaf .numericLiteral token)
    | .minus => if s.nthIs 1 .number then negativeType token else fail (.expected .type)
    | .template => fail .templateType
    | .word => wordType type
    | _ => fail (.expected .type)

/-- Reads a pair of square brackets behind a type. -/
def suffix (start : Nat) (target : Node) : Reader Node := do
  let _ ← expect .lBracket
  if ← accept .rBracket then
    return Node.inner .arrayType start (← look).prevEnd [target]
  else
    let index ← type
    let _ ← expect .rBracket
    return Node.inner .indexedAccessType start (← look).prevEnd [target, index]

/-- Reads at most `count` pairs of square brackets behind a type. -/
def suffixesUpTo (start : Nat) : Nat → Node → Reader Node
  | 0, target => return target
  | count + 1, target => do
    if (← look).atSuffix then
      suffixesUpTo start count (← suffix type start target)
    else
      return target

/-- Reads a primary type and the square brackets behind it. -/
def postfixType : Reader Node := do
  advance (readonlyLength (← look).rest)
  let s ← look
  let target ← primaryType type
  suffixesUpTo type s.start s.rest.length target

/-- Reads a union of intersections. -/
def unionType : Reader Node :=
  operands .pipe .unionType (operands .amp .intersectionType (postfixType type))

end

/-- Reads a type that may have `levels` levels of types, its own included. -/
def typeWithin : Nat → Reader Node
  | 0 => refuse
  | levels + 1 => nested (unionType (typeWithin levels))

/-- Reads a type. -/
def type : Reader Node :=
  typeWithin maxDepth

section

variable {type : Reader Node} {parser : Parser Node} [Forward parser] (h : Mirrors type parser)

include h

theorem mirrors_typeParameter : Mirrors (typeParameter type) (Parser.typeParameter parser) := by
  refine .look fun s => .bind (.acceptWord _) fun _ => .look fun t => ?_
  refine .when (.advance 1) fun _ => .bind (mirrors_identifier _) fun name => ?_
  refine .bind (.optional (.acceptWord _) h) fun bound => ?_
  exact .bind (.optional (.accept _) h) fun preset => .look fun _ => .pure _

theorem mirrors_typeParametersIfAny :
    Mirrors (typeParametersIfAny type) (Parser.typeParametersIfAny parser) := by
  refine .look fun s => .ite (.bind (.expect _) fun _ => ?_) (.pure _)
  exact .commaList (mirrors_typeParameter h)

omit h in
theorem mirrors_binding : Mirrors binding Parser.binding := by
  refine .look fun s => ?_
  cases s.rest with
  | nil => exact .fail _
  | cons token rest =>
    dsimp only
    cases token.kind with
    | word => exact .bind (mirrors_identifier _) fun _ => .pure _
    | lBrace | lBracket => exact .bind .skipGroup fun _ => .pure _
    | _ => exact .fail _

theorem mirrors_parameter : Mirrors (parameter type) (Parser.parameter parser) := by
  refine .bind .skipDecorators fun _ => .look fun s => .bind (mirrors_modifiers _) fun words => ?_
  refine .bind (.accept _) fun _ => .bind mirrors_binding fun name => ?_
  refine .bind mirrors_questionMark fun question => .bind (.optional (.accept _) h) fun node => ?_
  refine .bind (.accept _) fun _ => .when (mirrors_skipInitializer _) fun _ => ?_
  exact .look fun _ => .pure _

theorem mirrors_parameters : Mirrors (parameters type) (Parser.parameters parser) :=
  .bind (.expect _) fun _ => .commaList (mirrors_parameter h)

omit [Forward parser] in
theorem mirrors_returnType (withBody : Bool) :
    Mirrors (returnType type withBody) (Parser.returnType parser withBody) := by
  intro s hs
  obtain ⟨hdefined, hlevel⟩ := h s hs
  refine ⟨?_, ?_⟩
  · show (type s).bind _ = _
    rw [hdefined]
    rfl
  · unfold Parser.returnType
    dsimp only
    split
    · exact hlevel
    · exact hlevel

omit h in
theorem mirrors_body : Mirrors body Parser.body :=
  .look fun _ => .ite .skipGroup (.bind (.accept _) fun _ => .pure ())

theorem mirrors_signature (withBody : Bool) :
    Mirrors (signature type withBody) (Parser.signature parser withBody) := by
  refine .bind (mirrors_typeParametersIfAny h) fun generics => ?_
  refine .bind (mirrors_parameters h) fun arguments => .bind (.accept _) fun _ => ?_
  exact .when (mirrors_returnType h withBody) fun _ => .when mirrors_body fun _ => .pure _

theorem mirrors_indexSignature :
    Mirrors (indexSignature type) (Parser.indexSignature parser) := by
  refine .bind (.expect _) fun _ => .look fun s => .bind (mirrors_identifier _) fun name => ?_
  refine .bind (.expect _) fun _ => .bind h fun keyType => .look fun t => ?_
  refine .bind (.expect _) fun _ => .bind mirrors_questionMark fun question => ?_
  exact .bind (.expect _) fun _ => .bind h fun value => .pure _

omit h in
theorem mirrors_readonlyMark : Mirrors readonlyMark Parser.readonlyMark := by
  refine .lookAt fun s hs => ?_
  cases hrest : s.rest with
  | nil =>
    have hword : ¬ s.atWord "readonly" := by simp [State.atWord, State.nthWord?, hrest]
    simp only [hword, Bool.false_and, if_false, Bool.false_eq_true]
    exact .pure [] s
  | cons token rest =>
    dsimp only
    split
    · exact .take hrest (.pure _ _)
    · exact .pure [] s

theorem mirrors_typeMember : Mirrors (typeMember type) (Parser.typeMember parser) := by
  refine .look fun s => .bind .takeDocs fun tags => .bind mirrors_readonlyMark fun words => ?_
  refine .look fun t => .ite ?_ (.ite ?_ (.ite ?_ ?_))
  · refine .bind (.advance 1) fun _ => .bind mirrors_memberName fun name => ?_
    exact .bind (mirrors_signature h false) fun parts => .look fun _ => .pure _
  · exact .bind (mirrors_indexSignature h) fun parts => .look fun _ => .pure _
  · refine .bind (.acceptWord _) fun _ => ?_
    exact .bind (mirrors_signature h false) fun parts => .look fun _ => .pure _
  · refine .bind mirrors_memberName fun name => .bind mirrors_questionMark fun question => ?_
    refine .look fun u => .ite ?_ ?_
    · exact .bind (mirrors_signature h false) fun parts => .look fun _ => .pure _
    · exact .bind (.optional (.accept _) h) fun node => .look fun _ => .pure _

theorem mirrors_typeMembers : Mirrors (typeMembers type) (Parser.typeMembers parser) :=
  .members (fun _ => rfl) (.bind (mirrors_typeMember h) fun _ => .pure _)

theorem mirrors_classMember : Mirrors (classMember type) (Parser.classMember parser) := by
  refine .bind .takeDocs fun before => .bind .skipDecorators fun _ => .bind .takeDocs fun tags => ?_
  refine .look fun s => .ite (.bind (.advance 1) fun _ => .bind .skipGroup fun _ => .pure _) ?_
  refine .bind (mirrors_modifiers _) fun words => .look fun t => .ite ?_ (.ite ?_ ?_)
  · refine .bind (.advance 1) fun _ => .bind (mirrors_parameters h) fun parts => ?_
    exact .bind mirrors_body fun _ => .look fun _ => .pure _
  · refine .bind (.advance 1) fun _ => .bind mirrors_memberName fun name => ?_
    exact .bind (mirrors_signature h true) fun parts => .look fun _ => .pure _
  refine .bind (.accept _) fun _ => .look fun u => .ite ?_ ?_
  · refine .bind (mirrors_indexSignature h) fun parts => .bind (.accept _) fun _ => ?_
    exact .look fun _ => .pure _
  refine .bind mirrors_memberName fun name => .bind mirrors_questionMark fun question => ?_
  refine .bind (.accept _) fun _ => .look fun v => .ite ?_ ?_
  · exact .bind (mirrors_signature h true) fun parts => .look fun _ => .pure _
  refine .bind (.optional (.accept _) h) fun node => .bind (.accept _) fun _ => ?_
  refine .when (mirrors_skipInitializer _) fun _ => .bind (.accept _) fun _ => ?_
  exact .look fun _ => .pure _

theorem mirrors_classMembers : Mirrors (classMembers type) (Parser.classMembers parser) :=
  .members (fun _ => rfl) (mirrors_classMember h)

theorem mirrors_operands (operator : TokenKind) (kind : NodeKind) :
    Mirrors (operands operator kind type) (Parser.operands operator kind parser) :=
  .look fun _ => .bind (.accept _) fun _ => .bind (.separated _ h) fun _ => .look fun _ => .pure _

theorem mirrors_typeArguments : Mirrors (typeArguments type) (Parser.typeArguments parser) :=
  .bind (.expect _) fun _ => .bind (.separated _ h) fun _ => .bind (.expect _) fun _ => .pure _

theorem mirrors_functionType : Mirrors (functionType type) (Parser.functionType parser) := by
  refine .look fun s => .bind (mirrors_typeParametersIfAny h) fun generics => ?_
  refine .bind (mirrors_parameters h) fun arguments => .bind (.expect _) fun _ => ?_
  exact .bind h fun returned => .look fun _ => .pure _

theorem mirrors_tupleElement : Mirrors (tupleElement type) (Parser.tupleElement parser) := by
  refine .look fun s => .bind (.accept _) fun spread => .look fun t => ?_
  refine .bind (.advance _) fun _ => ?_
  exact .bind h fun element => .bind (.accept _) fun _ => .ite (.look fun _ => .pure _) (.pure _)

theorem mirrors_tupleType : Mirrors (tupleType type) (Parser.tupleType parser) :=
  .look fun _ => .bind (.expect _) fun _ => .bind (.commaList (mirrors_tupleElement h)) fun _ =>
    .look fun _ => .pure _

theorem mirrors_parenthesizedType :
    Mirrors (parenthesizedType type) (Parser.parenthesizedType parser) :=
  .look fun _ => .bind (.expect _) fun _ => .bind h fun _ => .bind (.expect _) fun _ =>
    .look fun _ => .pure _

theorem mirrors_objectType : Mirrors (objectType type) (Parser.objectType parser) :=
  .look fun _ => .bind (.expect _) fun _ => .bind (mirrors_typeMembers h).nested fun _ =>
    .bind (.expect _) fun _ => .look fun _ => .pure _

theorem mirrors_typeQuery : Mirrors (typeQuery type) (Parser.typeQuery parser) := by
  refine .look fun s => .bind (.advance 1) fun _ => .look fun t => .ite ?_ (.fail _)
  refine .bind mirrors_entityName fun name => .look fun u => ?_
  exact .either (mirrors_typeArguments h) (.pure _) fun arguments => .look fun _ => .pure _

theorem mirrors_typeReference : Mirrors (typeReference type) (Parser.typeReference parser) := by
  refine .look fun s => .bind mirrors_entityName fun name => .look fun t => ?_
  exact .either (mirrors_typeArguments h) (.pure _) fun arguments => .look fun _ => .pure _

/-- The word that has to be there comes next. -/
theorem follows_wordType {s : State} (hs : Readable s) {token : Token} {rest : List Token}
    (hrest : s.rest = token :: rest) :
    Follows (wordType type) (Parser.wordType parser token) s := by
  have hhead : s.rest.head? = some token := by rw [hrest, List.head?_cons]
  have hname := mirrors_typeReference h
  refine .look ?_
  rw [demand_bind hhead]
  refine Mirrors.ite (mirrors_typeQuery h) (.ite ?_ (.ite ?_ (.ite ?_ (.ite (.fail _) ?_)))) s hs
  · exact .bind (.advance 1) fun _ => .pure _
  · exact .bind (.advance 1) fun _ => .pure _
  · exact .bind (.advance 1) fun _ => mirrors_functionType h
  · cases NodeKind.keywordType? token.text with
    | none => exact hname
    | some kind => exact .ite hname (.bind (.advance 1) fun _ => .pure _)

omit h in
/-- The number that has to be there comes next. -/
theorem follows_negativeType {s : State} (hnumber : s.nthIs 1 .number) (sign : Token) :
    Follows (negativeType sign) (Parser.negativeType sign) s := by
  unfold State.nthIs at hnumber
  cases hnext : s.rest[1]? with
  | none => simp [hnext] at hnumber
  | some number =>
    have hkind : number.kind = .number := by simpa [hnext] using hnumber
    obtain ⟨rest, hrest⟩ : ∃ rest, (s.advance 1).rest = number :: rest := by
      rw [State.rest_advance, ← List.head?_eq_some_iff, List.head?_drop, hnext]
    refine (Follows.lift (p := advance 1) rfl).bind fun _ t hrun => ?_
    cases hrun
    exact (Follows.takeToken hrest hkind _).bind fun number u _ => .pure _ u

theorem mirrors_primaryType : Mirrors (primaryType type) (Parser.primaryType parser) := by
  refine .lookAt fun s hs => ?_
  cases hrest : s.rest with
  | nil => exact Mirrors.fail _ s hs
  | cons token rest =>
    dsimp only
    cases hkind : token.kind with
    | lParen =>
      dsimp only
      rw [demand_bind (startsFunctionType_of_lParen hkind)]
      exact Mirrors.ite (mirrors_functionType h) (mirrors_parenthesizedType h) s hs
    | lt => exact mirrors_functionType h s hs
    | lBrace => exact mirrors_objectType h s hs
    | lBracket => exact mirrors_tupleType h s hs
    | string =>
      have hquotes := hs token (hrest ▸ List.mem_cons_self)
      simp only [stringLeaf_eq hquotes hkind]
      exact Mirrors.bind (.advance 1) (fun _ => .pure _) s hs
    | number => exact Mirrors.bind (.advance 1) (fun _ => .pure _) s hs
    | minus =>
      dsimp only
      split
      · next hnumber => exact follows_negativeType hnumber token
      · exact Mirrors.fail _ s hs
    | word => exact follows_wordType h hs hrest
    | _ => exact Mirrors.fail _ s hs

theorem mirrors_suffix (start : Nat) (target : Node) :
    Mirrors (suffix type start target) (Parser.suffix parser start target) := by
  refine .bind (.expect _) fun _ => .bind (.accept _) fun _ => .ite (.look fun _ => .pure _) ?_
  exact .bind h fun index => .bind (.expect _) fun _ => .look fun _ => .pure _

theorem mirrors_suffixesUpTo (start count : Nat) (target : Node) :
    Mirrors (suffixesUpTo type start count target)
      (Parser.suffixesUpTo parser start count target) := by
  induction count generalizing target with
  | zero => exact .pure target
  | succ count ih => exact .look fun s => .ite (.bind (mirrors_suffix h _ _) ih) (.pure target)

theorem mirrors_unionType : Mirrors (unionType type) (Parser.unionType parser) := by
  refine mirrors_operands (mirrors_operands ?_ _ _) _ _
  refine .look fun s => .bind (.advance _) fun _ => .look fun t => ?_
  exact .bind (mirrors_primaryType h) fun target => mirrors_suffixesUpTo h _ _ _

end

theorem mirrors_typeWithin (levels : Nat) :
    Mirrors (typeWithin levels) (Parser.typeWithin levels) := by
  induction levels with
  | zero => exact .refuse
  | succ levels ih => exact (mirrors_unionType ih).nested

end DeclSchema.Reader
