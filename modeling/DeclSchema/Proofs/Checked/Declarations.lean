import DeclSchema.Proofs.Checked.Types

/-!
# Sources read with checked steps

The grammar of declarations over readers. A statement is read by the kind of its node, and
there is a rule for the kinds that are announced only. Reading a source is always defined,
and gives its declaration tree.
-/

open DeclSchema.Parser

namespace DeclSchema

namespace Reader

/-- Reads the words and types that name what a declaration builds on. The first word has to
be there. -/
def heritageClause : Reader Node := do
  let keyword ← take
  let types ← separated .comma type
  return { Node.inner .heritageClause keyword.span.start (← look).prevEnd types with
    text := some keyword.text }

/-- Reads members in curly brackets. -/
def braced (inside : Reader (List Node)) : Reader (List Node) := do
  let _ ← expect .lBrace
  let nodes ← inside
  let _ ← expect .rBrace
  return nodes

/-- Reads an interface from its name on. -/
def interfaceParts : Reader (List Node) := do
  let name ← identifier .interfaceName
  let generics ← typeParametersIfAny type
  let clauses ← repeatWhile (·.atHeritage ["extends"]) heritageClause
  let inside ← braced (typeMembers type)
  return name :: generics ++ clauses ++ inside

/-- Reads the name of a class, which may be left out. -/
def className : Reader (List Node) := do
  let s ← look
  if s.nthIsWord 0 && !s.atHeritage ["extends", "implements"] then
    return [← identifier .className]
  else
    return []

/-- Reads a class from its name on. -/
def classParts : Reader (List Node) := do
  let name ← className
  let generics ← typeParametersIfAny type
  let clauses ← repeatWhile (·.atHeritage ["extends", "implements"]) heritageClause
  let inside ← braced (classMembers type)
  return name ++ generics ++ clauses ++ inside

/-- Reads a type alias from its name on. -/
def typeAliasParts : Reader (List Node) := do
  let name ← identifier .typeAliasName
  let generics ← typeParametersIfAny type
  let _ ← expect .eq
  let meaning ← type
  let _ ← accept .semicolon
  return name :: generics ++ [meaning]

/-- Reads an enumeration from its name on. -/
def enumParts : Reader (List Node) := do
  let name ← identifier .enumName
  if (← look).isAt .lBrace then
    skipGroup
    return [name]
  else
    fail (.expected (.mark .lBrace))

/-- Reads the name of a namespace, which a string literal may give. -/
def moduleName : Reader Node := do
  if (← look).isAt .string then
    stringLeaf (← take)
  else
    entityName

/-- Reads a namespace from its name on; `block` reads the statements in it. -/
def moduleParts (block : Reader (List Node)) : Reader (List Node) := do
  let name ← moduleName
  if (← look).isAt .lBrace then
    let opening ← take
    let statements ← block
    let _ ← expect .rBrace
    return [name, Node.inner .moduleBlock opening.span.start (← look).prevEnd statements]
  else
    let _ ← accept .semicolon
    return [name]

/-- Reads what a declaration consists of, by the kind of its node. -/
def partsOf (block : Reader (List Node)) : NodeKind → Reader (List Node)
  | .interfaceDeclaration => interfaceParts
  | .classDeclaration => classParts
  | .typeAliasDeclaration => typeAliasParts
  | .enumDeclaration => enumParts
  | .moduleDeclaration => moduleParts block
  | _ => demand none

/-- Reads a declaration from behind the words that announce it. -/
def declaration (block : Reader (List Node)) (first : State) (tags : List DocTag)
    (words : List Node) (heading : Heading) : Reader (Option Node) := do
  let parts ← partsOf block heading.kind
  let last ← look
  let node := heading.node first last tags (words ++ parts)
  note (.declared node first.errors last.errors)
  return some node

/-- Reads a statement. -/
def statement (block : Reader (List Node)) : Reader (Option Node) := do
  let first ← look
  let before ← takeDocs
  skipDecorators
  let behind ← takeDocs
  let words ← modifiers statementModifier
  let s ← look
  match s.heading? with
  | none =>
    advance (← demand (statementLength true 0 s.rest))
    return none
  | some (heading, announced) =>
    advance announced
    declaration block first (before ++ behind) words heading

/-- Reads statements up to a closing brace or the end. -/
def statements (block : Reader (List Node)) : Reader (List Node) :=
  members separatesStatements (statementLength true 0) (statement block)

/-- Reads the statements of a block that may have `levels` levels of blocks, its own
included. -/
def blockWithin : Nat → Reader (List Node)
  | 0 => refuse
  | levels + 1 => nested (statements (blockWithin levels))

/-- Reads at most `count` runs of statements with a stray brace between them. -/
def runsUpTo : Nat → Reader (List Node)
  | 0 => return []
  | count + 1 => do
    let nodes ← statements (blockWithin maxDepth)
    let s ← look
    if s.isAt .rBrace then
      report (s.errorHere .strayBrace)
      advance 1
      return nodes ++ (← runsUpTo count)
    else
      return nodes

/-- Reads the statements of a whole source. -/
def sourceFile : Reader (List Node) :=
  fun s => runsUpTo (s.rest.length + 1) s

theorem mirrors_type : Mirrors type Parser.type :=
  mirrors_typeWithin maxDepth

/-- A clause is read only where a word comes next. -/
theorem follows_heritageClause {words : List String} {s : State} (hs : Readable s)
    (h : s.atHeritage words) : Follows heritageClause Parser.heritageClause s := by
  cases hrest : s.rest with
  | nil => simp [State.atHeritage, State.nthWord?, hrest] at h
  | cons keyword rest =>
    have hrun : Parser.heritageClause s = (do
        Parser.advance 1
        let types ← Parser.separated .comma Parser.type
        return { Node.inner .heritageClause keyword.span.start (← Parser.look).prevEnd types with
          text := some keyword.text } : Parser Node) s := by
      unfold Parser.heritageClause
      rw [bind_apply_ok (show Parser.look s = (.ok s, s) from rfl), hrest]
    have hclause := Mirrors.bind (.separated .comma mirrors_type) fun types =>
      .look fun last => .pure
        { Node.inner .heritageClause keyword.span.start last.prevEnd types with
          text := some keyword.text }
    have hfollows : Follows heritageClause (do
        Parser.advance 1
        let types ← Parser.separated .comma Parser.type
        return { Node.inner .heritageClause keyword.span.start (← Parser.look).prevEnd types with
          text := some keyword.text }) s := by
      unfold heritageClause
      exact .take hrest (hclause _ (hs.advance 1))
    exact ⟨by rw [hrun]; exact hfollows.defined, by rw [hrun]; exact hfollows.level⟩

theorem mirrors_braced {inside : Reader (List Node)} {parser : Parser (List Node)}
    [Forward parser] (h : Mirrors inside parser) :
    Mirrors (braced inside) (Parser.braced parser) :=
  .bind (.expect _) fun _ => .bind h fun _ => .bind (.expect _) fun _ => .pure _

theorem mirrors_interfaceParts : Mirrors interfaceParts Parser.interfaceParts := by
  refine .bind (mirrors_identifier _) fun name => ?_
  refine .bind (mirrors_typeParametersIfAny mirrors_type) fun generics => ?_
  refine .bind (.repeatWhile fun _ => follows_heritageClause) fun clauses => ?_
  exact .bind (mirrors_braced (mirrors_typeMembers mirrors_type)) fun inside => .pure _

theorem mirrors_classParts : Mirrors classParts Parser.classParts := by
  refine .bind ?_ fun name => ?_
  · exact .look fun s => .ite (.bind (mirrors_identifier _) fun _ => .pure _) (.pure _)
  refine .bind (mirrors_typeParametersIfAny mirrors_type) fun generics => ?_
  refine .bind (.repeatWhile fun _ => follows_heritageClause) fun clauses => ?_
  exact .bind (mirrors_braced (mirrors_classMembers mirrors_type)) fun inside => .pure _

theorem mirrors_typeAliasParts : Mirrors typeAliasParts Parser.typeAliasParts := by
  refine .bind (mirrors_identifier _) fun name => ?_
  refine .bind (mirrors_typeParametersIfAny mirrors_type) fun generics => ?_
  refine .bind (.expect _) fun _ => .bind mirrors_type fun meaning => ?_
  exact .bind (.accept _) fun _ => .pure _

theorem mirrors_enumParts : Mirrors enumParts Parser.enumParts := by
  refine .bind (mirrors_identifier _) fun name => .look fun s => .ite ?_ (.fail _)
  exact .bind .skipGroup fun _ => .pure _

theorem mirrors_moduleName : Mirrors moduleName Parser.moduleName := by
  refine .lookAt fun s hs => ?_
  cases hrest : s.rest with
  | nil =>
    rw [if_neg (not_isAt_of_rest_eq_nil hrest)]
    exact mirrors_entityName s hs
  | cons token rest =>
    simp only [isAt_iff hrest]
    split
    · next hkind =>
      have hquotes := hs token (hrest ▸ List.mem_cons_self)
      refine .take hrest ?_
      rw [stringLeaf_eq hquotes hkind]
      exact .pure _ _
    · exact mirrors_entityName s hs

section

variable {block : Reader (List Node)} {parser : Parser (List Node)} [Forward parser]
  (h : Mirrors block parser)

include h

theorem mirrors_moduleParts : Mirrors (moduleParts block) (Parser.moduleParts parser) := by
  refine .bind mirrors_moduleName fun name => .lookAt fun s hs => ?_
  by_cases hat : s.isAt .lBrace
  · obtain ⟨opening, rest, hrest, hkind⟩ := rest_of_isAt hat
    have hstart : s.start = opening.span.start := by simp [State.start, hrest]
    simp only [if_pos hat, hstart, Parser.braced, bind_assoc, pure_bind]
    refine (Follows.takeToken hrest hkind _).bind fun mark t hrun => ?_
    cases (expect_of_eq hrest hkind).symm.trans hrun
    refine Mirrors.bind h (fun statements => ?_) _ (hs.advance 1)
    exact .bind (.expect _) fun _ => .look fun _ => .pure _
  · simp only [if_neg hat]
    exact Mirrors.bind (.accept _) (fun _ => .pure _) s hs

/-- The kinds that are announced have a rule. -/
theorem mirrors_partsOf (heading : Heading) :
    Mirrors (partsOf block heading.kind) (heading.parts parser) := by
  cases heading with
  | ofInterface => exact mirrors_interfaceParts
  | ofClass => exact mirrors_classParts
  | ofTypeAlias => exact mirrors_typeAliasParts
  | ofEnum => exact mirrors_enumParts
  | ofModule => exact mirrors_moduleParts h

theorem mirrors_statement : Mirrors (statement block) (Parser.statement parser) := by
  refine .look fun first => .bind .takeDocs fun before => .bind .skipDecorators fun _ => ?_
  refine .bind .takeDocs fun behind => .bind (mirrors_modifiers _) fun words => .look fun s => ?_
  cases s.heading? with
  | none =>
    dsimp only
    rw [statementLength_eq, demand_bind rfl]
    exact .bind (.advance _) fun _ => .pure _
  | some announced =>
    refine .bind (.advance _) fun _ => .bind (mirrors_partsOf h _) fun parts => .look fun last => ?_
    exact .bind (.note _) fun _ => .pure _

theorem mirrors_statements : Mirrors (statements block) (Parser.statements parser) :=
  .members (statementLength_eq true 0) (mirrors_statement h)

end

theorem mirrors_blockWithin (levels : Nat) :
    Mirrors (blockWithin levels) (Parser.blockWithin levels) := by
  induction levels with
  | zero => exact .refuse
  | succ levels ih => exact (mirrors_statements ih).nested

theorem mirrors_runsUpTo (count : Nat) : Mirrors (runsUpTo count) (Parser.runsUpTo count) := by
  induction count with
  | zero => exact .pure []
  | succ count ih =>
    refine .bind (mirrors_statements (mirrors_blockWithin maxDepth)) fun nodes => ?_
    refine .look fun s => .ite ?_ (.pure nodes)
    exact .bind (.report _) fun _ => .bind (.advance 1) fun _ => .bind ih fun _ => .pure _

theorem mirrors_sourceFile : Mirrors sourceFile Parser.sourceFile :=
  fun s hs => ⟨(mirrors_runsUpTo (s.rest.length + 1) s hs).defined,
    (mirrors_runsUpTo (s.rest.length + 1) s hs).level⟩

end Reader

namespace Checked

/-- The declaration tree of a source text. -/
def parse (source : String) : Option Parse := do
  let stream ← stream source
  let (result, s) ← Reader.sourceFile ⟨stream.tokens, 0, source.utf8ByteSize, stream.docs, 0, [], []⟩
  return ⟨⟨.sourceFile, none, [], ⟨0, source.utf8ByteSize⟩, result.toOption.getD []⟩, s.errors⟩

theorem parse_eq (source : String) : parse source = some (Parse.ofSource source) := by
  have hrun := (Reader.mirrors_sourceFile (State.ofSource source) (inQuotes_ofSource source)).defined
  rw [parse, stream_eq]
  show (Reader.sourceFile (State.ofSource source)).bind _ = _
  rw [hrun]
  rfl

end Checked

end DeclSchema
