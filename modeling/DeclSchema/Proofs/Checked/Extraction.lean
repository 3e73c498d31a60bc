import DeclSchema.Extraction.Basic
import DeclSchema.Proofs.Checked.Declarations
import DeclSchema.Proofs.Extraction.Merging

/-!
# Extraction with checked steps

Restrictions are merged in a loop that remembers the place of the first one, and numbers are
cut behind their radix. Both are always defined, whatever is merged and whatever the number
is. What is built on them may fail, but is defined as well.
-/

namespace DeclSchema

/-- A result that may be an error, and may be undefined. -/
abbrev Attempt (ε α : Type) : Type :=
  ExceptT ε Option α

namespace Attempt

variable {ε α β : Type}

/-- A result that is defined. -/
def done (result : Except ε α) : Attempt ε α :=
  ExceptT.mk (some result)

/-- The value that has to be there. -/
def demand (a? : Option α) : Attempt ε α :=
  ExceptT.lift a?

theorem done_ok_bind (a : α) (f : α → Attempt ε β) : (done (.ok a) >>= f) = f a := rfl

theorem demand_some_bind (a : α) (f : α → Attempt ε β) : (demand (some a) >>= f) = f a := rfl

theorem mapM_eq_done {f : α → Attempt ε β} {g : α → Except ε β} (h : ∀ a, f a = done (g a))
    (as : List α) : as.mapM f = done (as.mapM g) := by
  induction as with
  | nil => rfl
  | cons a as ih =>
    rw [List.mapM_cons, List.mapM_cons, h a, ih]
    cases g a with
    | error error => rfl
    | ok b => cases as.mapM g <;> rfl

end Attempt

namespace Checked

open Attempt Resolution

/-- The types merged so far, and the place of the first restriction among them. -/
structure Merging where
  merged : List TypeVariant
  first : Option Nat

/-- The place of the first restriction. If there is none yet, an empty one is put behind the
other types. -/
def Merging.place (merging : Merging) : Option (List TypeVariant × Nat) :=
  match merging.first with
  | some index => some (merging.merged, index)
  | none => do
    let merged := merging.merged ++ [.restricted []]
    return (merged, ← merged.length.ppred)

/-- Adds a type. The values of a restriction are added to the first one. -/
def Merging.add (merging : Merging) : TypeVariant → Option Merging
  | .restricted values => do
    let (merged, index) ← merging.place
    match ← merged[index]? with
    | .restricted existing =>
      return ⟨merged.set index (.restricted (values.foldl addLiteral existing)), some index⟩
    | _ => return ⟨merged, some index⟩
  | type => some ⟨merging.merged ++ [type], merging.first⟩

/-- Types with one restriction at most. -/
def merge (types : List TypeVariant) : Option (List TypeVariant) := do
  return (← types.foldlM Merging.add ⟨[], none⟩).merged

theorem add_of_not_isRestriction {type : TypeVariant} (h : type.isRestriction = false)
    (merging : Merging) : merging.add type = some ⟨merging.merged ++ [type], merging.first⟩ := by
  cases type <;> first | rfl | cases h

/-- Values are added to the restriction at the place of the first one. -/
theorem add_restricted (before after : List TypeVariant) (existing values : List Literal) :
    Merging.add ⟨before ++ .restricted existing :: after, some before.length⟩
        (.restricted values) =
      some ⟨before ++ .restricted (addLiterals existing values) :: after, some before.length⟩ := by
  simp [Merging.add, Merging.place, addLiterals]

/-- Without a restriction before, the values get a place behind the other types. -/
theorem add_restricted_first (merged : List TypeVariant) (values : List Literal) :
    Merging.add ⟨merged, none⟩ (.restricted values) =
      some ⟨merged ++ [.restricted (addLiterals [] values)], some merged.length⟩ := by
  have hadd := add_restricted merged [] [] values
  rw [Merging.add] at hadd ⊢
  simpa [Merging.place] using hadd

/-- Once there is a restriction, values are added to it and other types put behind. -/
theorem foldlM_add (before after types : List TypeVariant) (existing : List Literal) :
    types.foldlM Merging.add ⟨before ++ .restricted existing :: after, some before.length⟩ =
      some ⟨before ++ .restricted (addLiterals existing (types.flatMap TypeVariant.allowed)) ::
        (after ++ types.filter (!·.isRestriction)), some before.length⟩ := by
  induction types generalizing existing after with
  | nil => simp [addLiterals]
  | cons type types ih =>
    rw [List.foldlM_cons]
    cases h : type.isRestriction with
    | true =>
      obtain ⟨values, rfl⟩ := TypeVariant.exists_of_isRestriction h
      rw [add_restricted, Option.bind_eq_bind, Option.bind_some, ih]
      simp [TypeVariant.allowed, addLiterals_append, TypeVariant.isRestriction]
    | false =>
      rw [add_of_not_isRestriction h, Option.bind_eq_bind, Option.bind_some, List.append_assoc,
        List.cons_append, ih]
      simp [h, TypeVariant.allowed_eq_nil h]

/-- The place that is remembered is that of a restriction. -/
theorem exists_foldlM_add (merged types : List TypeVariant) :
    ∃ merging, types.foldlM Merging.add ⟨merged, none⟩ = some merging ∧
      merging.merged = merged ++ mergeRestrictions types := by
  induction types generalizing merged with
  | nil => exact ⟨_, rfl, by simp⟩
  | cons type types ih =>
    rw [List.foldlM_cons]
    cases h : type.isRestriction with
    | true =>
      obtain ⟨values, rfl⟩ := TypeVariant.exists_of_isRestriction h
      rw [add_restricted_first, Option.bind_eq_bind, Option.bind_some, foldlM_add]
      refine ⟨_, rfl, ?_⟩
      rw [mergeRestrictions_restricted, ← addLiterals_append, List.nil_append]
    | false =>
      rw [add_of_not_isRestriction h, Option.bind_eq_bind, Option.bind_some,
        mergeRestrictions_cons h]
      obtain ⟨merging, hrun, hmerged⟩ := ih (merged ++ [type])
      exact ⟨merging, hrun, by rw [hmerged, List.append_assoc]; rfl⟩

theorem merge_eq (types : List TypeVariant) : merge types = some (mergeRestrictions types) := by
  obtain ⟨merging, hrun, hmerged⟩ := exists_foldlM_add [] types
  rw [merge, hrun]
  exact congrArg some hmerged

/-- The literal that a node is, if it is one. -/
def literal? (node : Node) : Attempt ExtractionError (Option Literal) :=
  let text := node.text.getD ""
  match node.kind with
  | .stringLiteral => return some (.string text)
  | .numericLiteral => do
    match ← demand (numberValue text) with
    | some value => return some (.number value)
    | none => throw (.unsupportedType text)
  | .trueKeyword | .falseKeyword => throw .booleanLiteral
  | _ => return none

/-- The restriction that a literal type means. -/
def ofLiterals (children : List Node) : Attempt ExtractionError Resolution := do
  match (← children.mapM literal?).reduceOption with
  | [] => throw .emptyLiteral
  | values => return single (.restricted values)

/-- The annotation of a node whose type children mean the given types. -/
def ofNested (kind : NodeKind) (types : List TypeVariant) : Attempt ExtractionError Resolution :=
  if types.isEmpty then
    throw (.emptyType kind)
  else do
    return ⟨← demand (merge types), kind = .arrayType⟩

mutual

/-- What a node means as an annotation. -/
def ofNode : Node → Attempt ExtractionError Resolution
  | ⟨kind, text, _, _, children⟩ =>
    if unsupported kind then
      throw (.unsupportedKind kind)
    else if unmapped kind then
      throw (.unmappedKind kind)
    else
      match simpleType? kind with
      | some type => return single (.simple type)
      | none =>
        match kind with
        | .literalType => ofLiterals children
        | .typeQuery =>
          match target? children with
          | some name => return single (.reference name)
          | none => throw .namelessReference
        | .typeReference =>
          match target? children with
          | none => throw .namelessReference
          | some name =>
            if isPlain children && name = "ReturnType" then
              ofFirst (.missingQuery name) (· == .typeQuery) children
            else if isPlain children && name = "Readonly" then
              ofFirst (.missingArgument name) NodeKind.isType children
            else
              return single (.reference name)
        | .parenthesizedType | .unionType | .arrayType => do
          ofNested kind (← typesOf children)
        | _ => done (ofText kind text)

/-- What the first node of an accepted kind means. -/
def ofFirst (missing : ExtractionError) (accepts : NodeKind → Bool) :
    List Node → Attempt ExtractionError Resolution
  | [] => throw missing
  | node :: rest => if accepts node.kind then ofNode node else ofFirst missing accepts rest

/-- The types that the type nodes among several nodes mean, one after the other. -/
def typesOf : List Node → Attempt ExtractionError (List TypeVariant)
  | [] => return []
  | node :: rest =>
    if node.kind.isType then do
      let resolution ← ofNode node
      let types ← typesOf rest
      return resolution.types ++ types
    else
      typesOf rest

end

theorem literal?_eq (node : Node) : literal? node = done (Resolution.literal? node) := by
  unfold literal? Resolution.literal?
  cases node.kind with
  | numericLiteral =>
    dsimp only
    rw [numberValue_eq, demand_some_bind]
    cases NumericLiteral.value? (node.text.getD "") <;> rfl
  | _ => rfl

theorem ofLiterals_eq (children : List Node) :
    ofLiterals children = done (Resolution.ofLiterals children) := by
  rw [ofLiterals, Resolution.ofLiterals, mapM_eq_done literal?_eq]
  cases children.mapM Resolution.literal? with
  | error error => rfl
  | ok literals =>
    rw [done_ok_bind]
    show _ = done (match literals.reduceOption with
      | [] => _
      | values => _)
    split <;> rfl

theorem ofNested_eq (kind : NodeKind) (types : List TypeVariant) :
    ofNested kind types = done (Resolution.ofNested kind types) := by
  rw [ofNested, Resolution.ofNested, merge_eq]
  split <;> rfl

mutual

theorem ofNode_eq : ∀ node : Node, ofNode node = done (Resolution.ofNode node)
  | ⟨kind, text, tags, span, children⟩ => by
    have hfirst := fun missing accepts => ofFirst_eq missing accepts children
    have htypes := typesOf_eq children
    rw [ofNode.eq_def, Resolution.ofNode.eq_def]
    simp only [hfirst, htypes, ofLiterals_eq]
    cases kind with
    | typeQuery => cases target? children <;> rfl
    | typeReference =>
      cases target? children with
      | none => rfl
      | some name =>
        simp only [unsupported, unmapped, simpleType?, Bool.false_eq_true, if_false]
        split
        · rfl
        · split <;> rfl
    | parenthesizedType | unionType | arrayType =>
      cases Resolution.typesOf children with
      | error error => rfl
      | ok types => exact ofNested_eq _ types
    | _ => rfl

theorem ofFirst_eq (missing : ExtractionError) (accepts : NodeKind → Bool) :
    ∀ nodes : List Node, ofFirst missing accepts nodes =
      done (Resolution.ofFirst missing accepts nodes)
  | [] => rfl
  | node :: rest => by
    rw [ofFirst, Resolution.ofFirst, ofNode_eq node, ofFirst_eq missing accepts rest]
    split <;> rfl

theorem typesOf_eq : ∀ nodes : List Node, typesOf nodes = done (Resolution.typesOf nodes)
  | [] => rfl
  | node :: rest => by
    rw [typesOf, Resolution.typesOf, ofNode_eq node, typesOf_eq rest]
    split
    · cases Resolution.ofNode node with
      | error error => rfl
      | ok resolution => cases Resolution.typesOf rest <;> rfl
    · rfl

end

/-- The property that a member or parameter declares. -/
def property (node : Node) : Attempt ExtractionError Property :=
  let name := node.childText [.identifier, .stringLiteral]
  match node.firstChildWhere NodeKind.isType with
  | none => throw (.untyped (name.getD node.kind.name))
  | some type => do
    let resolution ← ofNode type
    return ⟨name, !node.hasChild .questionToken, resolution.types, resolution.multiple⟩

/-- The element of a declaration, with its properties from the given members. -/
def elementOf (what : String) (members : List Node) (node : Node) :
    Attempt ExtractionError Element :=
  match Extraction.declaredName node with
  | none => throw (.unnamed what)
  | some name => return ⟨name, ← members.mapM property⟩

/-- The element of an interface or class. -/
def element (node : Node) : Attempt ExtractionError Element :=
  if node.kind = .interfaceDeclaration then
    elementOf "interface" (Extraction.interfaceMembers node) node
  else
    elementOf "class" (Extraction.classMembers node) node

/-- What a selected declaration becomes when no other is in its way. -/
def outcome (parse : Parse) (node : Node) : Attempt ExtractionError Element :=
  match (parse.errorsWithin node.span).head? with
  | some error => throw (.malformed error)
  | none => element node

/-- Adds what a declaration becomes. -/
def add (parse : Parse) (extraction : Extraction) (node : Node) : Option Extraction := do
  match ← (outcome parse node).run with
  | .ok element =>
    if extraction.elements.any (·.name == element.name) then
      return { extraction with
        dropped := extraction.dropped ++ [⟨Extraction.declaredName node, .duplicate⟩] }
    else
      return { extraction with elements := extraction.elements ++ [element] }
  | .error error =>
    return { extraction with
      dropped := extraction.dropped ++ [⟨Extraction.declaredName node, error⟩] }

/-- The elements of a source text. -/
def extract (options : ExtractionOptions) (source : String) : Option Extraction := do
  let parse ← parse source
  let nodes := Extraction.selected options parse
  nodes.foldlM (add parse) ⟨[], [], Extraction.strayErrors parse nodes⟩

theorem property_eq (node : Node) : property node = done (Extraction.property node) := by
  unfold property Extraction.property
  cases node.firstChildWhere NodeKind.isType with
  | none => rfl
  | some type =>
    dsimp only
    rw [ofNode_eq]
    cases Resolution.ofNode type <;> rfl

theorem elementOf_eq (what : String) (members : List Node) (node : Node) :
    elementOf what members node = done (Extraction.elementOf what members node) := by
  unfold elementOf Extraction.elementOf
  cases Extraction.declaredName node with
  | none => rfl
  | some name =>
    dsimp only
    rw [mapM_eq_done property_eq]
    cases members.mapM Extraction.property <;> rfl

theorem outcome_eq (parse : Parse) (node : Node) :
    outcome parse node = done (Extraction.outcome parse node) := by
  unfold outcome Extraction.outcome
  cases (parse.errorsWithin node.span).head? with
  | some error => rfl
  | none =>
    unfold element Extraction.element
    dsimp only
    split <;> exact elementOf_eq _ _ _

theorem add_eq (parse : Parse) (extraction : Extraction) (node : Node) :
    add parse extraction node = some (Extraction.add parse extraction node) := by
  unfold add Extraction.add
  rw [outcome_eq]
  cases Extraction.outcome parse node with
  | error error => rfl
  | ok element =>
    show (if _ then _ else _) = some (if _ then _ else _)
    split <;> rfl

theorem foldlM_add_eq (parse : Parse) (extraction : Extraction) (nodes : List Node) :
    nodes.foldlM (add parse) extraction = some (nodes.foldl (Extraction.add parse) extraction) := by
  induction nodes generalizing extraction with
  | nil => rfl
  | cons node nodes ih =>
    rw [List.foldlM_cons, add_eq, Option.bind_eq_bind, Option.bind_some, ih]
    rfl

theorem extract_eq (options : ExtractionOptions) (source : String) :
    extract options source = some (Extraction.ofSource options source) := by
  rw [extract, parse_eq, Option.bind_eq_bind, Option.bind_some]
  exact foldlM_add_eq (Parse.ofSource source) ⟨[], [], _⟩ _

end Checked

end DeclSchema
