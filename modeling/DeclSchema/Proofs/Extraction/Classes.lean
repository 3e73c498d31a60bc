import DeclSchema.Proofs.Extraction.Printing
import DeclSchema.Proofs.Parser.Shape
import DeclSchema.Proofs.Phrase.ClassReading

/-!
# What a class means

The element of a marked class has the fields of its instances, in their order, and behind them
the public parameters of its constructors, in theirs. Methods, bodies, fields of the class itself
and hidden names leave no trace (`Extraction.ofSource_class`).
-/

namespace DeclSchema

open Pattern

/-- What a text means by itself, if it is read as a type to its end and without errors. -/
def Resolution.ofSource? (text : String) : Option Resolution :=
  let (result, left) := Parser.type (.ofSource text)
  if left.rest.isEmpty && left.errors.isEmpty then
    result.toOption.bind fun node => (ofNode node).toOption
  else
    none

theorem TypeText.ofSource?_text (typeText : TypeText) :
    Resolution.ofSource? typeText.text = some typeText.meaning := by
  unfold Resolution.ofSource?
  rw [typeText.isType.read]
  simp [typeText.isType.whole, typeText.isType.accepted, typeText.resolved, Except.toOption]

/-- The property of a key or name with a type. -/
def TypeText.property (typeText : TypeText) (name : String) (isOptional : Bool) : Property :=
  ⟨some name, !isOptional, typeText.meaning.types, typeText.meaning.multiple⟩

namespace ParameterPhrase

def property (parameter : ParameterPhrase) : Property :=
  parameter.typeText.property parameter.name.text parameter.isOptional

def isPublic (parameter : ParameterPhrase) : Bool :=
  parameter.modifiers.contains .ofPublic

end ParameterPhrase

namespace MemberPhrase

/-- The property of a field, if it belongs to the instances. -/
def fields : MemberPhrase → List Property
  | .field (.ofInstance key isOptional) typeText => [typeText.property key isOptional]
  | _ => []

/-- The properties of the public parameters of a constructor. -/
def publicParameters : MemberPhrase → List Property
  | .constructor parameters _ => (parameters.filter (·.isPublic)).map (·.property)
  | _ => []

end MemberPhrase

/-- The fields of the instances, then the public parameters of the constructors. -/
def ClassPhrase.properties (declared : ClassPhrase) : List Property :=
  declared.members.flatMap MemberPhrase.fields ++
    declared.members.flatMap MemberPhrase.publicParameters

theorem Node.Plain.declaresNothing {node : Node} (h : node.Plain) :
    node.withoutSpans.DeclaresNothing := by
  intro below hbelow
  rw [preorder_withoutSpans] at hbelow
  obtain ⟨inner, hinner, rfl⟩ := List.mem_map.mp hbelow
  have hkind := h inner hinner
  rw [kind_withoutSpans]
  constructor <;> intro heq <;> rw [heq] at hkind <;> cases hkind

namespace TypeText

variable (typeText : TypeText)

theorem isType_node : typeText.node.kind.isType :=
  (Parser.gives_type (.ofSource typeText.text) (TokenStream.spelled_ofSource typeText.text) _ _
    typeText.isType.read).isType

theorem declaresNothing_node : typeText.node.withoutSpans.DeclaresNothing := by
  have hlands := Parser.orderly_type _ (Parser.State.ordered_ofSource typeText.text)
  rw [typeText.isType.read] at hlands
  exact Node.Plain.declaresNothing hlands.2

/-- What stands before a type says how the property is called and whether it may be left out. -/
theorem property_bare (kind : NodeKind) {before : List Node}
    (hbefore : ∀ node ∈ before, node.kind.isType = false) :
    Extraction.property (.bare kind (before ++ [typeText.node.withoutSpans])) =
      .ok ⟨(before.find? fun node => [.identifier, .stringLiteral].contains node.kind).bind
        Node.text, !before.any (·.kind == .questionToken), typeText.meaning.types,
        typeText.meaning.multiple⟩ := by
  have htype := typeText.isType_node
  obtain ⟨⟨hidentifier, hliteral⟩, hquestion⟩ := NodeKind.not_name_of_isType htype
  have hnone : before.find? (fun node => node.kind.isType) = none :=
    List.find?_eq_none.mpr fun node hnode => by simp [hbefore node hnode]
  have hmark : (before.find? (·.kind == .questionToken)).isNone =
      !before.any (·.kind == .questionToken) := by
    rw [Bool.eq_iff_iff]
    simp
  have hmeaning := Resolution.ofNode_withoutSpans typeText.node
  rw [typeText.resolved] at hmeaning
  simp [Extraction.property, Node.bare, Node.childText, Node.firstChildOf, Node.hasChild,
    Node.firstChild, Node.firstChildWhere, List.find?_append, hnone, htype, hmeaning,
    hidentifier, hliteral, hquestion, hmark]

end TypeText

/-- A mark of this kind is there exactly if something may be left out. -/
theorem any_questionNodes (isOptional : Bool) :
    (questionNodes isOptional).any (·.kind == .questionToken) = isOptional := by
  cases isOptional <;> rfl

theorem isType_of_mem_questionNodes {isOptional : Bool} :
    ∀ node ∈ questionNodes isOptional, node.kind.isType = false := by
  cases isOptional <;> simp [questionNodes, Node.bare, NodeKind.isType]

theorem declaresNothing_of_mem_questionNodes {isOptional : Bool} :
    ∀ node ∈ questionNodes isOptional, node.DeclaresNothing := by
  cases isOptional with
  | true => exact List.forall_mem_singleton.mpr (Node.declaresNothing_bare (by decide) nofun)
  | false => exact List.forall_mem_nil _

namespace Modifier

theorem kind_node (modifier : Modifier) :
    modifier.node.kind.isType = false ∧ modifier.node.kind ≠ .identifier ∧
      modifier.node.kind ≠ .stringLiteral ∧ modifier.node.kind ≠ .questionToken ∧
      (modifier.node.kind = .publicKeyword ↔ modifier = .ofPublic) := by
  cases modifier <;> decide

end Modifier

namespace ParameterPhrase

variable (parameter : ParameterPhrase)

theorem property_node : Extraction.property parameter.node = .ok parameter.property := by
  have hbefore : ∀ node ∈ parameter.modifiers.map Modifier.node ++ [parameter.name.node] ++
      questionNodes parameter.isOptional, node.kind.isType = false := by
    intro node hnode
    rw [List.mem_append, List.mem_append, List.mem_singleton] at hnode
    rcases hnode with (hnode | rfl) | hnode
    · obtain ⟨modifier, -, rfl⟩ := List.mem_map.mp hnode
      exact modifier.kind_node.1
    · rfl
    · exact isType_of_mem_questionNodes node hnode
  have hnameless : (parameter.modifiers.map Modifier.node).find?
      (fun node => [.identifier, .stringLiteral].contains node.kind) = none := by
    refine List.find?_eq_none.mpr fun node hnode => ?_
    obtain ⟨modifier, -, rfl⟩ := List.mem_map.mp hnode
    simp [modifier.kind_node]
  have hplain : (parameter.modifiers.map Modifier.node).any (·.kind == .questionToken) = false := by
    simp [fun modifier : Modifier => modifier.kind_node]
  refine (parameter.typeText.property_bare .parameter hbefore).trans ?_
  rw [List.any_append, List.any_append, hplain, any_questionNodes, List.append_assoc,
    List.find?_append, hnameless]
  rfl

theorem isPublic_node : parameter.node.hasChild .publicKeyword = parameter.isPublic := by
  have htype : parameter.typeText.node.kind ≠ .publicKeyword := fun hkind => by
    have htype := parameter.typeText.isType_node
    rw [hkind] at htype
    cases htype
  have hquestion : ∀ node ∈ questionNodes parameter.isOptional, node.kind ≠ .publicKeyword := by
    cases parameter.isOptional <;> simp [questionNodes, Node.bare]
  rw [Bool.eq_iff_iff]
  simp [isPublic, Node.hasChild, Node.firstChild, Node.firstChildWhere, node, Node.bare, Word.node,
    Node.bareLeaf, Node.leaf, htype, fun modifier : Modifier => modifier.kind_node]
  exact fun mark hmark hkind => absurd hkind (hquestion mark hmark)

theorem declaresNothing_node : parameter.node.DeclaresNothing := by
  refine Node.declaresNothing_bare (by decide) fun child hchild => ?_
  simp only [List.mem_append, List.mem_map, List.mem_singleton] at hchild
  rcases hchild with ((⟨modifier, -, rfl⟩ | rfl) | hmark) | rfl
  · exact Node.declaresNothing_bareLeaf _ (by cases modifier <;> decide)
  · exact Node.declaresNothing_bareLeaf _ (by decide)
  · exact declaresNothing_of_mem_questionNodes child hmark
  · exact parameter.typeText.declaresNothing_node

end ParameterPhrase

theorem FieldHead.declaresNothing_of_mem_nodes (head : FieldHead) :
    ∀ node ∈ head.nodes, node.DeclaresNothing := by
  cases head with
  | ofInstance key isOptional =>
    refine List.forall_mem_cons.mpr ⟨?_, declaresNothing_of_mem_questionNodes⟩
    exact Node.declaresNothing_bareLeaf _ (by decide)
  | ofStatic key =>
    refine List.forall_mem_cons.mpr ⟨?_, List.forall_mem_singleton.mpr ?_⟩
    · exact Node.declaresNothing_bareLeaf _ (by decide)
    · exact Node.declaresNothing_bareLeaf _ (by decide)
  | ofHidden name =>
    exact List.forall_mem_singleton.mpr (Node.declaresNothing_bareLeaf _ (by decide))

namespace MemberPhrase

open Extraction

variable {typeText : TypeText}

theorem property_instance (key : String) (isOptional : Bool) :
    Extraction.property (field (.ofInstance key isOptional) typeText).node =
      .ok (typeText.property key isOptional) := by
  have hbefore : ∀ node ∈ (FieldHead.ofInstance key isOptional).nodes,
      node.kind.isType = false :=
    List.forall_mem_cons.mpr ⟨rfl, isType_of_mem_questionNodes⟩
  refine (typeText.property_bare .propertyDeclaration hbefore).trans ?_
  rw [FieldHead.nodes, List.any_cons, any_questionNodes]
  rfl

/-- A field of the instances has a key and is not static. -/
theorem isInstanceField_instance (key : String) (isOptional : Bool) :
    isInstanceField (field (.ofInstance key isOptional) typeText).node := by
  have htype := typeText.isType_node
  obtain ⟨⟨hidentifier, -⟩, -⟩ := NodeKind.not_name_of_isType htype
  have hstatic : typeText.node.kind ≠ .staticKeyword := fun hkind => by
    rw [hkind] at htype
    cases htype
  cases isOptional <;>
    simp [isInstanceField, node, FieldHead.nodes, questionNodes, Node.bare, Node.bareLeaf,
      Node.leaf, Node.hasChild, Node.firstChild, Node.childText, Node.firstChildOf,
      Node.firstChildWhere, hidentifier, hstatic]

theorem isInstanceField_static (key : String) :
    ¬ isInstanceField (field (.ofStatic key) typeText).node :=
  Bool.false_ne_true

theorem isInstanceField_hidden (name : Word) :
    ¬ isInstanceField (field (.ofHidden name) typeText).node := by
  simp [isInstanceField, node, FieldHead.nodes, Node.bare, Node.bareLeaf, Node.leaf,
    Node.childText, Node.firstChildOf, Node.firstChildWhere]

theorem mapM_fields (members : List MemberPhrase) :
    (((members.map node).filter ([.propertyDeclaration].contains ·.kind)).filter
      isInstanceField).mapM Extraction.property = .ok (members.flatMap fields) := by
  induction members with
  | nil => rfl
  | cons member members ih =>
    cases member with
    | field head typeText =>
      rw [List.map_cons, List.filter_cons_of_pos rfl]
      cases head with
      | ofInstance key isOptional =>
        rw [List.filter_cons_of_pos (isInstanceField_instance key isOptional),
          mapM_cons_ok (property_instance key isOptional), ih]
        rfl
      | ofStatic key =>
        rw [List.filter_cons_of_neg (isInstanceField_static key)]
        exact ih
      | ofHidden name =>
        rw [List.filter_cons_of_neg (isInstanceField_hidden name)]
        exact ih
    | method name h body => exact ih
    | constructor parameters body => exact ih

theorem mapM_parameters (parameters : List ParameterPhrase) (body : Body) :
    (((constructor parameters body).node.childrenOf [.parameter]).filter
      (·.hasChild .publicKeyword)).mapM Extraction.property =
        .ok (constructor parameters body).publicParameters := by
  have hall : (constructor parameters body).node.childrenOf [.parameter] =
      parameters.map ParameterPhrase.node := by
    refine List.filter_eq_self.mpr fun child hchild => ?_
    obtain ⟨parameter, -, rfl⟩ := List.mem_map.mp hchild
    rfl
  have hpublic : (fun node : Node => node.hasChild .publicKeyword) ∘ ParameterPhrase.node =
      ParameterPhrase.isPublic := funext ParameterPhrase.isPublic_node
  rw [hall, List.filter_map, hpublic, mapM_eq_ok_iff, List.forall₂_map_left_iff]
  exact List.forall₂_map_right_iff.mpr
    (List.forall₂_same.mpr fun parameter _ => parameter.property_node)

theorem mapM_publicParameters (members : List MemberPhrase) :
    ((((members.map node).filter ([.constructorDeclaration].contains ·.kind)).flatMap
      (·.childrenOf [.parameter])).filter (·.hasChild .publicKeyword)).mapM Extraction.property =
        .ok (members.flatMap publicParameters) := by
  induction members with
  | nil => rfl
  | cons member members ih =>
    cases member with
    | field head typeText => exact ih
    | method name h body => exact ih
    | constructor parameters body =>
      rw [List.map_cons, List.filter_cons_of_pos rfl, List.flatMap_cons, List.filter_append]
      exact mapM_append_ok (mapM_parameters parameters body) ih

theorem declaresNothing_node (member : MemberPhrase) : member.node.DeclaresNothing := by
  cases member with
  | field head typeText =>
    refine Node.declaresNothing_bare (by decide) (List.forall_mem_append.mpr ⟨?_, ?_⟩)
    · exact head.declaresNothing_of_mem_nodes
    · exact List.forall_mem_singleton.mpr typeText.declaresNothing_node
  | method name h body =>
    exact Node.declaresNothing_bare (by decide) (List.forall_mem_singleton.mpr
      (Node.declaresNothing_bareLeaf _ (by decide)))
  | constructor parameters body =>
    refine Node.declaresNothing_bare (by decide) fun child hchild => ?_
    obtain ⟨parameter, -, rfl⟩ := List.mem_map.mp hchild
    exact parameter.declaresNothing_node

end MemberPhrase

namespace ClassPhrase

variable (declared : ClassPhrase)

theorem selects_node : Extraction.selects {} declared.node := by
  have htags : DocTag.ofComment marker = [⟨"schema", none⟩] := by decide +kernel
  show ((DocTag.ofComment marker).any (·.name == "schema") && true) = true
  rw [htags]
  rfl

theorem declaresNothing_of_mem_children :
    ∀ child ∈ declared.node.children, child.DeclaresNothing := by
  refine List.forall_mem_cons.mpr ⟨Node.declaresNothing_bareLeaf _ (by decide), ?_⟩
  exact List.forall_mem_map.mpr fun member _ => member.declaresNothing_node

theorem element_node :
    Extraction.element declared.node = .ok ⟨declared.name.text, declared.properties⟩ := by
  have hmembers : (Extraction.classMembers declared.node).mapM Extraction.property =
      .ok declared.properties :=
    mapM_append_ok (MemberPhrase.mapM_fields _) (MemberPhrase.mapM_publicParameters _)
  show Extraction.elementOf "class" (Extraction.classMembers declared.node) declared.node = _
  rw [Extraction.elementOf, hmembers]
  rfl

end ClassPhrase

namespace Extraction

/-- A marked class becomes an element: the fields of its instances, then the public parameters
of its constructors. Nothing is dropped. -/
theorem ofSource_class (declared : ClassPhrase) :
    (ofSource {} declared.print).elements = [⟨declared.name.text, declared.properties⟩] ∧
      (ofSource {} declared.print).diagnostics = [] := by
  obtain ⟨herrors, hroot⟩ := Parse.ofSource_print declared
  refine ofSource_of_tree herrors hroot (filter_selects_preorder ?_)
    (congrArg ([·]) declared.element_node) (List.pairwise_singleton _ _)
  exact List.forall_mem_singleton.mpr
    ⟨declared.selects_node, declared.declaresNothing_of_mem_children⟩

/-- A list of numbers. -/
def numbers : TypeText where
  text := "number[]"
  node := .inner .arrayType 0 8 [.leaf .numberKeyword "number" ⟨0, 6⟩]
  left := (Parser.type (.ofSource "number[]")).2
  isType :=
    { known := by decide +kernel
      nested := by decide +kernel
      closed := by unfold Piece.EndsInLine; decide +kernel
      read := rfl
      whole := by decide +kernel
      accepted := by decide +kernel
      keeps := List.not_mem_nil
      plainly := by unfold EndsPlainly; decide +kernel }
  meaning := ⟨[.simple .number], true⟩
  resolved := rfl

/-- A reference or nothing. -/
def reference : TypeText where
  text := "B | null"
  node := .inner .unionType 0 8
    [.inner .typeReference 0 1 [.leaf .identifier "B" ⟨0, 1⟩], .leaf .nullKeyword "null" ⟨4, 8⟩]
  left := (Parser.type (.ofSource "B | null")).2
  isType :=
    { known := by decide +kernel
      nested := by decide +kernel
      closed := by unfold Piece.EndsInLine; decide +kernel
      read := rfl
      whole := by decide +kernel
      accepted := by decide +kernel
      keeps := List.not_mem_nil
      plainly := by unfold EndsPlainly; decide +kernel }
  meaning := ⟨[.reference "B", .simple .null], false⟩
  resolved := rfl

/-- Fields and constructors in turn, with a static field, a hidden name and a method. -/
theorem ofSource_class_mixed :
    let declared : ClassPhrase :=
      { name := ⟨"A", rfl⟩
        named := by decide
        members :=
          [.field (.ofInstance "x y" true) numbers,
            .constructor
              [⟨[.ofPrivate, .ofReadonly], ⟨"p", rfl⟩, false, reference⟩,
                ⟨[.ofReadonly, .ofPublic], ⟨"public", rfl⟩, true, numbers⟩]
              ⟨"if (p) \x7b new B() \x7d", by decide +kernel, by decide +kernel,
                by unfold Piece.EndsInLine; decide +kernel⟩,
            .field (.ofStatic "s") reference,
            .field (.ofHidden ⟨"h", rfl⟩) reference,
            .method ⟨"static", rfl⟩ (by decide)
              ⟨"return 1", by decide +kernel, by decide +kernel,
                by unfold Piece.EndsInLine; decide +kernel⟩,
            .field (.ofInstance "z" false) reference] }
    declared.print =
        "/** @schema */ class A \x7b \"x y\"?: number[]; " ++
          "constructor(private readonly p: B | null, readonly public public?: number[]) " ++
          "\x7b if (p) \x7b new B() \x7d \x7d static \"s\": B | null; #h: B | null; " ++
          "static() \x7b return 1 \x7d \"z\": B | null; \x7d" ∧
      (ofSource {} declared.print).elements =
        [⟨"A", [⟨some "x y", false, [.simple .number], true⟩,
          ⟨some "z", true, [.reference "B", .simple .null], false⟩,
          ⟨some "public", false, [.simple .number], true⟩]⟩] ∧
      (ofSource {} declared.print).diagnostics = [] := by
  intro declared
  exact ⟨by decide +kernel, ofSource_class declared⟩

/-- Classes that are not read though all their types have a meaning by themselves. A word that may
stand before a type is one by itself. A comment on one line hides what stands behind it, one that
is not closed ends in the next one, and a bracket may be closed by that of another type. A return
type that was given back at the end of the text goes on behind it. -/
theorem ofSource_class_unread :
    (Resolution.ofSource? "readonly" = some (.single (.reference "readonly")) ∧
      (ofSource {} "/** @schema */ class A \x7b \"k\": readonly; \x7d").elements = []) ∧
    ∀ unread ∈
      [(["A // x"], "\"k\": A // x;"),
        (["A<(a = /* ) => B>"], "\"k\": A<(a = /* ) => B>; m() \x7b /**/ \x7d"),
        (["(A<\x7b [ ( ] \x7d: B \x7d>)", "A<\x7b [ \x7b ) => ]: B \x7d>"],
          "\"k\": (A<\x7b [ ( ] \x7d: B \x7d>); \"l\": A<\x7b [ \x7b ) => ]: B \x7d>;"),
        (["A<\x7b m(): \x7b a: \x7b > > , n(): y z < < \x7d \x7d > , k: B \x7d>"],
          "\"k\": A<\x7b m(): \x7b a: \x7b > > , n(): y z < < \x7d \x7d > , k: B \x7d>;"),
        ([], "m() \x7b // \x7d")],
      (∀ text ∈ unread.1, (Resolution.ofSource? text).isSome) ∧
        (ofSource {} (ClassPhrase.marker ++ " class A \x7b " ++ unread.2 ++ " \x7d")).elements =
          [] := by
  decide +kernel

end Extraction

end DeclSchema
