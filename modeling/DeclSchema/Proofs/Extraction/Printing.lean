import DeclSchema.Proofs.Extraction.Accounting
import DeclSchema.Proofs.Extraction.Leaves
import DeclSchema.Proofs.Extraction.Places
import DeclSchema.Proofs.Phrase.Documents

/-!
# Elements as declarations

Elements can be written as interfaces, one on a line. The types of a property are the
members of a union; a restriction has a member for each of its values. Every type that can
be written is a phrase, so that the interfaces are read as they are written, and what they
mean are the elements (`Extraction.ofSource_declarations`).
-/

namespace DeclSchema

open Pattern Resolution TypeVariant

namespace Literal

/-- A literal in a declaration. -/
def source : Literal → String
  | .string value => Quoted.quote value
  | .number value => value.whole.repr

/-- Any text can be written, and the whole numbers of at most 53 bits. -/
def Printable : Literal → Prop
  | .string _ => True
  | .number value => ∃ n < 2 ^ 53, Binary64.ofNat? n = some value

/-- There is one zero among the whole numbers. -/
theorem eq_of_same {a b : Literal} (ha : a.Printable) (hb : b.Printable) (h : a.same b) :
    a = b := by
  have hpositive : ∀ {value : Binary64}, (Literal.number value).Printable →
      value.negative = false := by
    rintro value ⟨n, hn, hvalue⟩
    obtain ⟨x, hx, hsign, -⟩ := Binary64.ofNat?_of_lt hn
    rwa [Option.some.inj (hvalue.symm.trans hx)]
  cases a with
  | string text =>
    cases b with
    | string other => exact congrArg Literal.string (beq_iff_eq.mp h)
    | number value => cases h
  | number value =>
    cases b with
    | string text => cases h
    | number other =>
      have hsign := (hpositive ha).trans (hpositive hb).symm
      exact congrArg Literal.number ((Binary64.same_iff_eq hsign).mp h)

end Literal

namespace TypeVariant

/-- A type in a declaration. -/
def source : TypeVariant → String
  | .simple type => type.name
  | .restricted values => " | ".intercalate (values.map Literal.source)
  | .reference name => name

/-- A restriction can be written if it has values, each of them once. An element is
referred to by a word that means nothing else in the place of a type. -/
def Printable : TypeVariant → Prop
  | .simple _ => True
  | .restricted values => values ≠ [] ∧ values.Nodup ∧ ∀ value ∈ values, value.Printable
  | .reference name => isWord name.toList ∧ (NodeKind.keywordType? name).isNone ∧
      name ∉ ["typeof", "true", "false", "readonly", "Readonly", "ReturnType"]

end TypeVariant

namespace Property

/-- The name of a property in quotes. A property without a name has a word in brackets. -/
def keySource (property : Property) : String :=
  match property.name with
  | some name => Quoted.quote name
  | none => "[k]"

/-- The type of a property, which is an array if there may be several values. -/
def typeSource (property : Property) : String :=
  let union := " | ".intercalate (property.types.map TypeVariant.source)
  if property.multiple then "(" ++ union ++ ")[]" else union

/-- A property in a declaration. -/
def source (property : Property) : String :=
  property.keySource ++ (if property.mandatory then "" else "?") ++ ": " ++
    property.typeSource ++ ";"

/-- A property can be written if it has types, with one restriction at most. -/
structure Printable (property : Property) : Prop where
  ne_nil : property.types ≠ []
  types : ∀ type ∈ property.types, type.Printable
  one : (property.types.filter isRestriction).length ≤ 1

end Property

namespace Element

/-- An element as an interface. -/
def source (element : Element) : String :=
  "interface " ++ element.name ++ " \x7b" ++
    String.join (element.properties.map fun property => " " ++ property.source) ++ " \x7d"

structure Printable (element : Element) : Prop where
  name : isWord element.name.toList
  properties : ∀ property ∈ element.properties, property.Printable

/-- Elements as interfaces on a line each. -/
def declarations (elements : List Element) : String :=
  "\n".intercalate (elements.map source)

end Element

namespace TypeVariant

/-- The members of a union that a type is written as. -/
def members : TypeVariant → List TypeVariant
  | .restricted values => values.map fun value => .restricted [value]
  | type => [type]

theorem members_ne_nil {type : TypeVariant} (h : type.Printable) : type.members ≠ [] := by
  cases type with
  | restricted values => exact fun hnil => h.1 (List.map_eq_nil_iff.mp hnil)
  | simple | reference => exact List.cons_ne_nil _ _

theorem proper_of_printable {type : TypeVariant} (h : type.Printable) : type.Proper := by
  cases type with
  | simple type => trivial
  | restricted values =>
    obtain ⟨hne, hnodup, hvalues⟩ := h
    exact ⟨hne, hnodup.imp_of_mem fun ha hb hab hsame =>
      hab (Literal.eq_of_same (hvalues _ ha) (hvalues _ hb) hsame)⟩
  | reference name =>
    obtain ⟨hword, -, -⟩ := h
    refine ⟨?_, point_not_mem_of_isWord hword⟩
    rintro rfl
    cases hword

/-- Restrictions to one value each are merged into one restriction. -/
theorem mergeRestrictions_members {type : TypeVariant} (h : type.Printable) :
    mergeRestrictions type.members = [type] := by
  have hproper := proper_of_printable h
  cases type with
  | simple | reference => rfl
  | restricted values =>
    obtain ⟨value, rest, rfl⟩ := List.exists_cons_of_ne_nil hproper.1
    have hallowed : (rest.map fun value => restricted [value]).flatMap allowed = rest := by
      rw [List.flatMap_map]
      exact List.flatMap_singleton' rest
    have hothers : (rest.map fun value => restricted [value]).filter (!·.isRestriction) = [] := by
      simp [isRestriction]
    rw [members, List.map_cons, mergeRestrictions_restricted, hallowed, hothers,
      addLiterals_of_pairwise hproper.2]
    rfl

theorem mergeRestrictions_flatMap_members {types : List TypeVariant}
    (h : ∀ type ∈ types, type.Printable) :
    mergeRestrictions (types.flatMap members) = mergeRestrictions types := by
  induction types with
  | nil => rfl
  | cons type types ih =>
    obtain ⟨htype, htypes⟩ := List.forall_mem_cons.mp h
    calc mergeRestrictions (type.members ++ types.flatMap members)
      _ = mergeRestrictions ([type] ++ mergeRestrictions types) := by
        rw [← mergeRestrictions_append, mergeRestrictions_members htype, ih htypes]
      _ = mergeRestrictions (type :: types) := mergeRestrictions_append_right [type] types

theorem source_eq {type : TypeVariant} :
    type.source = " | ".intercalate (type.members.map source) := by
  cases type with
  | simple | reference => exact String.intercalate_singleton.symm
  | restricted values =>
    have hvalue : source ∘ (fun value => restricted [value]) = Literal.source :=
      funext fun value => String.intercalate_singleton (s := " | ")
    rw [source, members, List.map_map, hvalue]

/-- The members of all types are separated like the types. -/
theorem intercalate_source {types : List TypeVariant} (h : ∀ type ∈ types, type.Printable) :
    " | ".intercalate (types.map source) =
      " | ".intercalate ((types.flatMap members).map source) := by
  induction types with
  | nil => rfl
  | cons type types ih =>
    obtain ⟨htype, htypes⟩ := List.forall_mem_cons.mp h
    cases types with
    | nil => simp [source_eq]
    | cons next types =>
      have hmembers : type.members.map source ≠ [] :=
        fun hnil => members_ne_nil htype (List.map_eq_nil_iff.mp hnil)
      have hothers : ((next :: types).flatMap members).map source ≠ [] := by
        simp [members_ne_nil (htypes next List.mem_cons_self)]
      have hsplit : ((type :: next :: types).flatMap members).map source =
          type.members.map source ++ ((next :: types).flatMap members).map source := List.map_append
      rw [hsplit, String.intercalate_append_of_ne_nil hmembers hothers, ← ih htypes, ← source_eq]
      exact String.intercalate_cons_cons

end TypeVariant

namespace Node

/-- No interface and no class is in a tree. -/
def DeclaresNothing (node : Node) : Prop :=
  ∀ below ∈ node.preorder, below.kind ≠ .interfaceDeclaration ∧ below.kind ≠ .classDeclaration

theorem declaresNothing_bare {kind : NodeKind} {children : List Node}
    (h : kind ≠ .interfaceDeclaration ∧ kind ≠ .classDeclaration)
    (hchildren : ∀ child ∈ children, child.DeclaresNothing) :
    (bare kind children).DeclaresNothing :=
  forall_mem_preorder_iff.mpr ⟨h, hchildren⟩

theorem declaresNothing_bareLeaf {kind : NodeKind} (text : String)
    (h : kind ≠ .interfaceDeclaration ∧ kind ≠ .classDeclaration) :
    (bareLeaf kind text).DeclaresNothing :=
  forall_mem_preorder_iff.mpr ⟨h, List.forall_mem_nil _⟩

end Node

namespace SimpleType

/-- The keyword of a simple type. -/
def keyword : SimpleType → NodeKind
  | .any => .anyKeyword
  | .boolean => .booleanKeyword
  | .number => .numberKeyword
  | .string => .stringKeyword
  | .null => .nullKeyword
  | .undefined => .undefinedKeyword

theorem isWord_name (type : SimpleType) : isWord type.name.toList := by
  cases type <;> decide

theorem keywordType?_name (type : SimpleType) :
    NodeKind.keywordType? type.name = some type.keyword := by
  cases type <;> rfl

end SimpleType

/-- A phrase that is written as a text and means something, and is nested no deeper than
`levels`. -/
structure Writes {category : Category} (t : Phrase (.one category)) (levels : Nat) (text : String)
    (meaning : Resolution) : Prop where
  print : t.print = text
  depth : t.depth ≤ levels
  nodes : ∃ node : Node, t.nodes = [node] ∧ node.kind.isType ∧ ofNode node = .ok meaning ∧
    node.DeclaresNothing

namespace TypeVariant

theorem exists_writes_literal {value : Literal} (h : value.Printable) :
    ∃ t : Phrase (.one .suffixed), Writes t 0 value.source (single (.restricted [value])) := by
  cases value with
  | string text =>
    refine ⟨.string text, rfl, Nat.le_refl 0, _, rfl, rfl, rfl, ?_⟩
    exact Node.declaresNothing_bare (by decide) (by
      rintro child (_ | ⟨_, ⟨⟩⟩)
      exact Node.declaresNothing_bareLeaf _ (by decide))
  | number value =>
    obtain ⟨n, hn, hvalue⟩ := h
    have hsource : (Literal.number value).source = n.repr := by
      rw [Literal.source, Binary64.whole_of_ofNat? hn hvalue]
    refine ⟨.number false ⟨n.repr, isNumeral_repr n⟩, hsource.symm, Nat.le_refl 0, _, rfl, rfl,
      ?_, ?_⟩
    · have hread := (NumericLiteral.value?_repr hn).trans hvalue
      have hliteral : literal? (.bareLeaf .numericLiteral n.repr) = .ok (some (.number value)) := by
        simp [literal?, Node.bareLeaf, Node.leaf, hread]
      show ofLiterals [.bareLeaf .numericLiteral n.repr] = _
      rw [ofLiterals, List.mapM_cons, hliteral]
      rfl
    · refine Node.declaresNothing_bare (by decide) ?_
      rintro child (_ | ⟨_, ⟨⟩⟩)
      exact Node.declaresNothing_bareLeaf _ (by decide)

theorem exists_writes_member {type member : TypeVariant} (h : type.Printable)
    (hmember : member ∈ type.members) :
    ∃ t : Phrase (.one .suffixed), Writes t 0 member.source (single member) := by
  cases type with
  | simple type =>
    cases List.mem_singleton.mp hmember
    refine ⟨.keyword ⟨type.name, type.isWord_name⟩ type.keyword type.keywordType?_name, rfl,
      Nat.le_refl 0, _, rfl, ?_, ?_, ?_⟩
    · cases type <;> rfl
    · cases type <;> rfl
    · cases type <;> exact Node.declaresNothing_bareLeaf _ (by decide)
  | restricted values =>
    obtain ⟨value, hvalue, rfl⟩ := List.mem_map.mp hmember
    rw [source, List.map_singleton, String.intercalate_singleton]
    exact exists_writes_literal (h.2.2 value hvalue)
  | reference name =>
    cases List.mem_singleton.mp hmember
    obtain ⟨hword, hkeyword, hmeaning⟩ := h
    simp only [List.mem_cons, List.not_mem_nil, or_false, not_or] at hmeaning
    obtain ⟨htypeof, htrue, hfalse, hreadonly, hReadonly, hReturnType⟩ := hmeaning
    have hfree : ¬ (Word.mk name hword).isReserved := by
      simp [Word.isReserved, Option.isNone_iff_eq_none.mp hkeyword, htypeof, htrue, hfalse,
        hreadonly]
    refine ⟨.reference ⟨⟨name, hword⟩, []⟩ hfree, ?_, Nat.le_refl 0, _, rfl, rfl, ?_, ?_⟩
    · exact String.intercalate_singleton (s := ".")
    · have htarget : target? [.bareLeaf .identifier name] = some name :=
        congrArg some (lastSegment_of_point_not_mem (point_not_mem_of_isWord hword))
      show ofNode ⟨.typeReference, none, [], .empty 0, [.bareLeaf .identifier name]⟩ = _
      rw [ofNode, htarget]
      simp [unsupported, unmapped, simpleType?, hReadonly, hReturnType]
    · refine Node.declaresNothing_bare (by decide) ?_
      rintro child (_ | ⟨_, ⟨⟩⟩)
      exact Node.declaresNothing_bareLeaf _ (by decide)

theorem typesOf_nil : typesOf [] = .ok [] := by
  rw [typesOf]

theorem typesOf_cons {node : Node} (htype : node.kind.isType) {resolution : Resolution}
    (hnode : ofNode node = .ok resolution) {nodes : List Node} {types : List TypeVariant}
    (hnodes : typesOf nodes = .ok types) :
    typesOf (node :: nodes) = .ok (resolution.types ++ types) := by
  rw [typesOf, if_pos htype, hnode, hnodes]

theorem ofNode_bare {kind : NodeKind} (h : Groups kind) {nodes : List Node}
    {types : List TypeVariant} (hnodes : typesOf nodes = .ok types) (hne : types ≠ []) :
    ofNode (.bare kind nodes) = .ok ⟨mergeRestrictions types, kind = .arrayType⟩ := by
  have hnested : ofNested kind types = .ok ⟨mergeRestrictions types, kind = .arrayType⟩ :=
    if_neg (by simp [hne])
  rw [← hnested, Node.bare, ofNode_of_groups h, hnodes]

/-- The members of a union behind its first one. -/
theorem exists_writes_others {members : List TypeVariant}
    (h : ∀ member ∈ members,
      ∃ t : Phrase (.one .suffixed), Writes t 0 member.source (single member)) :
    ∃ others : Phrase (.others .intersection),
      (∀ text, text ++ others.print = " | ".intercalate (text :: members.map source)) ∧
      others.depth = 0 ∧ typesOf others.nodes = .ok members ∧
      ∀ node ∈ others.nodes, node.DeclaresNothing := by
  induction members with
  | nil => exact ⟨.done, fun text => by simp, rfl, rfl, by simp⟩
  | cons member members ih =>
    obtain ⟨⟨t, ht⟩, hmembers⟩ := List.forall_mem_cons.mp h
    obtain ⟨others, hprint, hdepth, htypes, hnothing⟩ := ih hmembers
    obtain ⟨node, hnodes, htype, hnode, hdeclares⟩ := ht.nodes
    refine ⟨.more (.ofSuffixed t) others, fun text => ?_, ?_, ?_, ?_⟩
    · rw [List.map_cons, String.intercalate_cons_cons, ← hprint, ← ht.print]
      simp [Category.separator, String.append_assoc]
    · have := ht.depth
      simp [hdepth]
      omega
    · show typesOf (t.nodes ++ others.nodes) = _
      rw [hnodes]
      exact typesOf_cons htype hnode htypes
    · show ∀ below ∈ t.nodes ++ others.nodes, below.DeclaresNothing
      rw [hnodes]
      exact List.forall_mem_cons.mpr ⟨hdeclares, hnothing⟩

/-- Types with their restrictions written value by value are a union, unless there is only
one of them. -/
theorem exists_writes_union {members : List TypeVariant} (hne : members ≠ [])
    (hproper : ∀ member ∈ members, member.Proper)
    (h : ∀ member ∈ members,
      ∃ t : Phrase (.one .suffixed), Writes t 0 member.source (single member)) :
    ∃ t : Phrase (.one .type), Writes t 1 (" | ".intercalate (members.map source))
      ⟨mergeRestrictions members, false⟩ := by
  obtain ⟨first, members, rfl⟩ := List.exists_cons_of_ne_nil hne
  obtain ⟨⟨t, ht⟩, hmembers⟩ := List.forall_mem_cons.mp h
  obtain ⟨node, hnodes, htype, hnode, hdeclares⟩ := ht.nodes
  cases members with
  | nil =>
    have hmerged := mergeRestrictions_of_wellFormed (wellFormed_single (hproper first (by simp)))
    refine ⟨.ofIntersection (.ofSuffixed t), ?_, ?_, node, hnodes, htype, ?_, hdeclares⟩
    · exact ht.print.trans (String.intercalate_singleton (s := " | ")).symm
    · exact Nat.succ_le_succ ht.depth
    · rw [hmerged]
      exact hnode
  | cons second members =>
    obtain ⟨⟨u, hu⟩, hmembers⟩ := List.forall_mem_cons.mp hmembers
    obtain ⟨other, hothers, hother, hmeaning, hnothing⟩ := hu.nodes
    obtain ⟨others, hprint, hdepth, htypes, hrest⟩ := exists_writes_others hmembers
    refine ⟨.union (.ofSuffixed t) (.ofSuffixed u) others, ?_, ?_, _, rfl, rfl, ?_, ?_⟩
    · rw [List.map_cons, List.map_cons, String.intercalate_cons_cons, ← hprint, ← ht.print,
        ← hu.print]
      simp [String.append_assoc]
    · have hfirst := ht.depth
      have hsecond := hu.depth
      simp [hdepth]
      omega
    · have hmembers := typesOf_cons htype hnode (typesOf_cons hother hmeaning htypes)
      show ofNode (.bare .unionType (t.nodes ++ u.nodes ++ others.nodes)) = _
      rw [hnodes, hothers]
      exact ofNode_bare (.inr (.inl rfl)) hmembers hne
    · refine Node.declaresNothing_bare (by decide) ?_
      show ∀ below ∈ t.nodes ++ u.nodes ++ others.nodes, below.DeclaresNothing
      rw [hnodes, hothers]
      exact List.forall_mem_cons.mpr ⟨hdeclares, List.forall_mem_cons.mpr ⟨hnothing, hrest⟩⟩

theorem proper_of_mem_members {type member : TypeVariant} (h : type.Printable)
    (hmember : member ∈ type.members) : member.Proper := by
  have hproper := proper_of_printable h
  cases type with
  | simple | reference =>
    rw [List.mem_singleton.mp hmember]
    exact hproper
  | restricted values =>
    obtain ⟨value, -, rfl⟩ := List.mem_map.mp hmember
    exact ⟨List.cons_ne_nil _ _, List.pairwise_singleton _ _⟩

end TypeVariant

theorem NodeKind.not_name_of_isType {kind : NodeKind} (h : kind.isType) :
    (kind ≠ .identifier ∧ kind ≠ .stringLiteral) ∧ kind ≠ .questionToken := by
  cases kind <;> first | decide | cases h

namespace Property

/-- The types of a property are written as a type that means them. -/
theorem exists_writes_typeSource {property : Property} (h : property.Printable) :
    ∃ t : Phrase (.one .type),
      Writes t 2 property.typeSource ⟨property.types, property.multiple⟩ := by
  obtain ⟨hne, htypes, hone⟩ := h
  have hproper : ∀ type ∈ property.types, type.Proper := fun type htype =>
    proper_of_printable (htypes type htype)
  have hmerged : mergeRestrictions (property.types.flatMap members) = property.types := by
    rw [mergeRestrictions_flatMap_members htypes,
      mergeRestrictions_of_wellFormed ⟨hne, hproper, hone⟩]
  have hmembers : property.types.flatMap members ≠ [] := by
    obtain ⟨type, rest, htype⟩ := List.exists_cons_of_ne_nil hne
    rw [htype] at htypes ⊢
    exact List.append_ne_nil_of_left_ne_nil (members_ne_nil (htypes type List.mem_cons_self)) _
  obtain ⟨t, ht⟩ := exists_writes_union hmembers
    (fun member hmember => by
      obtain ⟨type, htype, hmember⟩ := List.mem_flatMap.mp hmember
      exact proper_of_mem_members (htypes type htype) hmember)
    (fun member hmember => by
      obtain ⟨type, htype, hmember⟩ := List.mem_flatMap.mp hmember
      exact exists_writes_member (htypes type htype) hmember)
  rw [hmerged, ← intercalate_source htypes] at ht
  obtain ⟨node, hnodes, htype, hnode, hdeclares⟩ := ht.nodes
  unfold typeSource
  cases property.multiple with
  | false => exact ⟨t, ht.print, Nat.le_succ_of_le ht.depth, node, hnodes, htype, hnode, hdeclares⟩
  | true =>
    refine ⟨.ofIntersection (.ofSuffixed (.array (.parenthesized t))), ?_,
      Nat.succ_le_succ ht.depth, _, rfl, rfl, ?_, ?_⟩
    · show "(" ++ t.print ++ ")" ++ "[]" = _
      rw [ht.print, String.append_assoc]
      rfl
    · have hinside := typesOf_cons htype hnode (typesOf_nil)
      have hparentheses := ofNode_bare (.inl rfl) hinside (by simpa using hne)
      have harray := ofNode_bare (.inr (.inr rfl)) (typesOf_cons rfl hparentheses typesOf_nil)
        (by simpa using mergeRestrictions_ne_nil hne)
      simp only [List.append_nil, mergeRestrictions_of_wellFormed ⟨hne, hproper, hone⟩] at harray
      show ofNode (.bare .arrayType [.bare .parenthesizedType t.nodes]) = _
      rw [hnodes]
      exact harray
    · refine Node.declaresNothing_bare (by decide) ?_
      rintro child (_ | ⟨_, ⟨⟩⟩)
      refine Node.declaresNothing_bare (by decide) ?_
      rw [hnodes]
      rintro child (_ | ⟨_, ⟨⟩⟩)
      exact hdeclares

/-- A property without a name has a word in brackets where others have their name. -/
def key (property : Property) : Key :=
  match property.name with
  | some name => .string name
  | none => .computed ⟨"k", rfl⟩

/-- A property is written as one that is read as it. -/
theorem exists_phrase {property : Property} (h : property.Printable) :
    ∃ declared : PropertyPhrase, declared.print = " " ++ property.source ∧
      declared.phrase.depth ≤ 2 ∧ Extraction.property declared.node = .ok property ∧
      declared.node.DeclaresNothing := by
  obtain ⟨t, ht⟩ := exists_writes_typeSource h
  obtain ⟨node, hnodes, htype, hnode, hdeclares⟩ := ht.nodes
  obtain ⟨name, mandatory, types, multiple⟩ := property
  refine ⟨⟨key ⟨name, mandatory, types, multiple⟩, !mandatory, t⟩, ?_, ht.depth, ?_, ?_⟩
  · apply String.toList_injective
    have hprint := congrArg String.toList ht.print
    cases name <;> cases mandatory <;>
      simp [PropertyPhrase.print, source, keySource, key, Key.print, hprint]
  · obtain ⟨hkey, hquestion⟩ := NodeKind.not_name_of_isType htype
    have hstring : NodeKind.isType .stringLiteral = false := rfl
    have hmark : NodeKind.isType .questionToken = false := rfl
    cases name <;> cases mandatory <;>
      simp [Extraction.property, PropertyPhrase.node, Node.bare, Node.bareLeaf, Node.leaf, key,
        Key.nodes, Node.childText, Node.firstChildOf, Node.hasChild, Node.firstChild,
        Node.firstChildWhere, hstring, hmark, hnodes, htype, hnode, hkey, hquestion]
  · have hkey : ∀ child ∈ (key ⟨name, mandatory, types, multiple⟩).nodes,
        child.DeclaresNothing := by
      cases name with
      | none => exact List.forall_mem_nil _
      | some name =>
        exact List.forall_mem_singleton.mpr (Node.declaresNothing_bareLeaf _ (by decide))
    have hquestion : ∀ child ∈ (if !mandatory then [Node.bare .questionToken []] else []),
        child.DeclaresNothing := by
      cases mandatory with
      | true => exact List.forall_mem_nil _
      | false =>
        exact List.forall_mem_singleton.mpr
          (Node.declaresNothing_bare (by decide) (List.forall_mem_nil _))
    refine Node.declaresNothing_bare (by decide) ?_
    rw [List.forall_mem_append, List.forall_mem_append, hnodes]
    exact ⟨⟨hkey, hquestion⟩, List.forall_mem_singleton.mpr hdeclares⟩

/-- Properties are written one after the other. -/
theorem exists_phrases {properties : List Property}
    (h : ∀ property ∈ properties, property.Printable) :
    ∃ phrases : List PropertyPhrase,
      String.join (phrases.map PropertyPhrase.print) =
        String.join (properties.map fun property => " " ++ property.source) ∧
      (∀ phrase ∈ phrases, phrase.phrase.depth ≤ 2) ∧
      (phrases.map PropertyPhrase.node).mapM Extraction.property = .ok properties ∧
      ∀ node ∈ phrases.map PropertyPhrase.node, node.DeclaresNothing := by
  induction properties with
  | nil => exact ⟨[], rfl, by simp, rfl, by simp⟩
  | cons property properties ih =>
    obtain ⟨hproperty, hproperties⟩ := List.forall_mem_cons.mp h
    obtain ⟨phrase, hprint, hdepth, hrun, hnothing⟩ := exists_phrase hproperty
    obtain ⟨phrases, hprints, hdepths, hruns, hnothings⟩ := ih hproperties
    refine ⟨phrase :: phrases, ?_, List.forall_mem_cons.mpr ⟨hdepth, hdepths⟩, ?_,
      List.forall_mem_cons.mpr ⟨hnothing, hnothings⟩⟩
    · rw [List.map_cons, List.map_cons, String.join_cons, String.join_cons, hprint, hprints]
    · rw [List.map_cons, List.mapM_cons, hrun, hruns]
      rfl

end Property

namespace Element

/-- An element is written as an interface that becomes it. -/
theorem exists_phrase {element : Element} (h : element.Printable) :
    ∃ declared : InterfacePhrase, declared.print = element.source ∧
      (∀ property ∈ declared.properties, property.phrase.depth ≤ 2) ∧
      Extraction.element declared.node = .ok element ∧
      ∀ child ∈ declared.node.children, child.DeclaresNothing := by
  obtain ⟨name, properties⟩ := element
  obtain ⟨hname, hproperties⟩ := h
  obtain ⟨phrases, hprint, hdepth, hrun, hnothing⟩ := Property.exists_phrases hproperties
  refine ⟨⟨⟨name, hname⟩, phrases⟩, ?_, hdepth, ?_, ?_⟩
  · have htext : "interface " = "interface" ++ " " := by decide
    unfold source
    rw [InterfacePhrase.print, InterfacePhrase.printBehind, hprint, htext]
    simp only [String.append_assoc]
  · have hmembers : Extraction.interfaceMembers
        (InterfacePhrase.node ⟨⟨name, hname⟩, phrases⟩) = phrases.map PropertyPhrase.node := by
      rw [Extraction.interfaceMembers, Node.childrenOf, InterfacePhrase.node, Node.bare,
        List.filter_cons_of_neg Bool.false_ne_true, List.filter_eq_self]
      intro node hnode
      obtain ⟨phrase, -, rfl⟩ := List.mem_map.mp hnode
      rfl
    have hdeclared : Extraction.declaredName (InterfacePhrase.node ⟨⟨name, hname⟩, phrases⟩) =
        some name := rfl
    rw [Extraction.element, if_pos (by rfl), Extraction.elementOf, hmembers, hdeclared, hrun]
    rfl
  · exact List.forall_mem_cons.mpr ⟨Node.declaresNothing_bareLeaf _ (by decide), hnothing⟩

end Element

namespace Element

/-- Elements are written as a document of interfaces that become them. -/
theorem exists_document {elements : List Element} (h : ∀ element ∈ elements, element.Printable) :
    ∃ lines : List InterfacePhrase, document lines = declarations elements ∧
      (∀ line ∈ lines, ∀ property ∈ line.properties, property.phrase.depth ≤ 2) ∧
      lines.map (Extraction.element ·.node) = elements.map .ok ∧
      ∀ line ∈ lines, ∀ child ∈ line.node.children, child.DeclaresNothing := by
  have hlines : ∃ lines : List InterfacePhrase,
      lines.map InterfacePhrase.print = elements.map source ∧
      (∀ line ∈ lines, ∀ property ∈ line.properties, property.phrase.depth ≤ 2) ∧
      lines.map (Extraction.element ·.node) = elements.map .ok ∧
      ∀ line ∈ lines, ∀ child ∈ line.node.children, child.DeclaresNothing := by
    induction elements with
    | nil => exact ⟨[], rfl, by simp, rfl, by simp⟩
    | cons element elements ih =>
      obtain ⟨helement, helements⟩ := List.forall_mem_cons.mp h
      obtain ⟨line, hprint, hdepth, hrun, hnothing⟩ := exists_phrase helement
      obtain ⟨lines, hprints, hdepths, hruns, hnothings⟩ := ih helements
      refine ⟨line :: lines, ?_, List.forall_mem_cons.mpr ⟨hdepth, hdepths⟩, ?_,
        List.forall_mem_cons.mpr ⟨hnothing, hnothings⟩⟩
      · rw [List.map_cons, List.map_cons, hprint, hprints]
      · rw [List.map_cons, List.map_cons, hrun, hruns]
  obtain ⟨lines, hprints, hrest⟩ := hlines
  exact ⟨lines, congrArg "\n".intercalate hprints, hrest⟩

end Element

namespace Extraction

/-- Declarations that become elements of different names are all kept. -/
theorem entries_of_outcomes {parse : Parse} {nodes : List Node} {elements : List Element}
    (houtcomes : nodes.map (outcome parse) = elements.map .ok)
    (hnames : (elements.map Element.name).Nodup) :
    entries parse nodes = elements.map .inl := by
  induction nodes using List.reverseRecOn generalizing elements with
  | nil =>
    rw [List.map_eq_nil_iff.mp houtcomes.symm]
    rfl
  | append_singleton nodes node ih =>
    rw [List.map_append] at houtcomes
    obtain ⟨before, last, rfl, hbefore, hlast⟩ := List.map_eq_append_iff.mp houtcomes.symm
    obtain ⟨element, rfl, helement⟩ := List.map_eq_singleton_iff.mp hlast
    rw [List.map_append, List.nodup_append] at hnames
    obtain ⟨hnodup, -, hnew⟩ := hnames
    have hentries := ih hbefore.symm hnodup
    have hentry : entry parse (entries parse nodes) node = .inl element := by
      refine (entry_eq_inl_iff ..).mpr ⟨helement.symm, ?_⟩
      rintro ⟨other, hother, hname⟩
      rw [hentries] at hother
      obtain ⟨_, hmem, heq⟩ := List.mem_map.mp hother
      cases heq
      exact hnew _ (List.mem_map_of_mem hmem) _ (List.mem_singleton_self _) hname
    rw [entries_concat, hentry, hentries, List.map_append]
    rfl

/-- In a file of selected declarations, with no declaration in any of them, these are
selected. -/
theorem filter_selects_preorder {options : ExtractionOptions} {nodes : List Node}
    (hnodes : ∀ node ∈ nodes,
      selects options node ∧ ∀ child ∈ node.children, child.DeclaresNothing) :
    (Node.bare .sourceFile nodes).preorder.filter (selects options) = nodes := by
  have hfile : ¬ selects options (.bare .sourceFile nodes) := Bool.false_ne_true
  rw [Node.preorder_eq, List.filter_cons_of_neg hfile]
  show (Node.preorder.preorderList nodes).filter (selects options) = nodes
  induction nodes with
  | nil => rfl
  | cons node nodes ih =>
    obtain ⟨⟨hselected, hchildren⟩, hothers⟩ := List.forall_mem_cons.mp hnodes
    have hbelow : (Node.preorder.preorderList node.children).filter (selects options) = [] := by
      refine List.filter_eq_nil_iff.mpr fun below hbelow hselects => ?_
      obtain ⟨child, hchild, hmem⟩ := Node.mem_preorderList.mp hbelow
      obtain ⟨hinterface, hclass⟩ := hchildren child hchild below hmem
      unfold selects at hselects
      split at hselects
      · next heq => exact hinterface heq
      · next heq => exact hclass heq
      · cases hselects
    rw [Node.preorder.preorderList, List.filter_append, Node.preorder_eq,
      List.filter_cons_of_pos hselected, hbelow, ih hothers Bool.false_ne_true]
    rfl

/-- A source whose tree is known up to places, where each of the nodes becomes an element. -/
theorem ofSource_of_tree {options : ExtractionOptions} {source : String} {nodes : List Node}
    {elements : List Element} (herrors : (Parse.ofSource source).errors = [])
    (hroot : (Parse.ofSource source).root.withoutSpans = .bare .sourceFile nodes)
    (hselected : (Node.bare .sourceFile nodes).preorder.filter (selects options) = nodes)
    (hruns : nodes.map element = elements.map .ok)
    (hnames : (elements.map Element.name).Nodup) :
    (ofSource options source).elements = elements ∧
      (ofSource options source).diagnostics = [] := by
  have haccount := ofSource_eq_ofEntries options source
  generalize Parse.ofSource source = parse at herrors hroot haccount
  have hnodes : (parse.root.preorder.filter (selects options)).map Node.withoutSpans = nodes := by
    have hselects : selects options ∘ Node.withoutSpans = selects options :=
      funext (selects_withoutSpans options)
    rw [← hselects, ← List.filter_map, ← Node.preorder_withoutSpans, hroot, hselected]
  have houtcomes : (parse.root.preorder.filter (selects options)).map (outcome parse) =
      elements.map .ok := by
    have houtcome : outcome parse = element ∘ Node.withoutSpans := by
      funext node
      rw [outcome, Parse.errorsWithin, herrors, Function.comp_apply, element_withoutSpans]
      rfl
    rw [houtcome, ← List.map_map, hnodes, hruns]
  have hleft : (Sum.getLeft? : Element ⊕ Diagnostic → Option Element) ∘ Sum.inl = some := rfl
  rw [haccount, entries_of_outcomes houtcomes hnames, strayErrors, herrors]
  simp [ofEntries, diagnostics, hleft]

/-- What is written of elements becomes these elements, and nothing is dropped. -/
theorem ofSource_declarations {elements : List Element} (hnames : (elements.map Element.name).Nodup)
    (h : ∀ element ∈ elements, element.Printable) :
    (ofSource {} (Element.declarations elements)).elements = elements ∧
      (ofSource {} (Element.declarations elements)).diagnostics = [] := by
  obtain ⟨lines, hdocument, hdepth, hruns, hnothing⟩ := Element.exists_document h
  have hshallow : ∀ line ∈ lines, ∀ property ∈ line.properties,
      property.phrase.depth ≤ Parser.maxDepth := fun line hline property hproperty =>
    (hdepth line hline property hproperty).trans (by decide)
  obtain ⟨herrors, hroot⟩ := Parse.ofSource_document hshallow
  rw [hdocument] at herrors hroot
  refine ofSource_of_tree herrors hroot (filter_selects_preorder fun node hnode => ?_) ?_ hnames
  · obtain ⟨line, hline, rfl⟩ := List.mem_map.mp hnode
    exact ⟨rfl, hnothing line hline⟩
  · rw [List.map_map, ← hruns]
    rfl

/-- A name that needs quotes, a union of a reference and two values, and a property without
a name; the name of an element may be a keyword. -/
theorem ofSource_declarations_mixed :
    let seven : Binary64 := ⟨false, 7 * 2 ^ 50, -50, by decide, by decide, by decide, by decide⟩
    let values : List TypeVariant := [.reference "B", .restricted [.string "x | y", .number seven]]
    let elements : List Element :=
      [⟨"A", [⟨some "\"\\\n", false, values, true⟩, ⟨none, true, [.simple .any], false⟩]⟩,
        ⟨"interface", []⟩]
    Element.declarations elements =
        "interface A \x7b \"\\\"\\\\\\n\"?: (B | \"x | y\" | 7)[]; [k]: any; \x7d\n" ++
          "interface interface \x7b \x7d" ∧
      (elements.map Element.name).Nodup ∧ (∀ element ∈ elements, element.Printable) ∧
      (ofSource {} (Element.declarations elements)).elements = elements ∧
      (ofSource {} (Element.declarations elements)).diagnostics = [] := by
  intro seven values elements
  have hseven : (Literal.number seven).Printable := ⟨7, by decide, by decide +kernel⟩
  have hvalues : ∀ type ∈ values, type.Printable :=
    List.forall_mem_cons.mpr ⟨⟨by decide, by decide, by decide⟩, List.forall_mem_singleton.mpr
      ⟨List.cons_ne_nil _ _, by decide, List.forall_mem_cons.mpr
        ⟨trivial, List.forall_mem_singleton.mpr hseven⟩⟩⟩
  have hnames : (elements.map Element.name).Nodup := by decide
  have hprintable : ∀ element ∈ elements, element.Printable :=
    List.forall_mem_cons.mpr ⟨⟨by decide, List.forall_mem_cons.mpr
      ⟨⟨List.cons_ne_nil _ _, hvalues, by decide⟩, List.forall_mem_singleton.mpr
        ⟨List.cons_ne_nil _ _, List.forall_mem_singleton.mpr trivial, by decide⟩⟩⟩,
      List.forall_mem_singleton.mpr ⟨by decide, List.forall_mem_nil _⟩⟩
  exact ⟨by decide +kernel, hnames, hprintable, ofSource_declarations hnames hprintable⟩

end Extraction

end DeclSchema
