import DeclSchema.Proofs.Extraction.Invariants

/-!
# Words among the texts of elements

Elements are called by words of their source, and refer to others by words: only keys of
members and literals have other characters in them. An annotation refers to a name only if
a reference below its node does (`refersTo_ofNode`), and references start with names, as
declarations have words for names, by the shape of their nodes.
-/

namespace DeclSchema

namespace Resolution

/-- Whether a reference to a name is a node or below it. -/
def RefersTo (node : Node) (name : String) : Prop :=
  ∃ inner ∈ node.preorder, (inner.kind = .typeReference ∨ inner.kind = .typeQuery) ∧
    target? inner.children = some name

theorem RefersTo.of_target {node : Node} {name : String}
    (hkind : node.kind = .typeReference ∨ node.kind = .typeQuery)
    (hname : target? node.children = some name) : RefersTo node name := by
  refine ⟨node, ?_, hkind, hname⟩
  rw [Node.preorder_eq]
  exact List.mem_cons_self

theorem RefersTo.of_child {node child : Node} {name : String} (h : RefersTo child name)
    (hchild : child ∈ node.children) : RefersTo node name := by
  obtain ⟨inner, hinner, hreference⟩ := h
  refine ⟨inner, ?_, hreference⟩
  rw [Node.preorder_eq]
  exact List.mem_cons_of_mem _ (Node.mem_preorderList.mpr ⟨child, hchild, hinner⟩)

theorem reference_mem_mergeRestrictions {types : List TypeVariant} {name : String} :
    .reference name ∈ mergeRestrictions types ↔ .reference name ∈ types := by
  have hmem : ∀ {types : List TypeVariant},
      .reference name ∈ types.filter (!·.isRestriction) ↔ .reference name ∈ types :=
    List.mem_filter.trans (and_iff_left rfl)
  rw [← hmem, filter_mergeRestrictions, hmem]

theorem not_reference_ofLiterals {children : List Node} {resolution : Resolution}
    (hrun : ofLiterals children = .ok resolution) (name : String) :
    .reference name ∉ resolution.types := by
  cases hliterals : children.mapM literal? with
  | error error => simp [ofLiterals, hliterals, bind, Except.bind] at hrun
  | ok values =>
    simp only [ofLiterals, hliterals, bind, Except.bind] at hrun
    split at hrun
    · cases hrun
    · cases hrun
      simp [single]

theorem not_reference_ofText {kind : NodeKind} {text : Option String} {resolution : Resolution}
    (hrun : ofText kind text = .ok resolution) (name : String) :
    .reference name ∉ resolution.types := by
  unfold ofText at hrun
  split at hrun
  · cases hrun
  · split at hrun
    · cases hrun
      simp [single]
    · cases hrun

theorem reference_mem_ofNested {kind : NodeKind} {types : List TypeVariant}
    {resolution : Resolution} (hrun : ofNested kind types = .ok resolution) {name : String} :
    .reference name ∈ resolution.types ↔ .reference name ∈ types := by
  unfold ofNested at hrun
  split at hrun
  · cases hrun
  · cases hrun
    exact reference_mem_mergeRestrictions

mutual

/-- An annotation refers to a name only if a reference in it does. -/
theorem refersTo_ofNode : ∀ (node : Node) (resolution : Resolution),
    ofNode node = .ok resolution → ∀ name, .reference name ∈ resolution.types →
      RefersTo node name
  | ⟨kind, text, tags, span, children⟩, resolution, hrun, name, hname => by
    have hfirst := refersTo_ofFirst children
    have htypes := refersTo_typesOf children
    have of_child (h : ∃ child ∈ children, RefersTo child name) :
        RefersTo ⟨kind, text, tags, span, children⟩ name := by
      obtain ⟨child, hchild, hname⟩ := h
      exact hname.of_child hchild
    rcases ofNode_cases hrun with ⟨type, rfl⟩ | ⟨-, hliterals⟩ | ⟨hkind, target, htarget, rfl⟩ |
      ⟨missing, accepts, hchild⟩ | ⟨types, hall, hnested⟩ | htext
    · simp [single] at hname
    · exact absurd hname (not_reference_ofLiterals hliterals name)
    · obtain rfl : name = target := by simpa [single] using hname
      exact .of_target hkind htarget
    · exact of_child (hfirst missing accepts resolution hchild name hname)
    · exact of_child (htypes types hall name ((reference_mem_ofNested hnested).mp hname))
    · exact absurd hname (not_reference_ofText htext name)

theorem refersTo_ofFirst : ∀ (nodes : List Node) (missing : ExtractionError)
    (accepts : NodeKind → Bool) (resolution : Resolution),
    ofFirst missing accepts nodes = .ok resolution →
      ∀ name, .reference name ∈ resolution.types → ∃ node ∈ nodes, RefersTo node name
  | [], missing, accepts, resolution, hrun, name, hname => by
    cases hrun
  | node :: rest, missing, accepts, resolution, hrun, name, hname => by
    rw [ofFirst] at hrun
    split at hrun
    · exact ⟨node, List.mem_cons_self, refersTo_ofNode node resolution hrun name hname⟩
    · obtain ⟨other, hother, h⟩ :=
        refersTo_ofFirst rest missing accepts resolution hrun name hname
      exact ⟨other, List.mem_cons_of_mem _ hother, h⟩

theorem refersTo_typesOf : ∀ (nodes : List Node) (types : List TypeVariant),
    typesOf nodes = .ok types →
      ∀ name, .reference name ∈ types → ∃ node ∈ nodes, RefersTo node name
  | [], types, hrun, name, hname => by
    cases hrun
    cases hname
  | node :: rest, types, hrun, name, hname => by
    have hnode := refersTo_ofNode node
    have hrest : ∀ types, typesOf rest = .ok types → .reference name ∈ types →
        ∃ other ∈ node :: rest, RefersTo other name := by
      intro types hrun hname
      obtain ⟨other, hother, h⟩ := refersTo_typesOf rest types hrun name hname
      exact ⟨other, List.mem_cons_of_mem _ hother, h⟩
    unfold typesOf at hrun
    split at hrun
    · cases hnodeRun : ofNode node with
      | error error =>
        rw [hnodeRun] at hrun
        cases hrun
      | ok resolution =>
        cases hrestRun : typesOf rest with
        | error error =>
          rw [hnodeRun, hrestRun] at hrun
          cases hrun
        | ok others =>
          rw [hnodeRun, hrestRun] at hrun
          cases hrun
          rcases List.mem_append.mp hname with hname | hname
          · exact ⟨node, List.mem_cons_self, hnode resolution hnodeRun name hname⟩
          · exact hrest others hrestRun hname
    · exact hrest types hrun hname

end

theorem isWord_of_refersTo {node : Node} (h : node.Shaped) {name : String}
    (hname : RefersTo node name) : Pattern.isWord name.toList := by
  obtain ⟨inner, hinner, hkind, htarget⟩ := hname
  have hformed := h inner hinner
  obtain ⟨head, arguments, words, hchildren, hnamed, -⟩ : ∃ head arguments words,
      inner.children = head :: arguments ∧ head.NamedBy words ∧
        ∀ argument ∈ arguments, argument.kind.isType := by
    rcases hkind with hkind | hkind <;> rwa [hkind] at hformed
  rw [hchildren, target?_of_namedBy hnamed, Option.some.injEq] at htarget
  subst htarget
  exact hnamed.spelled _ (List.getLast_mem _)

end Resolution

namespace Extraction

open Resolution

variable {options : ExtractionOptions} {source : String} {element : Element}

/-- An interface or a class is called by a word. -/
theorem isWord_declaredName {node : Node} (h : node.Shaped)
    (hkind : node.kind = .interfaceDeclaration ∨ node.kind = .classDeclaration) {name : String}
    (hname : declaredName node = some name) : Pattern.isWord name.toList := by
  have hworded : Node.Worded node.children := by
    have hformed := (Node.shaped_iff.mp h).1
    rcases hkind with hkind | hkind <;> rwa [hkind] at hformed
  obtain ⟨identifier, hidentifier, htext⟩ := Option.bind_eq_some_iff.mp hname
  have hidentifierKind : identifier.kind = .identifier := by
    simpa using List.find?_some hidentifier
  obtain ⟨word, hword, hspelled⟩ :=
    hworded identifier (List.mem_of_find?_eq_some hidentifier) hidentifierKind
  rw [hspelled, Option.some.injEq] at htext
  rwa [← htext]

theorem isWord_name (h : element ∈ (ofSource options source).elements) :
    Pattern.isWord element.name.toList := by
  obtain ⟨node, hnode, hkind, helement⟩ := exists_declaration h
  exact isWord_declaredName hnode hkind (element_eq_ok hnode helement).1

theorem isWord_of_property {node : Node} (h : node.Shaped) {declared : Property}
    (hrun : property node = .ok declared) {name : String}
    (hname : .reference name ∈ declared.types) : Pattern.isWord name.toList := by
  obtain ⟨type, htype, resolution, hresolution, htypes⟩ := property_eq_ok hrun
  rw [htypes] at hname
  exact isWord_of_refersTo (h.of_mem htype) (refersTo_ofNode type resolution hresolution name hname)

theorem isWord_reference (h : element ∈ (ofSource options source).elements) {declared : Property}
    (hdeclared : declared ∈ element.properties) {name : String}
    (hname : .reference name ∈ declared.types) : Pattern.isWord name.toList := by
  obtain ⟨node, hnode, -, helement⟩ := exists_declaration h
  obtain ⟨-, members, hmembers, hproperties⟩ := element_eq_ok hnode helement
  obtain ⟨member, hmember, hproperty⟩ := exists_of_mapM_ok hproperties declared hdeclared
  exact isWord_of_property (hmembers member hmember) hproperty hname

end Extraction

end DeclSchema
