import DeclSchema.Proofs.Extraction.Meaning

/-!
# The leaves of an annotation

Brackets, unions, arrays and the references `Readonly` and `ReturnType` only group other
annotations. What is left without them are the leaves, and an annotation means what its
leaves mean: their types one after the other, with the restrictions merged, or the error
of the first leaf that means nothing. Restrictions are merged at every level on the way,
which makes no difference by `mergeRestrictions_append`.

`ofNode_leaves` is the step from one level to the next and `ofNode_iff_leaves` the account
for every type node of a source.
-/

namespace DeclSchema

namespace Resolution

/-- Whether the children of a reference begin with the given name, without points. -/
def isCalled (name : String) (children : List Node) : Bool :=
  children.head?.any fun child => child.kind == .identifier && child.text == some name

mutual

/-- The annotations that an annotation groups, in the order of the source. -/
def leaves : Node → List Node
  | ⟨kind, text, tags, span, children⟩ =>
    match kind with
    | .parenthesizedType | .unionType | .arrayType => leavesOf children
    | .typeReference =>
      if isCalled "Readonly" children then
        leavesOfFirst [⟨kind, text, tags, span, children⟩] children
      else if isCalled "ReturnType" children then
        match children.find? (·.kind == .typeQuery) with
        | some query => [query]
        | none => [⟨kind, text, tags, span, children⟩]
      else
        [⟨kind, text, tags, span, children⟩]
    | _ => [⟨kind, text, tags, span, children⟩]

/-- The leaves of the types among several nodes. -/
def leavesOf : List Node → List Node
  | [] => []
  | node :: rest => if node.kind.isType then leaves node ++ leavesOf rest else leavesOf rest

/-- The leaves of the first type among several nodes, or others if there is none. -/
def leavesOfFirst (others : List Node) : List Node → List Node
  | [] => others
  | node :: rest => if node.kind.isType then leaves node else leavesOfFirst others rest

end

mutual

/-- An annotation without the references `Readonly` around it. -/
def stripReadonly : Node → Node
  | ⟨kind, text, tags, span, children⟩ =>
    if kind = .typeReference ∧ isCalled "Readonly" children then
      stripFirst ⟨kind, text, tags, span, children⟩ children
    else
      ⟨kind, text, tags, span, children⟩

/-- The first type among several nodes without the references `Readonly` around it, or
another node if there is none. -/
def stripFirst (other : Node) : List Node → Node
  | [] => other
  | node :: rest => if node.kind.isType then stripReadonly node else stripFirst other rest

end

/-- The types that several annotations mean, one after the other. -/
def gather : List Node → Except ExtractionError (List TypeVariant)
  | [] => .ok []
  | node :: rest =>
    match ofNode node with
    | .error error => .error error
    | .ok resolution => (gather rest).map (resolution.types ++ ·)

theorem gather_append_error {first : List Node} {error : ExtractionError}
    (h : gather first = .error error) (second : List Node) :
    gather (first ++ second) = .error error := by
  induction first with
  | nil => cases h
  | cons node rest ih =>
    rw [gather] at h
    rw [List.cons_append, gather]
    cases hnode : ofNode node with
    | error other =>
      rw [hnode] at h
      exact h
    | ok resolution =>
      rw [hnode] at h
      cases hrest : gather rest with
      | error other =>
        rw [hrest] at h
        rw [ih (hrest.trans h)]
        rfl
      | ok types =>
        rw [hrest] at h
        cases h

theorem gather_append_ok {first : List Node} {types : List TypeVariant}
    (h : gather first = .ok types) (second : List Node) :
    gather (first ++ second) = (gather second).map (types ++ ·) := by
  induction first generalizing types with
  | nil =>
    cases h
    cases hsecond : gather second <;> simp [hsecond, Except.map]
  | cons node rest ih =>
    rw [gather] at h
    rw [List.cons_append, gather]
    cases hnode : ofNode node with
    | error other =>
      rw [hnode] at h
      cases h
    | ok resolution =>
      rw [hnode] at h
      cases hrest : gather rest with
      | error other =>
        rw [hrest] at h
        cases h
      | ok others =>
        rw [hrest] at h
        cases h
        simp only [ih hrest]
        cases gather second <;> simp [Except.map]

/-- Whether a node of the kind means what the types in it mean together. -/
def Groups (kind : NodeKind) : Prop :=
  kind = .parenthesizedType ∨ kind = .unionType ∨ kind = .arrayType

section

variable {kind : NodeKind} {text : Option String} {tags : List DocTag} {span : Span}
  {children : List Node}

theorem ofNode_of_groups (h : Groups kind) :
    ofNode ⟨kind, text, tags, span, children⟩ =
      match typesOf children with
      | .ok types => ofNested kind types
      | .error error => .error error := by
  rcases h with rfl | rfl | rfl <;> rw [ofNode] <;> rfl

theorem leaves_of_groups (h : Groups kind) :
    leaves ⟨kind, text, tags, span, children⟩ = leavesOf children := by
  rcases h with rfl | rfl | rfl <;> rw [leaves]

theorem exists_type_of_groups (h : Groups kind) (hformed : Node.Formed kind children) :
    ∃ child ∈ children, child.kind.isType := by
  rcases h with rfl | rfl | rfl <;> exact hformed

theorem leaves_of_other (hgroups : ¬ Groups kind) (hreference : kind ≠ .typeReference) :
    leaves ⟨kind, text, tags, span, children⟩ = [⟨kind, text, tags, span, children⟩] := by
  unfold Groups at hgroups
  rw [leaves] <;> grind

/-- A reference is called by a name if that is all its name consists of. -/
theorem isCalled_iff (h : Node.Formed .typeReference children) (name : String) :
    isCalled name children ↔ isPlain children ∧ target? children = some name := by
  obtain ⟨head, arguments, words, rfl, hnamed, harguments⟩ := h
  rw [target?_of_namedBy hnamed, isCalled, List.head?_cons, Option.any_some]
  rcases hnamed.kind with ⟨hkind, hlength⟩ | ⟨hkind, -⟩
  · obtain ⟨word, rfl⟩ := List.length_eq_one_iff.mp hlength
    have htext : head.text = some word := hnamed.text.trans (by simp)
    simp [isPlain, hkind, htext]
  · have hplain : ∀ argument ∈ arguments, argument.kind ≠ .identifier := by
      intro argument hargument heq
      have htype := harguments argument hargument
      rw [heq] at htype
      cases htype
    simpa [isPlain, hkind] using fun argument hargument heq =>
      absurd heq (hplain argument hargument)

theorem exists_target? (h : Node.Formed .typeReference children) :
    ∃ name, target? children = some name := by
  obtain ⟨head, arguments, words, rfl, hnamed, -⟩ := h
  exact ⟨_, target?_of_namedBy hnamed arguments⟩

/-- What a reference means, by what it is called. -/
theorem ofNode_reference (h : Node.Formed .typeReference children) :
    ofNode ⟨.typeReference, text, tags, span, children⟩ =
      if isCalled "Readonly" children then
        ofFirst (.missingArgument "Readonly") NodeKind.isType children
      else if isCalled "ReturnType" children then
        ofFirst (.missingQuery "ReturnType") (· == .typeQuery) children
      else
        .ok (single (.reference ((target? children).getD ""))) := by
  obtain ⟨name, hname⟩ := exists_target? h
  have hreadonly := isCalled_iff h "Readonly"
  have hreturn := isCalled_iff h "ReturnType"
  rw [hname, Option.some.injEq] at hreadonly hreturn
  rw [ofNode, hname]
  simp only [unsupported, unmapped, simpleType?, Bool.false_eq_true, if_false]
  grind

end

theorem typesOf_ne_nil : ∀ {nodes : List Node} (_ : Node.AllShaped nodes)
    (_ : ∃ node ∈ nodes, node.kind.isType) {types : List TypeVariant}
    (_ : typesOf nodes = .ok types), types ≠ []
  | node :: rest, hshaped, hexists, types, hrun => by
    obtain ⟨hnode, hrest⟩ := Node.allShaped_cons.mp hshaped
    rw [typesOf] at hrun
    split at hrun
    · cases hresolution : ofNode node with
      | error error =>
        rw [hresolution] at hrun
        cases hrun
      | ok resolution =>
        have hne := (wellFormed_ofNode node hnode resolution hresolution).ne_nil
        cases hothers : typesOf rest with
        | error error =>
          rw [hresolution, hothers] at hrun
          cases hrun
        | ok others =>
          rw [hresolution, hothers] at hrun
          cases hrun
          exact List.append_ne_nil_of_left_ne_nil hne others
    · next htype =>
      obtain ⟨other, hother, hothertype⟩ := hexists
      rcases List.mem_cons.mp hother with rfl | hother
      · exact absurd hothertype htype
      · exact typesOf_ne_nil hrest ⟨other, hother, hothertype⟩ hrun

/-- The first node of an accepted kind decides. -/
theorem ofFirst_eq (missing : ExtractionError) (accepts : NodeKind → Bool) (nodes : List Node) :
    ofFirst missing accepts nodes =
      match nodes.find? (accepts ·.kind) with
      | none => .error missing
      | some node => ofNode node := by
  induction nodes with
  | nil => rfl
  | cons node rest ih =>
    rw [ofFirst, List.find?_cons]
    cases accepts node.kind with
    | true => rfl
    | false => exact ih

theorem leavesOfFirst_of_none (others : List Node) {nodes : List Node}
    (h : ∀ node ∈ nodes, ¬ node.kind.isType) : leavesOfFirst others nodes = others := by
  induction nodes with
  | nil => rfl
  | cons node rest ih =>
    rw [leavesOfFirst, if_neg (h node List.mem_cons_self),
      ih fun other hother => h other (List.mem_cons_of_mem _ hother)]

theorem eq_error_of_map {α β ε : Type} {f : α → β} {result : Except ε α} {error : ε}
    (h : result.map f = .error error) : result = .error error := by
  cases result with
  | error other =>
    cases h
    rfl
  | ok value => cases h

theorem exists_of_map {α β ε : Type} {f : α → β} {result : Except ε α} {value : β}
    (h : result.map f = .ok value) : ∃ found, result = .ok found ∧ f found = value := by
  cases result with
  | error error => cases h
  | ok found =>
    cases h
    exact ⟨found, rfl, rfl⟩

/-- A node that is a leaf of itself means what it means. -/
theorem map_types_of_leaf {node : Node} (hshaped : node.Shaped) :
    (ofNode node).map types = (gather [node]).map mergeRestrictions := by
  rw [gather]
  cases h : ofNode node with
  | error error => rfl
  | ok resolution =>
    have hmerged := mergeRestrictions_of_wellFormed (wellFormed_ofNode node hshaped resolution h)
    simp [gather, Except.map, hmerged]

mutual

/-- An annotation means what its leaves mean. -/
theorem ofNode_leaves : ∀ (node : Node) (_ : node.Shaped),
    (ofNode node).map types = (gather (leaves node)).map mergeRestrictions
  | ⟨kind, text, tags, span, children⟩, hshaped => by
    obtain ⟨hformed, hchildren⟩ := Node.shaped_mk.mp hshaped
    have hfirst := ofFirst_leavesOfFirst children hchildren
    have hall := typesOf_leavesOf children hchildren
    by_cases hgroups : Groups kind
    · rw [ofNode_of_groups hgroups, leaves_of_groups hgroups]
      cases hrun : typesOf children with
      | error error => rwa [hrun] at hall
      | ok found =>
        rw [hrun] at hall
        have hne := typesOf_ne_nil hchildren (exists_type_of_groups hgroups hformed) hrun
        rw [← hall]
        simp [ofNested, hne, Except.map]
    · by_cases hreference : kind = .typeReference
      · subst hreference
        by_cases hreadonly : isCalled "Readonly" children
        · by_cases htype : ∃ child ∈ children, child.kind.isType
          · rw [ofNode_reference hformed, if_pos hreadonly, leaves]
            simpa [hreadonly] using hfirst _ _ htype
          · rw [leaves, if_pos hreadonly, leavesOfFirst_of_none _ (by simpa using htype)]
            exact map_types_of_leaf hshaped
        · by_cases hreturn : isCalled "ReturnType" children
          · rw [leaves, if_neg hreadonly, if_pos hreturn]
            cases hquery : children.find? (·.kind == .typeQuery) with
            | none => exact map_types_of_leaf hshaped
            | some query =>
              rw [ofNode_reference hformed, if_neg hreadonly, if_pos hreturn, ofFirst_eq, hquery]
              exact map_types_of_leaf (hchildren query (List.mem_of_find?_eq_some hquery))
          · rw [leaves, if_neg hreadonly, if_neg hreturn]
            exact map_types_of_leaf hshaped
      · rw [leaves_of_other hgroups hreference]
        exact map_types_of_leaf hshaped

theorem typesOf_leavesOf : ∀ (nodes : List Node) (_ : Node.AllShaped nodes),
    (typesOf nodes).map mergeRestrictions = (gather (leavesOf nodes)).map mergeRestrictions
  | [], _ => rfl
  | node :: rest, hshaped => by
    obtain ⟨hnode, hrest⟩ := Node.allShaped_cons.mp hshaped
    have hfirst := ofNode_leaves node hnode
    have hothers := typesOf_leavesOf rest hrest
    rw [typesOf, leavesOf]
    split
    · cases hresolution : ofNode node with
      | error error =>
        rw [hresolution] at hfirst
        rw [gather_append_error (eq_error_of_map hfirst.symm)]
      | ok resolution =>
        rw [hresolution] at hfirst
        obtain ⟨found, hfound, htypes⟩ := exists_of_map hfirst.symm
        rw [gather_append_ok hfound]
        cases hrun : typesOf rest with
        | error error =>
          rw [hrun] at hothers
          rw [eq_error_of_map hothers.symm]
          rfl
        | ok others =>
          rw [hrun] at hothers
          obtain ⟨found', hfound', htypes'⟩ := exists_of_map hothers.symm
          rw [hfound', Except.map, Except.map, Except.map, ← htypes,
            mergeRestrictions_append_left, ← mergeRestrictions_append_right, ← htypes',
            mergeRestrictions_append_right]
    · exact hothers

theorem ofFirst_leavesOfFirst : ∀ (nodes : List Node) (_ : Node.AllShaped nodes)
    (missing : ExtractionError) (others : List Node) (_ : ∃ node ∈ nodes, node.kind.isType),
    (ofFirst missing NodeKind.isType nodes).map types =
      (gather (leavesOfFirst others nodes)).map mergeRestrictions
  | node :: rest, hshaped, missing, others, hexists => by
    obtain ⟨hnode, hrest⟩ := Node.allShaped_cons.mp hshaped
    rw [ofFirst, leavesOfFirst]
    split
    · exact ofNode_leaves node hnode
    · next htype =>
      obtain ⟨other, hother, hothertype⟩ := hexists
      rcases List.mem_cons.mp hother with rfl | hother
      · exact absurd hothertype htype
      · exact ofFirst_leavesOfFirst rest hrest missing others ⟨other, hother, hothertype⟩

end

theorem multiple_of_ofLiterals {resolution : Resolution}
    (hrun : ofLiterals children = .ok resolution) : resolution.multiple = false := by
  unfold ofLiterals at hrun
  cases h : children.mapM literal? with
  | error error => simp [h, bind, Except.bind] at hrun
  | ok values =>
    simp only [h, bind, Except.bind] at hrun
    split at hrun
    · cases hrun
    · cases hrun
      rfl

theorem multiple_of_ofText {kind : NodeKind} {text : Option String} {resolution : Resolution}
    (hrun : ofText kind text = .ok resolution) : resolution.multiple = false := by
  unfold ofText at hrun
  split at hrun
  · cases hrun
  · split at hrun <;> cases hrun
    rfl

/-- Kinds of nodes that are no arrays themselves and do not stand for one either. -/
theorem multiple_of_other {kind : NodeKind} {text : Option String} {tags : List DocTag}
    {span : Span} {children : List Node} (hgroups : ¬ Groups kind) (hreference : kind ≠ .typeReference)
    {resolution : Resolution} (hrun : ofNode ⟨kind, text, tags, span, children⟩ = .ok resolution) :
    resolution.multiple = false := by
  unfold Groups at hgroups
  unfold ofNode at hrun
  split at hrun
  · cases hrun
  split at hrun
  · cases hrun
  split at hrun
  · cases hrun
    rfl
  split at hrun
  · exact multiple_of_ofLiterals hrun
  · split at hrun <;> cases hrun
    rfl
  · exact absurd rfl hreference
  · simp at hgroups
  · simp at hgroups
  · simp at hgroups
  · exact multiple_of_ofText hrun

mutual

theorem multiple_ofNode : ∀ (node : Node) (_ : node.Shaped) (resolution : Resolution)
    (_ : ofNode node = .ok resolution),
    resolution.multiple ↔ (stripReadonly node).kind = .arrayType
  | ⟨kind, text, tags, span, children⟩, hshaped, resolution, hrun => by
    obtain ⟨hformed, hchildren⟩ := Node.shaped_mk.mp hshaped
    have hfirst := multiple_ofFirst children hchildren
    rw [stripReadonly]
    by_cases hreference : kind = .typeReference
    · subst hreference
      rw [ofNode_reference hformed] at hrun
      by_cases hreadonly : isCalled "Readonly" children
      · rw [if_pos hreadonly] at hrun
        rw [if_pos ⟨rfl, hreadonly⟩]
        exact hfirst _ _ _ hrun
      · rw [if_neg hreadonly] at hrun
        rw [if_neg fun h => hreadonly h.2]
        have hmultiple : resolution.multiple = false := by
          split at hrun
          · rw [ofFirst_eq] at hrun
            split at hrun
            · cases hrun
            · next query hquery =>
              obtain ⟨kind, _, _, _, _⟩ := query
              have hkind : kind = .typeQuery := by simpa using List.find?_some hquery
              exact multiple_of_other (by simp [hkind, Groups]) (by simp [hkind]) hrun
          · cases hrun
            rfl
        simp [hmultiple]
    · rw [if_neg fun h => hreference h.1]
      by_cases hgroups : Groups kind
      · rw [ofNode_of_groups hgroups] at hrun
        split at hrun
        · unfold ofNested at hrun
          split at hrun
          · cases hrun
          · cases hrun
            exact decide_eq_true_iff
        · cases hrun
      · have harray : kind ≠ .arrayType := fun h => hgroups (.inr (.inr h))
        simp [multiple_of_other hgroups hreference hrun, harray]

theorem multiple_ofFirst : ∀ (nodes : List Node) (_ : Node.AllShaped nodes)
    (missing : ExtractionError) (other : Node) (resolution : Resolution)
    (_ : ofFirst missing NodeKind.isType nodes = .ok resolution),
    resolution.multiple ↔ (stripFirst other nodes).kind = .arrayType
  | [], _, missing, other, resolution, hrun => by
    cases hrun
  | node :: rest, hshaped, missing, other, resolution, hrun => by
    obtain ⟨hnode, hrest⟩ := Node.allShaped_cons.mp hshaped
    rw [ofFirst] at hrun
    rw [stripFirst]
    split at hrun
    · next htype =>
      rw [if_pos htype]
      exact multiple_ofNode node hnode resolution hrun
    · next htype =>
      rw [if_neg htype]
      exact multiple_ofFirst rest hrest missing other resolution hrun

end

/-- Several annotations have an error exactly if one of them has, and then it is that of
the first one. -/
theorem gather_eq_error_iff {nodes : List Node} {error : ExtractionError} :
    gather nodes = .error error ↔ ∃ before node after, nodes = before ++ node :: after ∧
      (∀ other ∈ before, ∃ resolution, ofNode other = .ok resolution) ∧
      ofNode node = .error error := by
  induction nodes with
  | nil => simp [gather]
  | cons first rest ih =>
    rw [gather]
    cases hfirst : ofNode first with
    | error other =>
      constructor
      · intro h
        cases h
        exact ⟨[], first, rest, rfl, by simp, hfirst⟩
      · rintro ⟨before, node, after, hsplit, hbefore, hnode⟩
        rcases List.cons_eq_append_iff.mp hsplit with ⟨rfl, hrest⟩ | ⟨before', rfl, -⟩
        · obtain ⟨rfl, -⟩ := List.cons.inj hrest
          exact congrArg (Except.error ·) (Except.error.inj (hfirst.symm.trans hnode))
        · obtain ⟨resolution, hok⟩ := hbefore first List.mem_cons_self
          rw [hfirst] at hok
          cases hok
    | ok resolution =>
      constructor
      · intro h
        obtain ⟨before, node, after, rfl, hbefore, hnode⟩ := ih.mp (eq_error_of_map h)
        refine ⟨first :: before, node, after, rfl, ?_, hnode⟩
        exact List.forall_mem_cons.mpr ⟨⟨resolution, hfirst⟩, hbefore⟩
      · rintro ⟨before, node, after, hsplit, hbefore, hnode⟩
        rcases List.cons_eq_append_iff.mp hsplit with ⟨rfl, hrest⟩ | ⟨before', rfl, rfl⟩
        · obtain ⟨rfl, -⟩ := List.cons.inj hrest
          rw [hfirst] at hnode
          cases hnode
        · have hothers := fun other h => hbefore other (List.mem_cons_of_mem first h)
          dsimp only
          rw [ih.mpr ⟨before', node, after, rfl, hothers, hnode⟩]
          rfl

theorem gather_eq_ok_iff {nodes : List Node} {found : List TypeVariant} :
    gather nodes = .ok found ↔ ∃ parts : List Resolution,
      nodes.map ofNode = parts.map .ok ∧ parts.flatMap types = found := by
  induction nodes generalizing found with
  | nil => simp [gather, eq_comm]
  | cons node rest ih =>
    rw [gather]
    cases hnode : ofNode node with
    | error error =>
      constructor
      · intro h
        cases h
      · rintro ⟨parts, hparts, -⟩
        cases parts with
        | nil => cases hparts
        | cons part parts =>
          rw [List.map_cons, List.map_cons, hnode] at hparts
          cases (List.cons.inj hparts).1
    | ok resolution =>
      constructor
      · intro h
        obtain ⟨others, hothers, rfl⟩ := exists_of_map h
        obtain ⟨parts, hparts, rfl⟩ := ih.mp hothers
        exact ⟨resolution :: parts, by rw [List.map_cons, hnode, hparts, List.map_cons], rfl⟩
      · rintro ⟨parts, hparts, rfl⟩
        cases parts with
        | nil => cases hparts
        | cons part parts =>
          rw [List.map_cons, List.map_cons, hnode] at hparts
          obtain ⟨hpart, hrest⟩ := List.cons.inj hparts
          cases hpart
          dsimp only
          rw [ih.mpr ⟨parts, hrest, rfl⟩]
          rfl

/-- What an annotation of a source means, by its leaves. It has an error exactly if one of
them has, that of the first such leaf. Otherwise it has their types, one after the other
with the restrictions merged, and is an array if it is one without the references
`Readonly` around it. Brackets around it do not change its types or its error. -/
theorem ofNode_iff_leaves {source : String} {node : Node}
    (hnode : node ∈ (Parse.ofSource source).root.descendants) :
    (∀ error, ofNode node = .error error ↔
      ∃ before leaf after, leaves node = before ++ leaf :: after ∧
        (∀ other ∈ before, ∃ resolution, ofNode other = .ok resolution) ∧
        ofNode leaf = .error error) ∧
    (∀ resolution, ofNode node = .ok resolution →
      (∃ parts : List Resolution, (leaves node).map ofNode = parts.map .ok ∧
        Merges (parts.flatMap types) resolution.types) ∧
      (resolution.multiple ↔ (stripReadonly node).kind = .arrayType)) ∧
    (node.kind.isType → ∀ text tags span,
      (ofNode ⟨.parenthesizedType, text, tags, span, [node]⟩).map types =
        (ofNode node).map types) := by
  have hshaped := Parse.shaped_of_mem hnode
  have hleaves := ofNode_leaves node hshaped
  refine ⟨fun error => ?_, fun resolution hrun => ⟨?_, multiple_ofNode node hshaped _ hrun⟩, ?_⟩
  · rw [← gather_eq_error_iff]
    constructor
    · intro h
      rw [h] at hleaves
      exact eq_error_of_map hleaves.symm
    · intro h
      rw [h] at hleaves
      exact eq_error_of_map hleaves
  · rw [hrun] at hleaves
    obtain ⟨found, hfound, htypes⟩ := exists_of_map hleaves.symm
    obtain ⟨parts, hparts, rfl⟩ := gather_eq_ok_iff.mp hfound
    refine ⟨parts, hparts, ?_⟩
    rw [← htypes]
    exact merges_mergeRestrictions _
  · intro htype text tags span
    have hbrackets : Node.Shaped ⟨.parenthesizedType, text, tags, span, [node]⟩ :=
      Node.shaped_mk.mpr ⟨⟨node, List.mem_cons_self, htype⟩, by simpa using hshaped⟩
    rw [ofNode_leaves _ hbrackets, hleaves, leaves_of_groups (.inl rfl), leavesOf, if_pos htype,
      leavesOf, List.append_nil]

/-- An array of a literal and a union in brackets has three leaves. -/
theorem ofNode_iff_leaves_nested :
    ∃ node ∈ (Parse.ofSource "interface A { b: (1 | (c | 1))[] }").root.descendants,
      ∃ resolution, ofNode node = .ok resolution ∧ resolution.multiple ∧
        (leaves node).length = 3 ∧
        ∃ parts : List Resolution, (leaves node).map ofNode = parts.map .ok ∧
          Merges (parts.flatMap types) resolution.types := by
  have hany : (Parse.ofSource "interface A { b: (1 | (c | 1))[] }").root.descendants.any
      fun node => (ofNode node).toOption.any (·.multiple) && (leaves node).length == 3 := by
    decide +kernel
  obtain ⟨node, hnode, hresult⟩ := List.any_eq_true.mp hany
  obtain ⟨hmultiple, hlength⟩ := Bool.and_eq_true_iff.mp hresult
  cases hrun : ofNode node with
  | error error => simp [hrun, Except.toOption] at hmultiple
  | ok resolution =>
    refine ⟨node, hnode, resolution, hrun, by simpa [hrun, Except.toOption] using hmultiple,
      by simpa using hlength, ?_⟩
    exact ((ofNode_iff_leaves hnode).2.1 resolution hrun).1

end Resolution

end DeclSchema
