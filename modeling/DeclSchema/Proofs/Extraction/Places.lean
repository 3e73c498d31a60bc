import DeclSchema.Extraction.Basic
import DeclSchema.Proofs.Phrase.Steps

/-!
# Places mean nothing

What an annotation means, which declarations are selected and what becomes of one without
errors in it depends on kinds, texts, tags and children only. Trees that differ in the
places they were read from give the same elements.
-/

namespace DeclSchema

namespace Node

@[simp] theorem kind_withoutSpans (node : Node) : node.withoutSpans.kind = node.kind := by
  obtain ⟨kind, text, tags, span, children⟩ := node
  rfl

@[simp] theorem tags_withoutSpans (node : Node) : node.withoutSpans.tags = node.tags := by
  obtain ⟨kind, text, tags, span, children⟩ := node
  rfl

@[simp] theorem children_withoutSpans (node : Node) :
    node.withoutSpans.children = node.children.map withoutSpans := by
  obtain ⟨kind, text, tags, span, children⟩ := node
  exact withoutSpans_list children

theorem firstChildWhere_withoutSpans (node : Node) (accepts : NodeKind → Bool) :
    node.withoutSpans.firstChildWhere accepts =
      (node.firstChildWhere accepts).map withoutSpans := by
  rw [firstChildWhere, children_withoutSpans, List.find?_map, firstChildWhere]
  simp only [Function.comp_def, kind_withoutSpans]

theorem hasChild_withoutSpans (node : Node) (kind : NodeKind) :
    node.withoutSpans.hasChild kind = node.hasChild kind := by
  rw [hasChild, firstChild, firstChildWhere_withoutSpans, Option.isSome_map]
  rfl

theorem childrenOf_withoutSpans (node : Node) (kinds : List NodeKind) :
    node.withoutSpans.childrenOf kinds = (node.childrenOf kinds).map withoutSpans := by
  rw [childrenOf, children_withoutSpans, List.filter_map, childrenOf]
  simp only [Function.comp_def, kind_withoutSpans]

theorem childText_withoutSpans (node : Node) (kinds : List NodeKind) :
    node.withoutSpans.childText kinds = node.childText kinds := by
  rw [childText, firstChildOf, firstChildWhere_withoutSpans, Option.bind_map, childText]
  simp only [Function.comp_def, text_withoutSpans]
  rfl

mutual

theorem preorder_withoutSpans : ∀ node : Node,
    node.withoutSpans.preorder = node.preorder.map withoutSpans
  | ⟨kind, text, tags, span, children⟩ => by
    rw [withoutSpans, withoutSpans_list, preorder, preorderList_withoutSpans, preorder,
      List.map_cons, withoutSpans, withoutSpans_list]

theorem preorderList_withoutSpans : ∀ nodes : List Node,
    preorder.preorderList (nodes.map withoutSpans) =
      (preorder.preorderList nodes).map withoutSpans
  | [] => rfl
  | node :: rest => by
    rw [List.map_cons, preorder.preorderList, preorder_withoutSpans, preorderList_withoutSpans,
      preorder.preorderList, List.map_append]

end

end Node

namespace Resolution

open Node

theorem literal?_withoutSpans (node : Node) : literal? node.withoutSpans = literal? node := by
  rw [literal?, kind_withoutSpans, text_withoutSpans, literal?]

theorem ofLiterals_withoutSpans (children : List Node) :
    ofLiterals (children.map withoutSpans) = ofLiterals children := by
  rw [ofLiterals, List.mapM_map, ofLiterals]
  simp only [Function.comp_def, literal?_withoutSpans]

theorem target?_withoutSpans (children : List Node) :
    target? (children.map withoutSpans) = target? children := by
  rw [target?, List.find?_map, Option.bind_map, target?]
  simp only [Function.comp_def, kind_withoutSpans, text_withoutSpans]

theorem isPlain_withoutSpans (children : List Node) :
    isPlain (children.map withoutSpans) = isPlain children := by
  rw [isPlain, List.any_map, isPlain]
  simp only [Function.comp_def, kind_withoutSpans]

mutual

theorem ofNode_withoutSpans : ∀ node : Node, ofNode node.withoutSpans = ofNode node
  | ⟨kind, text, tags, span, children⟩ => by
    have htypes := typesOf_withoutSpans children
    have hfirst := fun missing accepts => ofFirst_withoutSpans missing accepts children
    rw [withoutSpans, withoutSpans_list]
    unfold ofNode
    simp only [ofLiterals_withoutSpans, target?_withoutSpans, isPlain_withoutSpans, htypes, hfirst]

theorem ofFirst_withoutSpans (missing : ExtractionError) (accepts : NodeKind → Bool) :
    ∀ nodes : List Node, ofFirst missing accepts (nodes.map withoutSpans) =
      ofFirst missing accepts nodes
  | [] => rfl
  | node :: rest => by
    rw [List.map_cons, ofFirst, kind_withoutSpans, ofNode_withoutSpans, ofFirst_withoutSpans,
      ofFirst]

theorem typesOf_withoutSpans : ∀ nodes : List Node,
    typesOf (nodes.map withoutSpans) = typesOf nodes
  | [] => rfl
  | node :: rest => by
    rw [List.map_cons, typesOf, kind_withoutSpans, ofNode_withoutSpans, typesOf_withoutSpans,
      typesOf]

end

end Resolution

namespace Extraction

open Node

theorem property_withoutSpans (node : Node) : property node.withoutSpans = property node := by
  rw [property, childText_withoutSpans, firstChildWhere_withoutSpans, hasChild_withoutSpans,
    kind_withoutSpans, property]
  cases node.firstChildWhere NodeKind.isType with
  | none => rfl
  | some type =>
    rw [Option.map_some]
    dsimp only
    rw [Resolution.ofNode_withoutSpans]

theorem mapM_property_withoutSpans (members : List Node) :
    (members.map withoutSpans).mapM property = members.mapM property := by
  rw [List.mapM_map]
  exact congrArg (fun f => members.mapM f) (funext property_withoutSpans)

theorem interfaceMembers_withoutSpans (node : Node) :
    interfaceMembers node.withoutSpans = (interfaceMembers node).map withoutSpans :=
  childrenOf_withoutSpans _ _

theorem classMembers_withoutSpans (node : Node) :
    classMembers node.withoutSpans = (classMembers node).map withoutSpans := by
  unfold classMembers isInstanceField
  rw [childrenOf_withoutSpans, childrenOf_withoutSpans, List.map_append]
  have hparameters : ((node.childrenOf [.constructorDeclaration]).map withoutSpans).flatMap
      (·.childrenOf [.parameter]) =
        ((node.childrenOf [.constructorDeclaration]).flatMap (·.childrenOf [.parameter])).map
          withoutSpans := by
    rw [List.flatMap_map, List.map_flatMap]
    simp only [childrenOf_withoutSpans]
  rw [hparameters]
  simp only [List.filter_map, Function.comp_def, hasChild_withoutSpans, childText_withoutSpans]

theorem declaredName_withoutSpans (node : Node) :
    declaredName node.withoutSpans = declaredName node :=
  childText_withoutSpans _ _

theorem selects_withoutSpans (options : ExtractionOptions) (node : Node) :
    selects options node.withoutSpans = selects options node := by
  rw [selects, kind_withoutSpans, hasTag, tags_withoutSpans, hasChild_withoutSpans]
  rfl

theorem element_withoutSpans (node : Node) : element node.withoutSpans = element node := by
  unfold element elementOf
  simp only [kind_withoutSpans, declaredName_withoutSpans, interfaceMembers_withoutSpans,
    classMembers_withoutSpans, mapM_property_withoutSpans]

end Extraction

end DeclSchema
