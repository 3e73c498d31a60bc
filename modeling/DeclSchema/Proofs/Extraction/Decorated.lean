import DeclSchema.Proofs.Extraction.Concatenation
import DeclSchema.Proofs.Parser.Passing
import DeclSchema.Proofs.Parser.Resuming

/-!
# Marked classes behind a statement without semicolon

A class becomes an element if the documentation in front of it has the marker. A decorator
between the two belongs to a statement before them that does not end with a semicolon, and
takes the documentation along.
-/

namespace DeclSchema

open DeclSchema.Parser

namespace Parse

/-- The source is one class without documentation in front of it. -/
structure IsClass (source : String) : Prop where
  starts : StartsWithStatementWord source
  accepted : (ofSource source).errors = []
  children : ∃ node, (ofSource source).root.children = [node] ∧ node.kind = .classDeclaration ∧
    node.tags = []

end Parse

namespace Extraction

open Node

/-- A source that is moved with its errors has the same elements. -/
theorem elements_of_shift {source other : String} {offset : Nat}
    (hchildren : (Parse.ofSource other).root.children =
      shift offset (Parse.ofSource source).root.children)
    (herrors : (Parse.ofSource other).errors = shift offset (Parse.ofSource source).errors)
    (options : ExtractionOptions) :
    (ofSource options other).elements = (ofSource options source).elements := by
  rw [elements_ofSource, elements_ofSource, selected_ofSource, hchildren, preorderList_shift,
    candidates_second herrors, ← selected_ofSource]

/-- A class without documentation is no element, whatever the marker is. -/
theorem elements_of_isClass {source : String} (h : Parse.IsClass source)
    (options : ExtractionOptions) : (ofSource options source).elements = [] := by
  obtain ⟨node, hchildren, hkind, htags⟩ := h.children
  have hplain : AllPlain node.children := by
    have hstart := Parse.startFrom_children source
    rw [hchildren] at hstart
    exact ((startFrom_cons.mp hstart).1 (by rw [hkind]; rfl)).2
  have hnone : selected options (Parse.ofSource source) = [] := by
    rw [selected_ofSource, hchildren, List.filter_eq_nil_iff]
    intro inner hinner hselects
    rw [preorder.preorderList, preorder.preorderList, List.append_nil, preorder_eq,
      List.mem_cons] at hinner
    rcases hinner with rfl | hinner
    · simp [selects, hkind, Node.hasTag, htags] at hselects
    · obtain ⟨child, hchild, hmem⟩ := mem_preorderList.mp hinner
      have hdeclares := declares_of_selects hselects
      rw [hplain child hchild inner hmem] at hdeclares
      exact Bool.false_ne_true hdeclares
  rw [elements_ofSource, hnone]
  rfl

/-- Behind a statement that begins with `let` and ends without a semicolon, a class has the
element it has alone unless there is a decorator between the class and its documentation.
With a decorator it has none. -/
theorem class_behind_let {statement doc declaration : String} {decorators : List String}
    (hstatement : Parse.IsLet statement) (hdoc : Parse.IsDocumentation doc)
    (hdecorators : ∀ decorator ∈ decorators, Parse.IsDecorator decorator)
    (hclass : Parse.IsClass declaration) (options : ExtractionOptions) :
    (ofSource options
        (statement ++ "\n" ++ Parse.onLines (doc :: decorators) declaration)).elements =
      if decorators = [] then
        (ofSource options (Parse.onLines (doc :: decorators) declaration)).elements
      else
        [] := by
  split
  · next hnone =>
    subst hnone
    obtain ⟨offset, hchildren, herrors⟩ := hstatement.parse_documented hdoc hclass.starts
    exact elements_of_shift hchildren herrors options
  · next hsome =>
    obtain ⟨offset, hchildren, herrors⟩ :=
      hstatement.parse_decorated hdoc hsome hdecorators hclass.starts
    rw [elements_of_shift hchildren herrors options, elements_of_isClass hclass]

theorem isLet_number : Parse.IsLet "let x = 1" where
  known := by decide +kernel
  ends := by decide +kernel
  undocumented := by decide +kernel
  tokens := ⟨⟨⟨.word, "let", ⟨0, 3⟩⟩, false⟩, [⟨⟨.word, "x", ⟨4, 5⟩⟩, false⟩,
    ⟨⟨.eq, "=", ⟨6, 7⟩⟩, false⟩, ⟨⟨.number, "1", ⟨8, 9⟩⟩, false⟩], by decide +kernel⟩

theorem isDocumentation_marker : Parse.IsDocumentation "/** @schema */" :=
  ⟨⟨.docComment, "/** @schema */", ⟨0, 14⟩⟩, by decide +kernel⟩

theorem isDecorator_call : Parse.IsDecorator "@E(1)" where
  known := by decide +kernel
  ends := by decide +kernel
  tokens := by
    refine ⟨⟨⟨.atSign, "@", ⟨0, 1⟩⟩, false⟩, ⟨⟨.word, "E", ⟨1, 2⟩⟩, false⟩,
      (TokenStream.ofSource "@E(1)").tokens.drop 2, by decide +kernel, rfl, rfl, rfl, .inr ?_⟩
    exact ⟨⟨⟨.lParen, "(", ⟨2, 3⟩⟩, false⟩, [⟨⟨.number, "1", ⟨3, 4⟩⟩, false⟩],
      ⟨⟨.rParen, ")", ⟨4, 5⟩⟩, false⟩, by decide +kernel, rfl, by unfold Bracketed; decide, rfl⟩

theorem isClass_field : Parse.IsClass "class A \x7by: B\x7d" where
  starts := by decide +kernel
  accepted := by decide +kernel
  children := by
    have hone : (Parse.ofSource "class A \x7by: B\x7d").root.children.map
        (fun node => (node.kind, node.tags)) = [(.classDeclaration, [])] := by decide +kernel
    obtain ⟨node, hnode, hpair⟩ := List.map_eq_singleton_iff.mp hone
    exact ⟨node, hnode, Prod.mk.inj hpair⟩

/-- A marked class with a decorator has no element behind such a statement. -/
theorem class_behind_let_decorated :
    (ofSource ⟨"schema", true, false⟩ ("let x = 1" ++ "\n" ++
      Parse.onLines ["/** @schema */", "@E(1)"] "class A \x7by: B\x7d")).elements = [] :=
  class_behind_let isLet_number isDocumentation_marker
    (List.forall_mem_singleton.mpr isDecorator_call) isClass_field _

/-- Alone, the class has an element. -/
theorem not_independent_of_let :
    (Parse.IsLet "let x = 1" ∧ Parse.IsDocumentation "/** @schema */" ∧
      Parse.IsDecorator "@E(1)" ∧ Parse.IsClass "class A \x7by: B\x7d") ∧
    (ofSource ⟨"schema", true, false⟩ ("let x = 1" ++ "\n" ++
        Parse.onLines ["/** @schema */", "@E(1)"] "class A \x7by: B\x7d")).elements ≠
      (ofSource ⟨"schema", true, false⟩
        (Parse.onLines ["/** @schema */", "@E(1)"] "class A \x7by: B\x7d")).elements := by
  refine ⟨⟨isLet_number, isDocumentation_marker, isDecorator_call, isClass_field⟩, ?_⟩
  decide +kernel

end Extraction

end DeclSchema
