import DeclSchema.Proofs.Extraction.Merging
import DeclSchema.Proofs.Parser.Shape
import Mathlib.Data.List.ReduceOption
import Mathlib.Data.List.TakeWhile

/-!
# What annotations mean

An annotation that means anything means well-formed types: there are some, at most one of
them is a restriction, a restriction allows values no two of which are the same, and a
reference has a name that can be looked up. `wellFormed_ofNode` proves it by recursion over
the tree from the shape of its nodes.
-/

namespace DeclSchema

namespace TypeVariant

/-- What a type says is not empty: a restriction allows some values, and each of them
once, and a reference has a name without points. -/
def Proper : TypeVariant → Prop
  | .simple _ => True
  | .restricted values => values ≠ [] ∧ values.Pairwise fun a b => ¬ a.same b
  | .reference name => name ≠ "" ∧ '.' ∉ name.toList

end TypeVariant

namespace Resolution

open TypeVariant

/-- There are types, each of them is proper, and at most one is a restriction. -/
structure WellFormed (types : List TypeVariant) : Prop where
  ne_nil : types ≠ []
  proper : ∀ type ∈ types, type.Proper
  one : (types.filter isRestriction).length ≤ 1

theorem wellFormed_single {type : TypeVariant} (h : type.Proper) : WellFormed [type] where
  ne_nil := List.cons_ne_nil _ _
  proper := by simpa using h
  one := List.length_filter_le _ _

theorem proper_mergeRestrictions {types : List TypeVariant} (h : ∀ type ∈ types, type.Proper) :
    ∀ type ∈ mergeRestrictions types, type.Proper := by
  induction types with
  | nil => simp
  | cons type rest ih =>
    have hrest : ∀ t ∈ rest, t.Proper := fun t ht => h t (List.mem_cons_of_mem _ ht)
    cases hr : type.isRestriction with
    | false =>
      rw [mergeRestrictions_cons hr, List.forall_mem_cons]
      exact ⟨h type List.mem_cons_self, ih hrest⟩
    | true =>
      obtain ⟨values, rfl⟩ := exists_of_isRestriction hr
      rw [mergeRestrictions_restricted]
      intro t ht
      rcases List.mem_cons.mp ht with rfl | ht
      · obtain ⟨value, hvalue⟩ := List.exists_mem_of_ne_nil _ (h _ List.mem_cons_self).1
        obtain ⟨twin, htwin, -⟩ := List.any_eq_true.mp (any_same_addLiterals []
          (List.mem_append_left (rest.flatMap allowed) hvalue))
        exact ⟨List.ne_nil_of_mem htwin, pairwise_addLiterals .nil _⟩
      · exact hrest t (List.mem_of_mem_filter ht)

theorem one_mergeRestrictions (types : List TypeVariant) :
    ((mergeRestrictions types).filter isRestriction).length ≤ 1 := by
  induction types with
  | nil => exact Nat.zero_le _
  | cons type rest ih =>
    cases hr : type.isRestriction with
    | false => simpa [mergeRestrictions_cons hr, hr] using ih
    | true =>
      obtain ⟨values, rfl⟩ := exists_of_isRestriction hr
      rw [mergeRestrictions_restricted, List.filter_cons_of_pos (by rfl), List.filter_filter]
      simp

theorem wellFormed_mergeRestrictions {types : List TypeVariant} (hne : types ≠ [])
    (h : ∀ type ∈ types, type.Proper) : WellFormed (mergeRestrictions types) where
  ne_nil := mergeRestrictions_ne_nil hne
  proper := proper_mergeRestrictions h
  one := one_mergeRestrictions types

/-- Types with one restriction at most are merged already. -/
theorem mergeRestrictions_of_wellFormed {types : List TypeVariant} (h : WellFormed types) :
    mergeRestrictions types = types := by
  obtain ⟨-, hproper, hone⟩ := h
  induction types with
  | nil => rfl
  | cons type rest ih =>
    cases hr : type.isRestriction with
    | false =>
      rw [List.filter_cons_of_neg (by simp [hr])] at hone
      rw [mergeRestrictions_cons hr, ih (fun t ht => hproper t (List.mem_cons_of_mem _ ht)) hone]
    | true =>
      have hrest : ∀ t ∈ rest, t.isRestriction = false := by
        rw [List.filter_cons_of_pos hr, List.length_cons] at hone
        have hnil := List.eq_nil_of_length_eq_zero (Nat.le_zero.mp (Nat.le_of_succ_le_succ hone))
        simpa using hnil
      have hallowed : rest.flatMap allowed = [] :=
        List.flatMap_eq_nil_iff.mpr fun t ht => allowed_eq_nil (hrest t ht)
      obtain ⟨values, rfl⟩ := exists_of_isRestriction hr
      have hdistinct := (hproper _ List.mem_cons_self).2
      rw [mergeRestrictions_restricted, hallowed, List.append_nil,
        List.filter_eq_self.mpr (by simpa using hrest),
        addLiterals_of_pairwise (by simpa using hdistinct), List.nil_append]

theorem point_not_mem_of_isWord {cs : List Char} (h : Pattern.isWord cs) : '.' ∉ cs := by
  intro hmem
  cases cs with
  | nil => cases hmem
  | cons c cs =>
    obtain ⟨hstart, hall⟩ := Bool.and_eq_true_iff.mp h
    rcases List.mem_cons.mp hmem with rfl | hmem
    · exact absurd hstart (by decide)
    · exact absurd (List.all_eq_true.mp hall _ hmem) (by decide)

theorem lastSegment_of_point_not_mem {name : String} (h : '.' ∉ name.toList) :
    lastSegment name = name := by
  have hall : name.toList.reverse.takeWhile (· != '.') = name.toList.reverse := by
    rw [List.takeWhile_eq_self_iff]
    intro c hc
    simpa using fun heq => h (by simpa [heq] using hc)
  rw [lastSegment, hall, List.reverse_reverse, String.ofList_toList]

/-- Only what stands behind the last point counts. -/
theorem lastSegment_append (first second : String) :
    lastSegment (first ++ "." ++ second) = lastSegment second := by
  have htake : ∀ cs tail : List Char,
      (cs ++ '.' :: tail).takeWhile (· != '.') = cs.takeWhile (· != '.') := by
    intro cs tail
    induction cs with
    | nil => simp
    | cons c cs ih => simp only [List.cons_append, List.takeWhile_cons, ih]
  simp [lastSegment, htake]

theorem lastSegment_intercalate {words : List String}
    (h : ∀ word ∈ words, Pattern.isWord word.toList) (hne : words ≠ []) :
    lastSegment (".".intercalate words) = words.getLast hne := by
  induction words with
  | nil => exact absurd rfl hne
  | cons word rest ih =>
    cases rest with
    | nil =>
      rw [String.intercalate_singleton]
      exact lastSegment_of_point_not_mem (point_not_mem_of_isWord (h word List.mem_cons_self))
    | cons second others =>
      rw [String.intercalate_cons_cons, lastSegment_append,
        ih (fun w hw => h w (List.mem_cons_of_mem _ hw)) (List.cons_ne_nil _ _),
        List.getLast_cons (List.cons_ne_nil _ _)]

theorem ne_nil_of_namedBy {node : Node} {words : List String} (h : node.NamedBy words) :
    words ≠ [] := by
  rintro rfl
  rcases h.kind with ⟨-, hlength⟩ | ⟨-, hlength⟩ <;> simp at hlength

/-- What is called by a name is looked up under the last word of the name. -/
theorem target?_of_namedBy {name : Node} {words : List String} (h : name.NamedBy words)
    (arguments : List Node) :
    target? (name :: arguments) = some (words.getLast (ne_nil_of_namedBy h)) := by
  have hkind : name.kind = .identifier ∨ name.kind = .qualifiedName := h.kind.imp And.left And.left
  rw [target?, List.find?_cons_of_pos (by simpa using hkind), Option.bind_some, h.text,
    Option.map_some, lastSegment_intercalate h.spelled (ne_nil_of_namedBy h)]

theorem proper_reference {name : String} (h : Pattern.isWord name.toList) :
    (TypeVariant.reference name).Proper := by
  refine ⟨?_, point_not_mem_of_isWord h⟩
  rintro rfl
  cases h

theorem proper_of_target? {kind : NodeKind} (hkind : kind = .typeReference ∨ kind = .typeQuery)
    {children : List Node} (h : Node.Formed kind children) {name : String}
    (hname : target? children = some name) : (TypeVariant.reference name).Proper := by
  obtain ⟨head, arguments, words, rfl, hnamed, -⟩ : ∃ head arguments words,
      children = head :: arguments ∧ head.NamedBy words ∧
        ∀ argument ∈ arguments, argument.kind.isType := by
    rcases hkind with rfl | rfl <;> exact h
  rw [target?_of_namedBy hnamed, Option.some.injEq] at hname
  subst hname
  exact proper_reference (hnamed.spelled _ (List.getLast_mem _))

theorem exists_types_of_ok {group : NodeKind} {children : List Node} {resolution : Resolution}
    (hrun : (match typesOf children with
      | .ok types => ofNested group types
      | .error error => .error error) = .ok resolution) :
    ∃ types, typesOf children = .ok types ∧ ofNested group types = .ok resolution := by
  split at hrun
  · next types htypes => exact ⟨types, htypes, hrun⟩
  · cases hrun

/-- What a node of a type can mean: one type of its own, what one of its children means, or
what all of them mean. -/
theorem ofNode_cases {node : Node} {resolution : Resolution} (hrun : ofNode node = .ok resolution) :
    (∃ type, resolution = single (.simple type)) ∨
    (node.kind = .literalType ∧ ofLiterals node.children = .ok resolution) ∨
    ((node.kind = .typeReference ∨ node.kind = .typeQuery) ∧
      ∃ name, target? node.children = some name ∧ resolution = single (.reference name)) ∨
    (∃ missing accepts, ofFirst missing accepts node.children = .ok resolution) ∨
    (∃ types, typesOf node.children = .ok types ∧ ofNested node.kind types = .ok resolution) ∨
    ofText node.kind node.text = .ok resolution := by
  obtain ⟨kind, text, tags, span, children⟩ := node
  unfold ofNode at hrun
  split at hrun
  · cases hrun
  split at hrun
  · cases hrun
  split at hrun
  · next type _ =>
    cases hrun
    exact .inl ⟨type, rfl⟩
  split at hrun
  · exact .inr (.inl ⟨rfl, hrun⟩)
  · split at hrun
    · next name hname =>
      cases hrun
      exact .inr (.inr (.inl ⟨.inr rfl, name, hname, rfl⟩))
    · cases hrun
  · split at hrun
    · cases hrun
    · next name hname =>
      split at hrun
      · exact .inr (.inr (.inr (.inl ⟨_, _, hrun⟩)))
      · split at hrun
        · exact .inr (.inr (.inr (.inl ⟨_, _, hrun⟩)))
        · cases hrun
          exact .inr (.inr (.inl ⟨.inl rfl, name, hname, rfl⟩))
  · exact .inr (.inr (.inr (.inr (.inl (exists_types_of_ok hrun)))))
  · exact .inr (.inr (.inr (.inr (.inl (exists_types_of_ok hrun)))))
  · exact .inr (.inr (.inr (.inr (.inl (exists_types_of_ok hrun)))))
  · exact .inr (.inr (.inr (.inr (.inr hrun))))

theorem wellFormed_ofLiterals {children : List Node} (h : Node.Formed .literalType children)
    {resolution : Resolution} (hrun : ofLiterals children = .ok resolution) :
    WellFormed resolution.types := by
  obtain ⟨literal, rfl, -⟩ := h
  cases hliteral : literal? literal with
  | error error => simp [ofLiterals, hliteral, bind, Except.bind] at hrun
  | ok value? =>
    cases value? with
    | none =>
      simp [ofLiterals, hliteral, bind, Except.bind, pure, Except.pure, List.reduceOption] at hrun
    | some value =>
      simp [ofLiterals, hliteral, bind, Except.bind, pure, Except.pure, List.reduceOption] at hrun
      subst hrun
      exact wellFormed_single ⟨List.cons_ne_nil _ _, List.pairwise_singleton _ _⟩

theorem wellFormed_ofText {kind : NodeKind} {text : Option String} {resolution : Resolution}
    (hrun : ofText kind text = .ok resolution) : WellFormed resolution.types := by
  unfold ofText at hrun
  split at hrun
  · cases hrun
  · split at hrun
    · cases hrun
      exact wellFormed_single trivial
    · cases hrun

theorem wellFormed_ofNested {kind : NodeKind} {types : List TypeVariant}
    (h : ∀ type ∈ types, type.Proper) {resolution : Resolution}
    (hrun : ofNested kind types = .ok resolution) : WellFormed resolution.types := by
  unfold ofNested at hrun
  split at hrun
  · cases hrun
  · next hne =>
    cases hrun
    exact wellFormed_mergeRestrictions (by simpa using hne) h

mutual

theorem wellFormed_ofNode : ∀ (node : Node) (_ : node.Shaped) (resolution : Resolution),
    ofNode node = .ok resolution → WellFormed resolution.types
  | ⟨kind, text, tags, span, children⟩, hshaped, resolution, hrun => by
    obtain ⟨hformed, hchildren⟩ := Node.shaped_mk.mp hshaped
    have hfirst := wellFormed_ofFirst children hchildren
    have htypes := proper_typesOf children hchildren
    rcases ofNode_cases hrun with ⟨type, rfl⟩ | ⟨hkind, hliterals⟩ | ⟨hkind, name, hname, rfl⟩ |
      ⟨missing, accepts, hchild⟩ | ⟨types, hall, hnested⟩ | htext
    · exact wellFormed_single trivial
    · obtain rfl : kind = .literalType := hkind
      exact wellFormed_ofLiterals hformed hliterals
    · exact wellFormed_single (proper_of_target? hkind hformed hname)
    · exact hfirst missing accepts resolution hchild
    · exact wellFormed_ofNested (htypes types hall) hnested
    · exact wellFormed_ofText htext

theorem wellFormed_ofFirst : ∀ (nodes : List Node) (_ : Node.AllShaped nodes)
    (missing : ExtractionError) (accepts : NodeKind → Bool) (resolution : Resolution),
    ofFirst missing accepts nodes = .ok resolution → WellFormed resolution.types
  | [], _, missing, accepts, resolution, hrun => by
    cases hrun
  | node :: rest, hshaped, missing, accepts, resolution, hrun => by
    obtain ⟨hnode, hrest⟩ := Node.allShaped_cons.mp hshaped
    rw [ofFirst] at hrun
    split at hrun
    · exact wellFormed_ofNode node hnode resolution hrun
    · exact wellFormed_ofFirst rest hrest missing accepts resolution hrun

theorem proper_typesOf : ∀ (nodes : List Node) (_ : Node.AllShaped nodes)
    (types : List TypeVariant), typesOf nodes = .ok types → ∀ type ∈ types, type.Proper
  | [], _, types, hrun => by
    cases hrun
    simp
  | node :: rest, hshaped, types, hrun => by
    obtain ⟨hnode, hrest⟩ := Node.allShaped_cons.mp hshaped
    have hproper := wellFormed_ofNode node hnode
    have htypes := proper_typesOf rest hrest
    unfold typesOf at hrun
    split at hrun
    · cases hnodeRun : ofNode node with
      | error error =>
        rw [hnodeRun] at hrun
        cases hrun
      | ok resolution =>
        cases hrestRun : typesOf rest with
        | error error =>
          rw [hnodeRun, hrestRun] at hrun
          cases hrun
        | ok others =>
          rw [hnodeRun, hrestRun] at hrun
          cases hrun
          intro type htype
          rcases List.mem_append.mp htype with htype | htype
          · exact (hproper resolution hnodeRun).proper type htype
          · exact htypes others hrestRun type htype
    · exact htypes types hrun

end

end Resolution

end DeclSchema
