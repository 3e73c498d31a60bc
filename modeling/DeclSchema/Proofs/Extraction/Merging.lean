import DeclSchema.Extraction.Resolution
import Mathlib.Data.List.Basic

/-!
# Merging restrictions

Restrictions are merged at every level of nesting of an annotation. Merging is the same
whether it is done to the parts first or only to the whole (`mergeRestrictions_append`),
because literals are added one by one and a literal that is there already is not added
again (`addLiterals_addLiterals`). What merging gives is said without the function by
`Merges`, and the invariants of what it gives by `WellFormed`.
-/

namespace DeclSchema

/-- To add each item unless the same is there keeps the first of the items that are the same. -/
theorem foldl_add_eq_eraseDupsBy {α : Type} {same : α → α → Bool}
    (hcomm : ∀ first second, same first second = same second first) (items : List α) :
    items.foldl (fun kept item => if kept.any (same · item) then kept else kept ++ [item]) [] =
      items.eraseDupsBy same := by
  have hloop : ∀ (others found : List α), List.eraseDupsBy.loop same others found =
      others.foldl (fun kept item => if kept.any (same · item) then kept else kept ++ [item])
        found.reverse := by
    intro others
    induction others with
    | nil => exact fun found => rfl
    | cons item others ih =>
      intro found
      have hany : found.reverse.any (same · item) = found.any (same item ·) := by
        rw [List.any_reverse]
        exact congrArg _ (funext fun other => hcomm other item)
      rw [List.eraseDupsBy.loop, List.foldl_cons, hany]
      cases found.any (same item ·) with
      | true => simpa using ih found
      | false => simpa using ih (item :: found)
  exact (hloop items []).symm

namespace Binary64

theorem same_comm (x y : Binary64) : x.same y = y.same x := by
  unfold same
  rw [Bool.and_comm, Bool.beq_comm (a := x)]

theorem same_refl (x : Binary64) : x.same x := by
  simp [same]

theorem same_trans {x y z : Binary64} (hxy : x.same y) (hyz : y.same z) : x.same z := by
  simp only [same, Bool.or_eq_true, Bool.and_eq_true, beq_iff_eq] at hxy hyz ⊢
  grind

end Binary64

namespace Literal

theorem same_comm (a b : Literal) : a.same b = b.same a := by
  cases a <;> cases b <;> simp only [same]
  · exact Bool.beq_comm
  · exact Binary64.same_comm _ _

theorem same_refl (a : Literal) : a.same a := by
  cases a with
  | string value => simp [same]
  | number value => exact Binary64.same_refl value

theorem same_trans {a b c : Literal} (hab : a.same b) (hbc : b.same c) : a.same c := by
  cases a <;> cases b <;> cases c <;> simp only [same, Bool.false_eq_true, beq_iff_eq] at *
  · exact hab.trans hbc
  · exact Binary64.same_trans hab hbc

end Literal

namespace TypeVariant

/-- Whether a type is a restriction. -/
def isRestriction : TypeVariant → Bool
  | .restricted _ => true
  | _ => false

/-- The values that a type allows, if it is a restriction. -/
def allowed : TypeVariant → List Literal
  | .restricted values => values
  | _ => []

theorem exists_of_isRestriction {type : TypeVariant} (h : type.isRestriction) :
    ∃ values, type = .restricted values := by
  cases type with
  | restricted values => exact ⟨values, rfl⟩
  | _ => cases h

theorem allowed_eq_nil {type : TypeVariant} (h : type.isRestriction = false) :
    type.allowed = [] := by
  cases type <;> trivial

end TypeVariant

namespace Resolution

open TypeVariant

theorem addLiteral_of_any {values : List Literal} {value : Literal}
    (h : values.any (·.same value)) : addLiteral values value = values :=
  if_pos h

theorem addLiteral_of_not_any {values : List Literal} {value : Literal}
    (h : ¬ values.any (·.same value)) : addLiteral values value = values ++ [value] :=
  if_neg h

/-- Values with others added to them, each unless it is among them by then. -/
def addLiterals (values others : List Literal) : List Literal :=
  others.foldl addLiteral values

theorem addLiterals_cons (values : List Literal) (value : Literal) (others : List Literal) :
    addLiterals values (value :: others) = addLiterals (addLiteral values value) others := rfl

theorem addLiterals_append (values first second : List Literal) :
    addLiterals values (first ++ second) = addLiterals (addLiterals values first) second :=
  List.foldl_append

theorem prefix_addLiterals (values others : List Literal) : values <+: addLiterals values others := by
  induction others generalizing values with
  | nil => exact List.prefix_refl _
  | cons value others ih =>
    have hadd : values <+: addLiteral values value := by
      unfold addLiteral
      split
      · exact List.prefix_refl _
      · exact List.prefix_append _ _
    exact hadd.trans (ih _)

/-- A value that was added is there, if not itself then as the same value. -/
theorem any_same_addLiterals (values : List Literal) {others : List Literal} {value : Literal}
    (h : value ∈ others) : (addLiterals values others).any (·.same value) := by
  induction others generalizing values with
  | nil => cases h
  | cons first others ih =>
    rw [addLiterals_cons]
    rcases List.mem_cons.mp h with rfl | h
    · have hadded : (addLiteral values value).any (·.same value) := by
        by_cases hin : values.any (·.same value)
        · rwa [addLiteral_of_any hin]
        · rw [addLiteral_of_not_any hin]
          simp [Literal.same_refl]
      obtain ⟨twin, htwin, hsame⟩ := List.any_eq_true.mp hadded
      exact List.any_eq_true.mpr ⟨twin, (prefix_addLiterals _ others).subset htwin, hsame⟩
    · exact ih _ h

/-- Adding what adding gave is adding it directly. -/
theorem addLiterals_addLiterals (values inner others : List Literal) :
    addLiterals values (addLiterals inner others) =
      addLiterals (addLiterals values inner) others := by
  induction others generalizing inner with
  | nil => rfl
  | cons value others ih =>
    rw [addLiterals_cons, ih, addLiterals_cons]
    congr 1
    by_cases hin : inner.any (·.same value)
    · obtain ⟨twin, htwin, hsame⟩ := List.any_eq_true.mp hin
      obtain ⟨other, hother, hsame'⟩ :=
        List.any_eq_true.mp (any_same_addLiterals values htwin)
      rw [addLiteral_of_any hin, addLiteral_of_any]
      exact List.any_eq_true.mpr ⟨other, hother, Literal.same_trans hsame' hsame⟩
    · rw [addLiteral_of_not_any hin, addLiterals_append]
      rfl

/-- The values each once, in the order in which they first come. -/
theorem addLiterals_nil_left (values : List Literal) :
    addLiterals [] values = values.eraseDupsBy Literal.same :=
  foldl_add_eq_eraseDupsBy Literal.same_comm values

/-- Values that are all different are all added. -/
theorem addLiterals_of_pairwise {values others : List Literal}
    (h : (values ++ others).Pairwise fun a b => ¬ a.same b) :
    addLiterals values others = values ++ others := by
  induction others generalizing values with
  | nil => exact (List.append_nil values).symm
  | cons value others ih =>
    have hnew : ¬ values.any (·.same value) := by
      simp only [List.any_eq_true, not_exists, not_and]
      exact fun other hother => (List.pairwise_append.mp h).2.2 other hother value List.mem_cons_self
    rw [addLiterals_cons, addLiteral_of_not_any hnew, ih (by simpa using h), List.append_assoc]
    rfl

/-- No value is added that is there. -/
theorem pairwise_addLiterals {values : List Literal}
    (h : values.Pairwise fun a b => ¬ a.same b) (others : List Literal) :
    (addLiterals values others).Pairwise fun a b => ¬ a.same b := by
  induction others generalizing values with
  | nil => exact h
  | cons value others ih =>
    refine ih ?_
    by_cases hin : values.any (·.same value)
    · rwa [addLiteral_of_any hin]
    · rw [addLiteral_of_not_any hin, List.pairwise_append]
      simp only [List.any_eq_true, not_exists, not_and] at hin
      exact ⟨h, List.pairwise_singleton _ _, by simpa using hin⟩

theorem isOther_eq (type : TypeVariant) :
    mergeRestrictions.isOther type = !type.isRestriction := by
  cases type <;> rfl

@[simp] theorem mergeRestrictions_nil : mergeRestrictions [] = [] := rfl

theorem mergeRestrictions_cons {type : TypeVariant} (h : type.isRestriction = false)
    (rest : List TypeVariant) :
    mergeRestrictions (type :: rest) = type :: mergeRestrictions rest := by
  cases type <;> first | rfl | cases h

theorem mergeRestrictions_restricted (values : List Literal) (rest : List TypeVariant) :
    mergeRestrictions (.restricted values :: rest) =
      .restricted (addLiterals [] (values ++ rest.flatMap allowed)) ::
        rest.filter (!·.isRestriction) := by
  have hother : mergeRestrictions.isOther = fun type => !type.isRestriction :=
    funext isOther_eq
  rw [mergeRestrictions, mergeRestrictions.go, hother]
  rfl

theorem flatMap_allowed_filter (types : List TypeVariant) :
    (types.filter (!·.isRestriction)).flatMap allowed = [] := by
  simp only [List.flatMap_eq_nil_iff, List.mem_filter, Bool.not_eq_true', and_imp]
  exact fun type _ h => allowed_eq_nil h

/-- Merging drops no value, and values only as duplicates. -/
theorem flatMap_allowed_mergeRestrictions (types : List TypeVariant) :
    (mergeRestrictions types).flatMap allowed = addLiterals [] (types.flatMap allowed) := by
  induction types with
  | nil => rfl
  | cons type rest ih =>
    cases h : type.isRestriction with
    | false =>
      simp [mergeRestrictions_cons h, allowed_eq_nil h, ih]
    | true =>
      obtain ⟨values, rfl⟩ := exists_of_isRestriction h
      rw [mergeRestrictions_restricted, List.flatMap_cons, flatMap_allowed_filter,
        List.append_nil, List.flatMap_cons]
      rfl

theorem filter_mergeRestrictions (types : List TypeVariant) :
    (mergeRestrictions types).filter (!·.isRestriction) = types.filter (!·.isRestriction) := by
  induction types with
  | nil => rfl
  | cons type rest ih =>
    cases h : type.isRestriction with
    | false => simp [mergeRestrictions_cons h, h, ih]
    | true =>
      obtain ⟨values, rfl⟩ := exists_of_isRestriction h
      rw [mergeRestrictions_restricted]
      simp [isRestriction]

/-- Only the values and the other types matter to what a leading restriction becomes. -/
theorem mergeRestrictions_congr {values values' : List Literal} {rest rest' : List TypeVariant}
    (hvalues : addLiterals [] (values ++ rest.flatMap allowed) =
      addLiterals [] (values' ++ rest'.flatMap allowed))
    (hothers : rest.filter (!·.isRestriction) = rest'.filter (!·.isRestriction)) :
    mergeRestrictions (.restricted values :: rest) =
      mergeRestrictions (.restricted values' :: rest') := by
  rw [mergeRestrictions_restricted, mergeRestrictions_restricted, hvalues, hothers]

/-- Merging the first part beforehand changes nothing. -/
theorem mergeRestrictions_append_left (first second : List TypeVariant) :
    mergeRestrictions (mergeRestrictions first ++ second) = mergeRestrictions (first ++ second) := by
  induction first with
  | nil => rfl
  | cons type rest ih =>
    cases h : type.isRestriction with
    | false =>
      rw [mergeRestrictions_cons h, List.cons_append, mergeRestrictions_cons h, ih,
        List.cons_append, mergeRestrictions_cons h]
    | true =>
      obtain ⟨values, rfl⟩ := exists_of_isRestriction h
      rw [mergeRestrictions_restricted, List.cons_append, List.cons_append]
      refine mergeRestrictions_congr ?_ ?_
      · have hagain := addLiterals_addLiterals [] [] (values ++ rest.flatMap allowed)
        rw [List.flatMap_append, flatMap_allowed_filter, List.nil_append, addLiterals_append,
          hagain, List.flatMap_append, ← List.append_assoc, addLiterals_append _ _ (second.flatMap _)]
        rfl
      · simp [List.filter_append]

theorem mergeRestrictions_mergeRestrictions (types : List TypeVariant) :
    mergeRestrictions (mergeRestrictions types) = mergeRestrictions types := by
  simpa using mergeRestrictions_append_left types []

/-- Merging the last part beforehand changes nothing. -/
theorem mergeRestrictions_append_right (first second : List TypeVariant) :
    mergeRestrictions (first ++ mergeRestrictions second) = mergeRestrictions (first ++ second) := by
  induction first with
  | nil => exact mergeRestrictions_mergeRestrictions second
  | cons type rest ih =>
    cases h : type.isRestriction with
    | false =>
      rw [List.cons_append, mergeRestrictions_cons h, ih, List.cons_append,
        mergeRestrictions_cons h]
    | true =>
      obtain ⟨values, rfl⟩ := exists_of_isRestriction h
      rw [List.cons_append, List.cons_append]
      refine mergeRestrictions_congr ?_ ?_
      · rw [List.flatMap_append, flatMap_allowed_mergeRestrictions, ← List.append_assoc,
          addLiterals_append, addLiterals_addLiterals, List.flatMap_append, ← List.append_assoc,
          addLiterals_append _ _ (second.flatMap _)]
        rfl
      · rw [List.filter_append, filter_mergeRestrictions, List.filter_append]

theorem mergeRestrictions_append (first second : List TypeVariant) :
    mergeRestrictions (mergeRestrictions first ++ mergeRestrictions second) =
      mergeRestrictions (first ++ second) := by
  rw [mergeRestrictions_append_left, mergeRestrictions_append_right]

theorem mergeRestrictions_ne_nil {types : List TypeVariant} (h : types ≠ []) :
    mergeRestrictions types ≠ [] := by
  cases types with
  | nil => exact absurd rfl h
  | cons type rest => cases type <;> exact List.cons_ne_nil _ _

/-- `merged` are types with all their restrictions in one. It stands where the first of
them stood and has their values in order, without those that come a second time. All
other types are kept in order. -/
structure Merges (types merged : List TypeVariant) : Prop where
  none : (∀ type ∈ types, type.isRestriction = false) → merged = types
  some : ∀ before values after, types = before ++ .restricted values :: after →
    (∀ type ∈ before, type.isRestriction = false) →
    merged = before ++ .restricted ((types.flatMap allowed).eraseDupsBy Literal.same) ::
      after.filter (!·.isRestriction)

theorem merges_mergeRestrictions (types : List TypeVariant) :
    Merges types (mergeRestrictions types) where
  none h := by
    induction types with
    | nil => rfl
    | cons type rest ih =>
      rw [mergeRestrictions_cons (h type (by simp)), ih fun t ht => h t (by simp [ht])]
  some before values after htypes h := by
    subst htypes
    rw [← addLiterals_nil_left]
    induction before with
    | nil =>
      rw [List.nil_append, mergeRestrictions_restricted]
      rfl
    | cons type rest ih =>
      have htype := h type (by simp)
      rw [List.cons_append, mergeRestrictions_cons htype, ih fun t ht => h t (by simp [ht])]
      simp [allowed_eq_nil htype]

end Resolution

end DeclSchema
