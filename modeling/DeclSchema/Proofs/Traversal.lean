import Mathlib.Data.List.Forall2

/-!
# Traversals that may fail

A list is traversed by a function that fails for some items. The traversal gives what each
item gives (`mapM_eq_ok_iff`), or the error of the first item that fails
(`mapM_eq_error_iff`).
-/

namespace DeclSchema

variable {α β ε : Type} {f : α → Except ε β}

theorem map_eq_error_iff {g : α → β} {result : Except ε α} {error : ε} :
    result.map g = .error error ↔ result = .error error := by
  cases result <;> simp [Except.map]

theorem map_eq_ok_iff {γ : Type} {g : α → γ} {result : Except ε α} {value : γ} :
    result.map g = .ok value ↔ ∃ found, result = .ok found ∧ g found = value := by
  cases result <;> simp [Except.map]

theorem exists_map_eq_ok_iff {g : α → β} {result : Except ε α} :
    (∃ value, result.map g = .ok value) ↔ ∃ value, result = .ok value := by
  cases result <;> simp [Except.map]

theorem mapM_cons_error {item : α} {error : ε} (h : f item = .error error) (rest : List α) :
    (item :: rest).mapM f = .error error := by
  rw [List.mapM_cons, h]
  rfl

theorem mapM_cons_ok {item : α} {result : β} (h : f item = .ok result) (rest : List α) :
    (item :: rest).mapM f = (rest.mapM f).map (result :: ·) := by
  rw [List.mapM_cons, h]
  cases rest.mapM f <;> rfl

/-- A traversal succeeds with what every item gives. -/
theorem mapM_eq_ok_iff {items : List α} {results : List β} :
    items.mapM f = .ok results ↔
      List.Forall₂ (fun item result => f item = .ok result) items results := by
  induction items generalizing results with
  | nil =>
    rw [List.forall₂_nil_left_iff]
    exact ⟨fun h => (Except.ok.inj h).symm, fun h => h ▸ rfl⟩
  | cons item rest ih =>
    rw [List.forall₂_cons_left_iff]
    simp only [← ih]
    cases hitem : f item with
    | error error => simp [mapM_cons_error hitem]
    | ok result =>
      rw [mapM_cons_ok hitem]
      cases rest.mapM f <;> simp [Except.map, eq_comm]

theorem mapM_append_ok {first second : List α} {before after : List β}
    (hfirst : first.mapM f = .ok before) (hsecond : second.mapM f = .ok after) :
    (first ++ second).mapM f = .ok (before ++ after) := by
  rw [List.mapM_append, hfirst, hsecond]
  rfl

/-- A traversal fails with the error of the first item that gives one. -/
theorem mapM_eq_error_iff {items : List α} {error : ε} :
    items.mapM f = .error error ↔ ∃ before item after, items = before ++ item :: after ∧
      (∀ other ∈ before, ∃ result, f other = .ok result) ∧ f item = .error error := by
  induction items with
  | nil => simp [pure, Except.pure]
  | cons first rest ih =>
    cases hfirst : f first with
    | error other =>
      rw [mapM_cons_error hfirst, Except.error.injEq]
      constructor
      · rintro rfl
        exact ⟨[], first, rest, rfl, by simp, hfirst⟩
      · rintro ⟨before, item, after, hsplit, hbefore, hitem⟩
        rcases List.cons_eq_append_iff.mp hsplit with ⟨rfl, hrest⟩ | ⟨before', rfl, -⟩
        · obtain ⟨rfl, -⟩ := List.cons.inj hrest
          exact Except.error.inj (hfirst.symm.trans hitem)
        · obtain ⟨result, hok⟩ := hbefore first List.mem_cons_self
          cases hfirst.symm.trans hok
    | ok result =>
      have hrun : (first :: rest).mapM f = .error error ↔ rest.mapM f = .error error := by
        rw [mapM_cons_ok hfirst, map_eq_error_iff]
      rw [hrun, ih]
      constructor
      · rintro ⟨before, item, after, rfl, hbefore, hitem⟩
        exact ⟨first :: before, item, after, rfl,
          List.forall_mem_cons.mpr ⟨⟨result, hfirst⟩, hbefore⟩, hitem⟩
      · rintro ⟨before, item, after, hsplit, hbefore, hitem⟩
        rcases List.cons_eq_append_iff.mp hsplit with ⟨rfl, hrest⟩ | ⟨before', rfl, hrest⟩
        · obtain ⟨rfl, -⟩ := List.cons.inj hrest
          cases hfirst.symm.trans hitem
        · exact ⟨before', item, after, hrest, (List.forall_mem_cons.mp hbefore).2, hitem⟩

/-- A traversal succeeds exactly if every item gives something. -/
theorem exists_mapM_eq_ok_iff {items : List α} :
    (∃ results, items.mapM f = .ok results) ↔ ∀ item ∈ items, ∃ result, f item = .ok result := by
  induction items with
  | nil => simp [pure, Except.pure]
  | cons first rest ih =>
    rw [List.forall_mem_cons, ← ih]
    cases hfirst : f first with
    | error error => simp [mapM_cons_error hfirst]
    | ok result => simp [mapM_cons_ok hfirst, exists_map_eq_ok_iff]

/-- What a traversal gives comes from its items. -/
theorem exists_of_mapM_ok {items : List α} {results : List β} (h : items.mapM f = .ok results) :
    ∀ result ∈ results, ∃ item ∈ items, f item = .ok result := by
  rw [mapM_eq_ok_iff] at h
  induction h with
  | nil => exact List.forall_mem_nil _
  | @cons item result items results hitem _ ih =>
    rw [List.forall_mem_cons]
    refine ⟨⟨item, List.mem_cons_self, hitem⟩, fun other hother => ?_⟩
    obtain ⟨found, hfound, hrun⟩ := ih other hother
    exact ⟨found, List.mem_cons_of_mem _ hfound, hrun⟩

/-- The error of a traversal is that of one of the items. -/
theorem exists_of_mapM_error {items : List α} {error : ε} (h : items.mapM f = .error error) :
    ∃ item ∈ items, f item = .error error := by
  obtain ⟨before, item, after, rfl, -, hitem⟩ := mapM_eq_error_iff.mp h
  exact ⟨item, List.mem_append_right _ List.mem_cons_self, hitem⟩

end DeclSchema
