import DeclSchema.Proofs.Parser.Interface

/-!
# Types do not look back

A type begins with a token of its own. So where the token before it ends has no influence
on a type that is read.
-/

namespace DeclSchema.Parser

/-- The state with another end of the token before. -/
def State.behind (s : State) (stop : Nat) : State :=
  { s with prevEnd := stop }

/-- A run from the state that succeeds is the same wherever the token before ends. -/
def Forgets (s : State) (p : Parser α) : Prop :=
  ∀ (stop : Nat) (a : α) (t : State), p s = (.ok a, t) → p (s.behind stop) = (.ok a, t)

/-- So is every run from the state; or nothing is read, and the end is passed on. -/
def PassesOn (s : State) (p : Parser α) : Prop :=
  ∀ stop : Nat, p (s.behind stop) = p s ∨ p (s.behind stop) = ((p s).1, (p s).2.behind stop)

section

variable {α β : Type} {s : State} {p q : Parser α} {f : α → Parser β}

theorem State.advance_behind {count : Nat} (hcount : 0 < count) (hrest : s.rest ≠ [])
    (stop : Nat) : (s.behind stop).advance count = s.advance count := by
  obtain ⟨rest, prevEnd, length, docs, depth, errors, journal⟩ := s
  obtain ⟨token, rest, rfl⟩ := List.exists_cons_of_ne_nil hrest
  obtain ⟨count, rfl⟩ := Nat.exists_eq_add_one_of_ne_zero (Nat.ne_of_gt hcount)
  simp only [State.advance, State.behind, List.take_succ_cons, List.getLast?_cons]
  rfl

theorem passesOn_advance (count : Nat) : PassesOn s (advance count) := by
  intro stop
  by_cases hcount : count = 0
  · subst hcount
    refine .inr ?_
    show (Except.ok (), (s.behind stop).advance 0) = (Except.ok (), (s.advance 0).behind stop)
    rw [State.advance_zero, State.advance_zero]
  by_cases hrest : s.rest = []
  · refine .inr ?_
    show (Except.ok (), (s.behind stop).advance count) =
      (Except.ok (), (s.advance count).behind stop)
    rw [State.advance_of_rest_eq_nil hrest,
      State.advance_of_rest_eq_nil (s := s.behind stop) hrest]
  · exact .inl (congrArg (Prod.mk _) (State.advance_behind (Nat.pos_of_ne_zero hcount) hrest stop))

theorem passesOn_accept (kind : TokenKind) : PassesOn s (accept kind) := by
  intro stop
  have hat : (s.behind stop).isAt kind = s.isAt kind := rfl
  unfold accept
  rw [hat]
  by_cases hkind : s.isAt kind
  · rw [if_pos hkind, if_pos hkind, State.advance_behind Nat.one_pos (ne_nil_of_isAt hkind)]
    exact .inl rfl
  · rw [if_neg hkind, if_neg hkind]
    exact .inr rfl

namespace Forgets

theorem fail (fault : Fault) : Forgets s (Parser.fail fault : Parser α) := by
  intro _ _ _ hrun
  cases hrun

theorem refuse : Forgets s (Parser.refuse : Parser α) := by
  intro _ _ _ hrun
  cases hrun

/-- What is seen ahead is the same. -/
theorem look {f : State → Parser β} (hsame : ∀ stop, f (s.behind stop) = f s)
    (hf : Forgets s (f s)) : Forgets s (Parser.look >>= f) := by
  intro stop b t hrun
  rw [look_bind_apply, hsame]
  exact hf stop b t hrun

theorem ite {P : Prop} [Decidable P] (hp : P → Forgets s p) (hq : ¬ P → Forgets s q) :
    Forgets s (if P then p else q) := by
  split
  · next h => exact hp h
  · next h => exact hq h

theorem bind (hp : Forgets s p) : Forgets s (p >>= f) := by
  intro stop b u hrun
  rcases hfirst : p s with ⟨error | a, t⟩
  · rw [bind_apply_error hfirst] at hrun
    cases hrun
  · rw [bind_apply_ok hfirst] at hrun
    rw [bind_apply_ok (hp stop a t hfirst)]
    exact hrun

theorem after (hp : PassesOn s p) (hf : ∀ a t, p s = (.ok a, t) → Forgets t (f a)) :
    Forgets s (p >>= f) := by
  intro stop b u hrun
  rcases hfirst : p s with ⟨error | a, t⟩
  · rw [bind_apply_error hfirst] at hrun
    cases hrun
  · have hboth := hp stop
    rw [hfirst] at hboth
    rw [bind_apply_ok hfirst] at hrun
    rcases hboth with hsame | hsame
    · rw [bind_apply_ok hsame]
      exact hrun
    · rw [bind_apply_ok hsame]
      exact hf a t hfirst stop b u hrun

theorem nested (h : Forgets { s with depth := s.depth + 1 } p) : Forgets s (Parser.nested p) := by
  intro stop a t hrun
  by_cases hdepth : maxDepth ≤ s.depth
  · have hrefuse : Parser.nested p s = Parser.refuse s := if_pos hdepth
    rw [hrefuse] at hrun
    cases hrun
  have hdeeper : ∀ t : State, t.depth = s.depth → Parser.nested p t =
      ((p { t with depth := t.depth + 1 }).1,
        { (p { t with depth := t.depth + 1 }).2 with
          depth := (p { t with depth := t.depth + 1 }).2.depth - 1 }) :=
    fun t ht => if_neg (ht ▸ hdepth)
  rw [hdeeper s rfl] at hrun
  rcases hinside : p { s with depth := s.depth + 1 } with ⟨result, u⟩
  rw [hinside] at hrun
  cases hrun
  have hsame : p { s.behind stop with depth := s.depth + 1 } = (.ok a, u) := h stop a u hinside
  rw [hdeeper (s.behind stop) rfl]
  show ((p { s.behind stop with depth := s.depth + 1 }).1, _) = _
  rw [hsame]
  show (Except.ok a, { (p { s.behind stop with depth := s.depth + 1 }).2 with
    depth := (p { s.behind stop with depth := s.depth + 1 }).2.depth - 1 }) = _
  rw [hsame]

theorem advance_one (hrest : s.rest ≠ []) : Forgets s (advance 1) := by
  intro stop a t hrun
  cases hrun
  exact congrArg (Prod.mk _) (State.advance_behind Nat.one_pos hrest stop)

theorem token (kind : TokenKind) (what : Wanted) : Forgets s (Parser.token kind what) := by
  intro stop first t hrun
  have hrest : (s.behind stop).rest = s.rest := rfl
  unfold Parser.token at hrun ⊢
  rw [hrest]
  cases hcons : s.rest with
  | nil =>
    rw [hcons] at hrun
    cases hrun
  | cons token rest =>
    rw [hcons] at hrun
    dsimp only at hrun ⊢
    rw [State.advance_behind Nat.one_pos (by simp [hcons])]
    split at hrun
    · next hkind => rwa [if_pos hkind]
    · cases hrun

theorem expect (kind : TokenKind) : Forgets s (Parser.expect kind) :=
  token kind _

end Forgets

end

section

variable {s : State} {type : Parser Node}

theorem forgets_identifier (what : Wanted) : Forgets s (identifier what) :=
  (Forgets.token _ _).bind

theorem forgets_entityName : Forgets s entityName :=
  (forgets_identifier .name).bind

theorem forgets_parameters : Forgets s (parameters type) :=
  (Forgets.expect _).bind

theorem forgets_functionType : Forgets s (functionType type) := by
  refine .look (fun _ => rfl) ?_
  by_cases hat : s.isAt .lt
  · have hgenerics : Forgets s (typeParametersIfAny type) :=
      .look (fun _ => rfl) (.ite (fun _ => (Forgets.expect _).bind) fun hnot => absurd hat hnot)
    exact hgenerics.bind
  · refine .after (fun stop => .inr ?_) fun _ t _ => forgets_parameters.bind
    have hnone : ∀ t : State, ¬ t.isAt .lt → typeParametersIfAny type t = (.ok [], t) := by
      intro t ht
      unfold typeParametersIfAny
      rw [look_bind_apply, if_neg ht]
      rfl
    rw [hnone s hat]
    exact hnone (s.behind stop) hat

theorem forgets_typeReference : Forgets s (typeReference type) :=
  .look (fun _ => rfl) forgets_entityName.bind

theorem forgets_wordType (token : Token) (hrest : s.rest ≠ []) :
    Forgets s (wordType type token) := by
  have hone : Forgets s (advance 1) := .advance_one hrest
  refine .look (fun _ => rfl) (.ite (fun _ => .look (fun _ => rfl) hone.bind) fun _ =>
    .ite (fun _ => hone.bind) fun _ => .ite (fun _ => hone.bind) fun _ =>
      .ite (fun _ => hone.bind) fun _ => .ite (fun _ => .fail _) fun _ => ?_)
  cases NodeKind.keywordType? token.text with
  | none => exact forgets_typeReference
  | some kind => exact .ite (fun _ => forgets_typeReference) fun _ => hone.bind

theorem forgets_primaryType : Forgets s (primaryType type) := by
  refine .look (fun _ => rfl) ?_
  cases hrest : s.rest with
  | nil => exact .fail _
  | cons token rest =>
    have hne : s.rest ≠ [] := by simp [hrest]
    have hone : Forgets s (advance 1) := .advance_one hne
    dsimp only
    cases token.kind with
    | lParen =>
      exact .ite (fun _ => forgets_functionType) fun _ => .look (fun _ => rfl) (.bind (.expect _))
    | lt => exact forgets_functionType
    | lBrace => exact .look (fun _ => rfl) (.bind (.expect _))
    | lBracket => exact .look (fun _ => rfl) (.bind (.expect _))
    | string | number => exact hone.bind
    | minus => exact .ite (fun _ => hone.bind) fun _ => .fail _
    | word => exact forgets_wordType token hne
    | _ => exact .fail _

theorem forgets_postfixType : Forgets s (postfixType type) :=
  .look (fun _ => rfl) (.after (passesOn_advance _) fun _ _ _ =>
    .look (fun _ => rfl) forgets_primaryType.bind)

theorem forgets_operands {operator : TokenKind} {kind : NodeKind} {operand : Parser Node}
    (h : ∀ t, Forgets t operand) : Forgets s (operands operator kind operand) :=
  .look (fun _ => rfl) (.after (passesOn_accept operator) fun _ t _ => .bind (h t).bind)

theorem forgets_typeWithin (levels : Nat) : Forgets s (typeWithin levels) := by
  cases levels with
  | zero => exact .refuse
  | succ levels =>
    exact .nested (forgets_operands fun _ => forgets_operands fun _ => forgets_postfixType)

theorem forgets_type : Forgets s Parser.type :=
  forgets_typeWithin maxDepth

end

end DeclSchema.Parser
