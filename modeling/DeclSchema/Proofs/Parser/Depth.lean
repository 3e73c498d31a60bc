import DeclSchema.Proofs.Parser.Runs
import Mathlib.Data.List.Chain
import Mathlib.Logic.Relation

/-!
# The depth of nesting

A level of nesting that is entered is left again, whatever happens in it: behind a result, behind
an error that is passed on and behind one that is recorded and recovered from. So each parser ends
at the depth at which it began, is never less deep in between, and never deeper than is allowed.
What comes behind something malformed or nested too deep may be nested as deep as what came before.
-/

namespace DeclSchema.Parser

/-- The second state is no less deep than the first one, and not too deep. -/
def State.WithinLevels (s u : State) : Prop :=
  s.depth ≤ u.depth ∧ u.depth ≤ maxDepth

/-- From the one state to the other a level at most is entered or left. -/
def State.Adjoins (s u : State) : Prop :=
  u.depth ≤ s.depth + 1 ∧ s.depth ≤ u.depth + 1

theorem State.WithinLevels.of_eq {s u : State} (h : u.depth = s.depth) (hs : s.depth ≤ maxDepth) :
    s.WithinLevels u :=
  ⟨h.ge, h.trans_le hs⟩

theorem State.Adjoins.of_eq {s u : State} (h : u.depth = s.depth) : s.Adjoins u :=
  ⟨h.le.trans (Nat.le_succ _), h.ge.trans (Nat.le_succ _)⟩

variable {α : Type} {p : Parser α} {s : State} {states : List State}

theorem Elementary.depth_eq (h : Elementary p) (s : State) : (p s).2.depth = s.depth := by
  cases h with
  | pure | look | fail | report | note | advance => rfl
  | takeDocs =>
    unfold Parser.takeDocs
    split <;> rfl
  | token kind what =>
    unfold Parser.token
    split
    · rfl
    · split <;> rfl
  | accept kind =>
    unfold Parser.accept
    split <;> rfl
  | acceptWord word =>
    unfold Parser.acceptWord
    split <;> rfl

theorem nested_of_lt (p : Parser α) (h : s.depth < maxDepth) :
    (nested p s).2 = { (p { s with depth := s.depth + 1 }).2 with
      depth := (p { s with depth := s.depth + 1 }).2.depth - 1 } := by
  unfold nested
  rw [if_neg (Nat.not_le_of_lt h)]

theorem nested_of_le (p : Parser α) (h : maxDepth ≤ s.depth) : nested p s = refuse s :=
  if_pos h

namespace Runs

/-- A run begins in its first state and ends in its last one. -/
theorem ends (h : Runs p s states) :
    states.head? = some s ∧ states.getLast? = some (p s).2 := by
  induction h with
  | step s _ => exact ⟨rfl, rfl⟩
  | @bind _ _ p f s t a states later hrun _ _ ih ih' =>
    rw [bind_apply_ok hrun, List.head?_append, List.getLast?_append, ih.1, ih'.2]
    exact ⟨rfl, rfl⟩
  | @broken _ _ p f s t error states hrun _ ih =>
    rw [hrun] at ih
    rw [bind_apply_error hrun]
    exact ih
  | attempt _ ih => exact ih
  | refused hdepth _ ih =>
    rw [nested_of_le _ hdepth]
    exact ih
  | deeper _ _ _ => exact ⟨rfl, List.getLast?_concat⟩
  | returnType _ ih =>
    rw [List.head?_append, ih.1]
    exact ⟨rfl, List.getLast?_concat⟩

/-- A run ends at the depth at which it began. -/
theorem depth_eq (h : Runs p s states) : (p s).2.depth = s.depth := by
  induction h with
  | step s hp => exact hp.depth_eq s
  | @bind _ _ p f s t a states later hrun _ _ ih ih' =>
    rw [hrun] at ih
    rw [bind_apply_ok hrun]
    exact ih'.trans ih
  | @broken _ _ p f s t error states hrun _ ih =>
    rw [hrun] at ih
    rw [bind_apply_error hrun]
    exact ih
  | attempt _ ih => exact ih
  | refused hdepth _ ih =>
    rw [nested_of_le _ hdepth]
    exact ih
  | deeper hdepth _ ih =>
    rw [nested_of_lt _ hdepth]
    exact congrArg (· - 1) ih
  | returnType _ ih =>
    unfold Parser.returnType
    dsimp only
    split <;> exact ih

/-- In between a run is never less deep than where it began, and never too deep. -/
theorem within (h : Runs p s states) (hs : s.depth ≤ maxDepth) : ∀ u ∈ states, s.WithinLevels u := by
  induction h with
  | step s hp =>
    refine List.forall_mem_cons.mpr ⟨.of_eq rfl hs, ?_⟩
    exact List.forall_mem_singleton.mpr (.of_eq (hp.depth_eq s) hs)
  | @bind _ _ p f s t a states later hrun hp _ ih ih' =>
    have ht : t.depth = s.depth := by
      have heq := hp.depth_eq
      rwa [hrun] at heq
    refine List.forall_mem_append.mpr ⟨ih hs, fun u hu => ?_⟩
    obtain ⟨hle, hmax⟩ := ih' (ht.trans_le hs) u hu
    exact ⟨ht.ge.trans hle, hmax⟩
  | broken _ _ ih | attempt _ ih | refused _ _ ih => exact ih hs
  | deeper hdepth hp ih =>
    refine List.forall_mem_append.mpr ⟨?_, ?_⟩
    · refine List.forall_mem_cons.mpr ⟨.of_eq rfl hs, fun u hu => ?_⟩
      obtain ⟨hle, hmax⟩ := ih hdepth u hu
      exact ⟨Nat.le_of_succ_le hle, hmax⟩
    · exact List.forall_mem_singleton.mpr (.of_eq (Runs.deeper hdepth hp).depth_eq hs)
  | returnType hp ih =>
    refine List.forall_mem_append.mpr ⟨ih hs, ?_⟩
    exact List.forall_mem_singleton.mpr (.of_eq (Runs.returnType hp).depth_eq hs)

/-- A run enters and leaves one level at a time. -/
theorem adjoins (h : Runs p s states) : states.IsChain State.Adjoins := by
  induction h with
  | step s hp => exact List.isChain_pair.mpr (.of_eq (hp.depth_eq s))
  | @bind _ _ p f s t a states later hrun hp hlater ih ih' =>
    refine List.isChain_append.mpr ⟨ih, ih', fun u hu v hv => ?_⟩
    rw [hp.ends.2, hrun] at hu
    rw [hlater.ends.1] at hv
    cases hu
    cases hv
    exact .of_eq rfl
  | broken _ _ ih | attempt _ ih | refused _ _ ih => exact ih
  | @deeper _ p s states hdepth hp ih =>
    have hafter : (nested p s).2.depth = s.depth := (Runs.deeper hdepth hp).depth_eq
    have hinner : (p { s with depth := s.depth + 1 }).2.depth = s.depth + 1 := hp.depth_eq
    refine List.isChain_append.mpr ⟨List.isChain_cons.mpr ⟨fun u hu => ?_, ih⟩,
      List.isChain_singleton _, fun u hu v hv => ?_⟩
    · rw [hp.ends.1] at hu
      cases hu
      exact ⟨Nat.le_refl _, Nat.le_add_right _ 2⟩
    · rw [List.getLast?_cons, hp.ends.2] at hu
      cases hu
      cases hv
      unfold State.Adjoins
      rw [hafter, Option.getD_some, hinner]
      exact ⟨Nat.le_add_right _ 2, Nat.le_refl _⟩
  | returnType hp ih =>
    refine List.isChain_append.mpr ⟨ih, List.isChain_singleton _, fun u hu v hv => ?_⟩
    rw [hp.ends.2] at hu
    cases hu
    cases hv
    exact .of_eq ((Runs.returnType hp).depth_eq.trans hp.depth_eq.symm)

end Runs

/-- From a state that is not too deep the parser ends at the depth at which it began; its run
passes through states, none of which is less deep or too deep, one level at a time. -/
def Level (p : Parser α) : Prop :=
  ∀ s : State, s.depth ≤ maxDepth →
    (p s).2.depth = s.depth ∧ (∃ states, Runs p s states) ∧
      ∀ states, Runs p s states →
        states.head? = some s ∧ states.getLast? = some (p s).2 ∧
          states.IsChain State.Adjoins ∧ ∀ u ∈ states, s.WithinLevels u

theorem level [Traced p] : Level p := by
  intro s hs
  obtain ⟨states, hstates⟩ := Traced.exists_runs (p := p) s
  refine ⟨hstates.depth_eq, ⟨states, hstates⟩, fun states hstates => ?_⟩
  obtain ⟨hfirst, hlast⟩ := hstates.ends
  exact ⟨hfirst, hlast, hstates.adjoins, hstates.within hs⟩

/-- The one state is where a loop begins, and the other one is where it begins another round. -/
def LaterRound (round : Parser (Option (List Node))) : State → State → Prop :=
  Relation.ReflTransGen fun s t => ∃ nodes, round s = (.ok (some nodes), t)

theorem depth_laterRound {round : Parser (Option (List Node))} [Traced round] {s t : State}
    (h : LaterRound round s t) : t.depth = s.depth := by
  induction h with
  | refl => rfl
  | @tail t u _ hround ih =>
    obtain ⟨nodes, hround⟩ := hround
    obtain ⟨states, hstates⟩ := Traced.exists_runs (p := round) t
    have heq := hstates.depth_eq
    rw [hround] at heq
    exact heq.trans ih

/-- The parser goes round and round, and each round keeps the depth, so that each of them begins
at the depth at which the first one began. -/
structure LevelLoop (round : Parser (Option (List Node))) (p : Parser (List Node)) : Prop where
  loops : Loops round p
  level : Level round
  later : ∀ s t, LaterRound round s t → t.depth = s.depth

theorem levelLoop {round : Parser (Option (List Node))} {p : Parser (List Node)} [Traced round]
    (h : Loops round p) : LevelLoop round p :=
  ⟨h, level, fun _ _ => depth_laterRound⟩

/-- Every parser of the grammar keeps the depth and stays within the levels that are allowed. So
do the rounds of the loops over members and statements, whatever is read, recorded or passed
over in them, and those over the statements of a source begin outside all levels. -/
theorem depth_balanced :
    (∀ {α : Type} {p : Parser α}, Procedure p → Level p) ∧
    (∀ levels,
      LevelLoop (typeMemberRound (typeWithin levels)) (typeMembers (typeWithin levels)) ∧
      LevelLoop (classMemberRound (typeWithin levels)) (classMembers (typeWithin levels)) ∧
      LevelLoop (statementRound (blockWithin levels)) (statements (blockWithin levels))) ∧
    LevelLoop sourceRound sourceFile ∧
    ∀ source t, LaterRound sourceRound (.ofSource source) t → t.depth = 0 := by
  refine ⟨fun hp => ?_, fun levels => ⟨?_, ?_, ?_⟩, levelLoop loops_sourceFile, ?_⟩
  · have := hp.traced
    exact level
  · exact levelLoop (loops_typeMembers _)
  · exact levelLoop (loops_classMembers _)
  · exact levelLoop (loops_statements _)
  · exact fun source t => depth_laterRound

/-- A type that is nested too deep, and a malformed declaration in front of another one. -/
theorem depth_balanced_parentheses :
    let s : State := { State.ofSource "((x" with depth := 63 }
    let t := State.ofSource "interface A \x7b b: ( \x7d interface B \x7b\x7d"
    (type s).1.isOk = false ∧ (type s).2.depth = 63 ∧
      (∃ states, Runs type s states ∧ ∀ u ∈ states, s.WithinLevels u) ∧
    (sourceRound t).2.errors.length = 1 ∧ (sourceRound t).2.depth = 0 := by
  intro s t
  obtain ⟨hprocedures, -, -, hsource⟩ := depth_balanced
  have hs : s.depth ≤ maxDepth := by decide
  obtain ⟨hdepth, ⟨states, hstates⟩, hall⟩ := hprocedures (.type maxDepth) s hs
  obtain ⟨-, -, -, hwithin⟩ := hall states hstates
  have hround : ∃ nodes, sourceRound t = (.ok (some nodes), (sourceRound t).2) := by
    have hsome : ((sourceRound t).1.toOption.bind id).isSome := by decide +kernel
    rcases hrun : sourceRound t with ⟨error | nodes?, u⟩
    · rw [hrun] at hsome
      cases hsome
    · cases nodes? with
      | none =>
        rw [hrun] at hsome
        cases hsome
      | some nodes => exact ⟨nodes, rfl⟩
  refine ⟨by decide +kernel, hdepth, ⟨states, hstates, hwithin⟩, by decide +kernel, ?_⟩
  exact hsource _ _ (.single hround)

end DeclSchema.Parser
