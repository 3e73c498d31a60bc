import DeclSchema.Proofs.Parser.Brackets
import DeclSchema.Proofs.Parser.StayingStatements

/-!
# Walks

What a run of a parser does to the state, whatever it reads and whether it succeeds: it passes
over tokens, enters brackets and levels of nesting and leaves them again, takes documentation,
recovers behind something malformed, and gives a return type back. A `Walk` is made of these
steps, and every run of every parser is one. What holds of every run then follows by one
induction over walks, without a look at the parsers.
-/

namespace DeclSchema

open TokenKind

namespace Parser

/-- The documentation in front of the next token that is not taken yet. -/
def State.tags (s : State) : List DocTag :=
  (s.docs.lookup s.start).getD []

/-- The state in which this documentation is taken. -/
def State.takeTags (s : State) : State :=
  { s with docs := s.docs.filter (·.1 != s.start) }

theorem takeDocs_apply (s : State) : takeDocs s = (.ok s.tags, s.takeTags) := by
  unfold takeDocs State.tags State.takeTags
  cases hlookup : s.docs.lookup s.start with
  | some found => rfl
  | none =>
    have hsame : s.docs.filter (·.1 != s.start) = s.docs :=
      List.filter_eq_self.mpr fun doc hdoc =>
        bne_comm.trans (List.lookup_eq_none_iff.mp hlookup doc hdoc)
    rw [hsame]
    rfl

/-- The state behind the decorators in front of a declaration or a member. -/
def State.behindDecorators (s : State) : State :=
  s.takeTags.advance (decoratorsLength s.rest)

/-- What a walk leads over. A part of a statement, a member or a statement is read as a whole,
or given up; this is not a matter of lists of members and of sources. -/
inductive Course where
  | part (whole : Bool)
  | member (whole : Bool)
  | members
  | source

/-- The steps that lead from one state to another. -/
inductive Walk : Course → State → State → Prop
  /-- Nothing is read. -/
  | stay (s : State) : Walk (.part true) s s
  /-- Reading is given up. -/
  | stop (s : State) : Walk (.part false) s s
  /-- A level of nesting is refused. -/
  | refuse (s : State) : Walk (.part false) s (s.note .refused)
  | trans {whole : Bool} {s t u : State} :
      Walk (.part true) s t → Walk (.part whole) t u → Walk (.part whole) s u
  /-- Tokens are passed over. -/
  | pass {s : State} {count : Nat} :
      Balances count s.rest → Walk (.part true) s (s.advance count)
  /-- Something is read in brackets. -/
  | enclosed {s t : State} {opening : Token} {rest : List Token} {close : TokenKind} :
      s.rest = opening :: rest → opening.kind.opens → opening.kind.closer? = some close →
      Walk (.part true) (s.advance 1) t → t.isAt close → Walk (.part true) s (t.advance 1)
  /-- Something is given up in brackets. -/
  | unclosed {s t : State} {opening : Token} {rest : List Token} :
      s.rest = opening :: rest → opening.kind.opens →
      Walk (.part false) (s.advance 1) t → Walk (.part false) s t
  /-- Members or statements are read in braces. -/
  | braced {s t : State} {opening : Token} {rest : List Token} :
      s.rest = opening :: rest → opening.kind = .lBrace →
      Walk .members (s.advance 1) t → t.isAt .rBrace → Walk (.part true) s (t.advance 1)
  /-- Members or statements are read behind an opening brace, and the closing one is missing. -/
  | unbraced {s t : State} {opening : Token} {rest : List Token} :
      s.rest = opening :: rest → opening.kind = .lBrace →
      Walk .members (s.advance 1) t → Walk (.part false) s t
  /-- Reading goes on one level deeper. -/
  | deeper {course : Course} {s t : State} :
      s.depth < maxDepth → Walk course { s with depth := s.depth + 1 } t →
      Walk course s { t with depth := t.depth - 1 }
  /-- A return type is read, and its errors are dropped. -/
  | returned {s t : State} : Walk (.part true) s t → Walk (.part true) s (s.keepErrors t)
  /-- A return type is given back, and passed over. -/
  | gaveBack {whole : Bool} {s t : State} (count : Nat) :
      Walk (.part whole) s t → Walk (.part true) s ((s.giveBack t).advance count)
  /-- Documentation is taken in front of a member. -/
  | documented {whole : Bool} {s t : State} :
      Walk (.part whole) s.takeTags t → (whole → t.rest.length < s.rest.length) →
      Walk (.member whole) s t
  /-- Documentation is taken in front of decorators and behind them. -/
  | decorated {whole : Bool} {s t : State} :
      Walk (.part whole) s.behindDecorators.takeTags t →
      (whole → t.rest.length < s.behindDecorators.rest.length) → Walk (.member whole) s t
  /-- A statement is passed over. -/
  | passed {s t : State} {count : Nat} :
      Walk (.part true) s.behindDecorators.takeTags t → Resuming count t.rest →
      (count = 0 → t.endsMembers) → Walk (.member true) s (t.advance count)
  /-- A declaration becomes a node, which has the documentation that was taken. -/
  | declared {s t : State} {heading : Heading} {children : List Node} :
      Walk (.part true) s.behindDecorators.takeTags t →
      t.rest.length < s.behindDecorators.rest.length →
      Walk (.member true) s (t.note (.declared
        (heading.node s t (s.tags ++ s.behindDecorators.tags) children) s.errors t.errors))
  /-- There is no further member. -/
  | ended (s : State) : Walk .members s s
  | separated {s t u : State} : Walk (.part true) s t → Walk .members t u → Walk .members s u
  /-- A member is read. Where the list ends behind it, nothing else is read. -/
  | read {s t u : State} :
      Walk (.member true) s t → (t.endsMembers → u = t) → Walk .members t u → Walk .members s u
  /-- A member is given up. Reading goes on some tokens further, if there are any before the
  list ends. -/
  | recovered {s t u : State} {error : ParseError} {count : Nat} :
      Walk (.member false) s t → Recovering count t.rest → (count = 0 → u = t.record error) →
      Walk .members ((t.record error).advance count) u → Walk .members s u
  /-- All statements of a source are read. -/
  | finished {s t : State} : Walk .members s t → Walk .source s t
  /-- A brace that closes nothing stands between the statements. -/
  | stray {s t u : State} :
      Walk .members s t → t.isAt .rBrace → Walk .source t.passStrayBrace u → Walk .source s u

namespace Walk

variable {course : Course} {s t : State}

theorem depth (h : Walk course s t) : t.depth = s.depth := by
  induction h with
  | stay | stop | refuse | pass | ended => rfl
  | trans _ _ ih ih' | separated _ _ ih ih' | read _ _ _ ih ih' | recovered _ _ _ _ ih ih'
  | stray _ _ _ ih ih' => exact ih'.trans ih
  | enclosed _ _ _ _ _ ih | unclosed _ _ _ ih | braced _ _ _ _ ih | unbraced _ _ _ ih
  | returned _ ih | gaveBack _ _ ih | documented _ _ ih | decorated _ _ ih | passed _ _ _ ih
  | declared _ _ ih | finished _ ih => exact ih
  | deeper _ _ ih => exact congrArg (· - 1) ih

theorem length (h : Walk course s t) : t.length = s.length := by
  induction h with
  | stay | stop | refuse | pass | ended => rfl
  | trans _ _ ih ih' | separated _ _ ih ih' | read _ _ _ ih ih' | recovered _ _ _ _ ih ih'
  | stray _ _ _ ih ih' => exact ih'.trans ih
  | enclosed _ _ _ _ _ ih | unclosed _ _ _ ih | braced _ _ _ _ ih | unbraced _ _ _ ih
  | returned _ ih | gaveBack _ _ ih | documented _ _ ih | decorated _ _ ih | passed _ _ _ ih
  | declared _ _ ih | deeper _ _ ih | finished _ ih => exact ih

/-- Tokens are only read, documentation is only taken, and the journal and the errors only
grow. -/
theorem leadsTo (h : Walk course s t) : s.LeadsTo t := by
  have htake : ∀ s : State, s.LeadsTo s.takeTags := fun s =>
    { State.LeadsTo.refl s with docs := List.filter_sublist }
  have hbehind : ∀ s : State, s.LeadsTo s.behindDecorators.takeTags := fun s =>
    (htake s).trans (.trans (.advance s.takeTags _) (htake _))
  induction h with
  | stay s | stop s | ended s => exact .refl s
  | refuse s => exact .note s _
  | pass => exact .advance _ _
  | trans _ _ ih ih' | separated _ _ ih ih' | read _ _ _ ih ih' => exact ih.trans ih'
  | enclosed _ _ _ _ _ ih | braced _ _ _ _ ih =>
    exact .trans (.advance _ 1) (.trans ih (.advance _ 1))
  | unclosed _ _ _ ih | unbraced _ _ _ ih => exact .trans (.advance _ 1) ih
  | deeper _ _ ih => exact ⟨ih.rest, ih.journal, ih.docs, ih.errors⟩
  | returned _ ih =>
    exact { ih with errors := (List.prefix_iff_eq_take.mp ih.errors) ▸ List.prefix_refl _ }
  | gaveBack _ _ ih =>
    exact ⟨List.drop_suffix _ _, ih.journal.trans (List.prefix_append _ _), ih.docs,
      (List.prefix_iff_eq_take.mp ih.errors) ▸ List.prefix_refl _⟩
  | documented _ _ ih => exact (htake _).trans ih
  | decorated _ _ ih => exact (hbehind _).trans ih
  | passed _ _ _ ih => exact ((hbehind _).trans ih).trans (.advance _ _)
  | declared _ _ ih => exact ((hbehind _).trans ih).trans (.note _ _)
  | recovered _ _ _ _ ih ih' => exact ih.trans (.trans (.record _ _) (.trans (.advance _ _) ih'))
  | finished _ ih => exact ih
  | stray _ _ _ ih ih' => exact ih.trans (.trans (.record _ _) (.trans (.advance _ _) ih'))

end Walk

/-- The journal tells of no return type that is given back. -/
def GivesNothingBack (journal : List Event) : Prop :=
  ∀ atEnd, .gaveBack atEnd ∉ journal

theorem GivesNothingBack.of_prefix {journal longer : List Event} (h : GivesNothingBack longer)
    (hle : journal <+: longer) : GivesNothingBack journal :=
  fun atEnd hmem => h atEnd (hle.subset hmem)

theorem givesNothingBack_iff {journal : List Event} :
    GivesNothingBack journal ↔ journal.all fun event => !(event matches .gaveBack _) := by
  rw [List.all_eq_true]
  constructor
  · intro h event hevent
    cases event with
    | gaveBack atEnd => exact absurd hevent (h atEnd)
    | refused | declared => rfl
  · exact fun h atEnd hevent => Bool.false_ne_true (h _ hevent)

instance (journal : List Event) : Decidable (GivesNothingBack journal) :=
  decidable_of_iff _ givesNothingBack_iff.symm

/-- Run from the state, the parser reads a part of a statement, or gives it up. -/
def Walks (s : State) (p : Parser α) : Prop :=
  Walk (.part (p s).1.isOk) s (p s).2

/-- Run from the state, the parser reads a member or a statement, or gives it up. -/
def WalksMember (s : State) (p : Parser α) : Prop :=
  Walk (.member (p s).1.isOk) s (p s).2

/-- Run from the state, the parser reads what stands in braces, or refuses to. -/
def WalksInside (s : State) (p : Parser α) : Prop :=
  Walk (if (p s).1.isOk then .members else .part false) s (p s).2

section

variable {s t u : State} {a : α} {error : ParseError} {p : Parser α}

theorem Walks.of_ok (h : Walks s p) (hrun : p s = (.ok a, t)) : Walk (.part true) s t := by
  unfold Walks at h
  rwa [hrun] at h

theorem Walks.of_error (h : Walks s p) (hrun : p s = (.error error, t)) :
    Walk (.part false) s t := by
  unfold Walks at h
  rwa [hrun] at h

theorem Walks.mk_ok (hrun : p s = (.ok a, t)) (h : Walk (.part true) s t) : Walks s p := by
  unfold Walks
  rwa [hrun]

theorem Walks.mk_error (hrun : p s = (.error error, t)) (h : Walk (.part false) s t) :
    Walks s p := by
  unfold Walks
  rwa [hrun]

/-- What is run at the end of a walk is the end of a longer one. -/
theorem Walk.andThen (h : Walk (.part true) s t) (hp : Walks t p) :
    Walk (.part (p t).1.isOk) s (p t).2 :=
  .trans h hp

end

namespace Walks

variable {α β : Type} {s : State} {p q : Parser α} {f : α → Parser β}

theorem pure (a : α) : Walks s (pure a : Parser α) :=
  .stay s

theorem bind (hp : Walks s p) (hf : ∀ a t, p s = (.ok a, t) → Walks t (f a)) :
    Walks s (p >>= f) := by
  rcases hrun : p s with ⟨error | a, t⟩
  · exact .mk_error (bind_apply_error hrun) (hp.of_error hrun)
  · have hwalk := (hp.of_ok hrun).andThen (hf a t hrun)
    unfold Walks
    rwa [bind_apply_ok hrun]

/-- As `bind`, where the run does not matter to what follows. -/
theorem go (hp : Walks s p) (hf : ∀ a t, Walks t (f a)) : Walks s (p >>= f) :=
  hp.bind fun a t _ => hf a t

theorem look {f : State → Parser β} (h : Walks s (f s)) : Walks s (Parser.look >>= f) :=
  h

theorem ite {c : Prop} [Decidable c] (hp : c → Walks s p) (hq : ¬ c → Walks s q) :
    Walks s (if c then p else q) := by
  by_cases h : c
  · rw [if_pos h]
    exact hp h
  · rw [if_neg h]
    exact hq h

/-- A step that is taken only under a condition, with what comes behind it. -/
theorem when {c : Prop} [Decidable c] {p : Parser Unit} {f : Unit → Parser β}
    (hp : c → Walks s p) (hf : ∀ t, Walks t (f ())) :
    Walks s (if c then p >>= f else f ()) :=
  .ite (fun h => (hp h).go fun _ t => hf t) fun _ => hf s

/-- One of two steps, with what comes behind it in both cases. -/
theorem either {c : Prop} [Decidable c] (hp : c → Walks s p) (hq : ¬ c → Walks s q)
    (hf : ∀ a t, Walks t (f a)) : Walks s (if c then p >>= f else q >>= f) :=
  .ite (fun h => (hp h).go hf) fun h => (hq h).go hf

theorem fail (fault : Fault) : Walks s (fail fault : Parser α) :=
  .stop s

theorem refuse : Walks s (refuse : Parser α) :=
  Walk.refuse s

theorem advance {count : Nat} (h : Balances count s.rest) : Walks s (advance count) :=
  .pass h

theorem advance_one {first : Token} {rest : List Token} (hrest : s.rest = first :: rest)
    (hopens : ¬ first.kind.opens) (hcloses : ¬ first.kind.closes) :
    Walks s (Parser.advance 1) :=
  .pass (.of_plain (by simp [hrest, hopens, hcloses]))

theorem word {first : Token} {rest : List Token} (hrest : s.rest = first :: rest)
    (hkind : first.kind = .word) : Walks s (Parser.advance 1) :=
  advance_one hrest (by simp [hkind, opens]) (by simp [hkind, closes])

section

variable {kind : TokenKind} (hopens : ¬ kind.opens) (hcloses : ¬ kind.closes)

include hopens hcloses

theorem token (what : Wanted) : Walks s (token kind what) := by
  cases hrest : s.rest with
  | nil =>
    unfold Walks Parser.token
    rw [hrest]
    exact .stop s
  | cons first rest =>
    have hone := advance_one hrest
    unfold Walks Parser.token
    rw [hrest]
    dsimp only
    split
    · next hkind => exact hone (hkind ▸ hopens) (hkind ▸ hcloses)
    · exact .stop s

theorem expect : Walks s (expect kind) :=
  token hopens hcloses _

theorem accept : Walks s (accept kind) := by
  unfold Walks Parser.accept
  split
  · next hkind =>
    obtain ⟨first, rest, hrest, hfirst⟩ := rest_of_isAt hkind
    exact advance_one hrest (hfirst ▸ hopens) (hfirst ▸ hcloses)
  · exact .stay s

end

theorem acceptWord (word : String) : Walks s (acceptWord word) := by
  unfold Walks Parser.acceptWord
  split
  · next hword =>
    obtain ⟨first, rest, hrest, hkind⟩ := rest_of_atWord hword
    exact Walks.word hrest hkind
  · exact .stay s

theorem nested (h : s.depth < maxDepth → Walks { s with depth := s.depth + 1 } p) :
    Walks s (nested p) := by
  unfold Walks Parser.nested
  split
  · exact .refuse s
  · next hdepth => exact .deeper (Nat.lt_of_not_le hdepth) (h (Nat.lt_of_not_le hdepth))

theorem optional {test : Parser Bool} (htest : Walks s test) (hp : ∀ t, Walks t p) :
    Walks s (optional test p) :=
  htest.go fun _ t => .ite (fun _ => (hp t).go fun _ _ => .pure _) fun _ => .pure _

theorem upTo {continues : State → Bool} (hp : ∀ t, continues t → Walks t p) (count : Nat) :
    Walks s (upTo continues p count) := by
  induction count generalizing s with
  | zero => exact .pure _
  | succ count ih =>
    refine .look (.ite (fun hcontinues => ?_) fun _ => .pure _)
    exact (hp s hcontinues).go fun a t => ih.go fun as u => .pure _

theorem repeatWhile {continues : State → Bool} (hp : ∀ t, continues t → Walks t p) :
    Walks s (repeatWhile continues p) :=
  upTo hp s.rest.length

theorem separated {mark : TokenKind} (hopens : ¬ mark.opens) (hcloses : ¬ mark.closes)
    (hp : ∀ t, Walks t p) : Walks s (separated mark p) := by
  refine (hp s).go fun first t => Walks.go (.repeatWhile fun u hu => ?_) fun _ _ => .pure _
  obtain ⟨token, rest, hrest, hkind⟩ := rest_of_isAt hu
  exact (advance_one hrest (hkind ▸ hopens) (hkind ▸ hcloses)).go fun _ v => hp v

end Walks

theorem expect_of_not_isAt {s : State} {kind : TokenKind} (h : ¬ s.isAt kind) :
    expect kind s = (.error (s.errorHere (.expected (.mark kind))), s) := by
  cases hrest : s.rest with
  | nil => exact expect_of_nil hrest
  | cons token rest => exact expect_of_ne hrest fun hkind => h ((isAt_iff hrest).mpr hkind)

/-- Run from the state, the parser reads up to the mark, reads the mark, and goes on, or gives
up before. -/
def Encloses (close : TokenKind) (s : State) (p : Parser α) : Prop :=
  (∃ t, Walk (.part true) s t ∧ t.isAt close ∧ Walk (.part (p s).1.isOk) (t.advance 1) (p s).2) ∨
    (p s).1.isOk = false ∧ Walk (.part false) s (p s).2

namespace Encloses

variable {α β : Type} {close : TokenKind} {s : State} {p q : Parser α} {f : α → Parser β}

theorem bind (hp : Walks s p) (hf : ∀ a t, p s = (.ok a, t) → Encloses close t (f a)) :
    Encloses close s (p >>= f) := by
  rcases hrun : p s with ⟨error | a, t⟩
  · refine .inr ?_
    rw [bind_apply_error hrun]
    exact ⟨rfl, hp.of_error hrun⟩
  · have hfirst := hp.of_ok hrun
    unfold Encloses
    rw [bind_apply_ok hrun]
    rcases hf a t hrun with ⟨u, hto, hclose, hrest⟩ | ⟨herror, hrest⟩
    · exact .inl ⟨u, hfirst.trans hto, hclose, hrest⟩
    · exact .inr ⟨herror, hfirst.trans hrest⟩

theorem look {f : State → Parser β} (h : Encloses close s (f s)) :
    Encloses close s (Parser.look >>= f) :=
  h

theorem ite {c : Prop} [Decidable c] (hp : c → Encloses close s p)
    (hq : ¬ c → Encloses close s q) : Encloses close s (if c then p else q) := by
  by_cases h : c
  · rw [if_pos h]
    exact hp h
  · rw [if_neg h]
    exact hq h

/-- The mark is read. -/
theorem of_isAt (hclose : s.isAt close) (hrun : p s = q (s.advance 1))
    (h : Walks (s.advance 1) q) : Encloses close s p := by
  refine .inl ⟨s, .stay s, hclose, ?_⟩
  rw [hrun]
  exact h

theorem expect {f : Token → Parser β} (h : ∀ token, Walks (s.advance 1) (f token)) :
    Encloses close s (Parser.expect close >>= f) := by
  by_cases hclose : s.isAt close
  · obtain ⟨token, rest, hrest, hkind⟩ := rest_of_isAt hclose
    exact .of_isAt hclose (bind_apply_ok (expect_of_eq hrest hkind)) (h token)
  · refine .inr ?_
    rw [bind_apply_error (expect_of_not_isAt hclose)]
    exact ⟨rfl, .stop s⟩

theorem accept {f : Bool → Parser β} (hfound : s.isAt close → Walks (s.advance 1) (f true))
    (hother : ¬ s.isAt close → Encloses close s (f false)) :
    Encloses close s (Parser.accept close >>= f) := by
  by_cases hclose : s.isAt close
  · exact .of_isAt hclose (bind_apply_ok (accept_of_isAt hclose)) (hfound hclose)
  · have hrun : (Parser.accept close >>= f) s = f false s :=
      bind_apply_ok (accept_of_not_isAt hclose)
    unfold Encloses
    rw [hrun]
    exact hother hclose

/-- What is run behind the mark. -/
theorem go (hp : Encloses close s p) (hf : ∀ a t, Walks t (f a)) :
    Encloses close s (p >>= f) := by
  unfold Encloses at hp ⊢
  rcases hrun : p s with ⟨error | a, t⟩ <;> rw [hrun] at hp
  · rw [bind_apply_error hrun]
    exact hp
  · rw [bind_apply_ok hrun]
    rcases hp with ⟨u, hto, hclose, hrest⟩ | ⟨herror, -⟩
    · exact .inl ⟨u, hto, hclose, .trans hrest (hf a t)⟩
    · cases herror

/-- Every comma shortens what is left, so the bound on the items is not reached. -/
theorem listUpTo [Forward p] (hp : ∀ t, Walks t p) (count : Nat)
    (hcount : s.rest.length < count) : Encloses close s (Parser.listUpTo close p count) := by
  induction count generalizing s with
  | zero => exact absurd hcount (Nat.not_lt_zero _)
  | succ count ih =>
    refine .accept (fun _ => .pure _) fun hclose => .ite nofun fun _ => ?_
    refine .bind (hp s) fun a t hread => ?_
    refine .bind (.accept (by decide) (by decide)) fun comma u hcomma => ?_
    refine .ite (fun hfound => .go (ih ?_) fun as v => .pure _) fun _ => .expect fun _ => .pure _
    have hle := (Forward.of_run hread).rest.length_le
    rw [hfound] at hcomma
    have hlt := length_lt_of_accept hcomma
    omega

theorem commaList [Forward p] (hp : ∀ t, Walks t p) :
    Encloses close s (Parser.commaList close p) :=
  listUpTo hp (s.rest.length + 1) (Nat.lt_succ_self _)

/-- A mark that is no bracket is passed over. -/
theorem walks (h : Encloses close s p) (hopens : ¬ close.opens) (hcloses : ¬ close.closes) :
    Walks s p := by
  unfold Walks
  rcases h with ⟨t, hto, hclose, hrest⟩ | ⟨herror, hto⟩
  · obtain ⟨mark, rest, hmark, hkind⟩ := rest_of_isAt hclose
    have hone : Walk (.part true) t (t.advance 1) :=
      Walks.advance_one hmark (hkind ▸ hopens) (hkind ▸ hcloses)
    exact hto.trans (hone.trans hrest)
  · rwa [herror]

end Encloses

/-- Something in brackets. -/
theorem Walks.enclosed {opening close : TokenKind} {s : State} {f : Token → Parser β}
    (hopens : opening.opens) (hmatch : opening.closer? = some close)
    (h : ∀ token, Encloses close (s.advance 1) (f token)) :
    Walks s (Parser.expect opening >>= f) := by
  by_cases hopening : s.isAt opening
  swap
  · exact .mk_error (bind_apply_error (expect_of_not_isAt hopening)) (.stop s)
  obtain ⟨token, rest, hrest, hkind⟩ := rest_of_isAt hopening
  have hrun : (Parser.expect opening >>= f) s = f token (s.advance 1) :=
    bind_apply_ok (expect_of_eq hrest hkind)
  unfold Walks
  rw [hrun]
  rcases h token with ⟨t, hinside, hclose, hbehind⟩ | ⟨herror, hinside⟩
  · exact .trans (.enclosed hrest (hkind ▸ hopens) (hkind ▸ hmatch) hinside hclose) hbehind
  · rw [herror]
    exact .unclosed hrest (hkind ▸ hopens) hinside

namespace WalksMember

variable {α : Type} {s : State}

theorem map {p : Parser α} {β : Type} (h : WalksMember s p) (g : α → β) :
    WalksMember s (g <$> p) := by
  have hmap : ((g <$> p) s).1.isOk = (p s).1.isOk ∧ ((g <$> p) s).2 = (p s).2 := by
    rw [← bind_pure_comp]
    rcases hrun : p s with ⟨error | a, t⟩
    · rw [bind_apply_error hrun]
      exact ⟨rfl, rfl⟩
    · rw [bind_apply_ok hrun]
      exact ⟨rfl, rfl⟩
  unfold WalksMember
  rw [hmap.1, hmap.2]
  exact h

theorem documented {f : List DocTag → Parser α} (h : ∀ tags t, Walks t (f tags))
    (hconsumes : ∀ tags, Consumes (f tags)) : WalksMember s (takeDocs >>= f) := by
  unfold WalksMember
  rw [bind_apply_ok (takeDocs_apply s)]
  refine .documented (h s.tags s.takeTags) fun hwhole => ?_
  rcases hrun : f s.tags s.takeTags with ⟨error | a, t⟩
  · rw [hrun] at hwhole
    cases hwhole
  · exact hconsumes s.tags s.takeTags t a hrun

theorem decorated {f : List DocTag → List DocTag → Parser α}
    (h : ∀ before behind t, Walks t (f before behind))
    (hconsumes : ∀ before behind, Consumes (f before behind)) :
    WalksMember s (do
      let before ← takeDocs
      skipDecorators
      let behind ← takeDocs
      f before behind) := by
  have hskip : skipDecorators s.takeTags = (.ok (), s.behindDecorators) := rfl
  unfold WalksMember
  rw [bind_apply_ok (takeDocs_apply s), bind_apply_ok hskip,
    bind_apply_ok (takeDocs_apply s.behindDecorators)]
  refine .decorated (h s.tags s.behindDecorators.tags s.behindDecorators.takeTags) fun hwhole => ?_
  rcases hrun : f s.tags s.behindDecorators.tags s.behindDecorators.takeTags with ⟨error | a, t⟩
  · rw [hrun] at hwhole
    cases hwhole
  · exact hconsumes s.tags s.behindDecorators.tags s.behindDecorators.takeTags t a hrun

end WalksMember

namespace WalksInside

variable {s : State} {inside : Parser (List Node)}

theorem nested (h : s.depth < maxDepth → WalksInside { s with depth := s.depth + 1 } inside) :
    WalksInside s (nested inside) := by
  unfold WalksInside Parser.nested
  split
  · exact .refuse s
  · next hdepth => exact .deeper (Nat.lt_of_not_le hdepth) (h (Nat.lt_of_not_le hdepth))

/-- Separators are no brackets. -/
theorem balances_separators {separates : TokenKind → Bool}
    (hseparates : ∀ kind, separates kind → ¬ kind.opens ∧ ¬ kind.closes) (tokens : List Token) :
    Balances (tokens.takeWhile (separates ·.kind)).length tokens := by
  refine .of_plain fun token htoken => hseparates _ ?_
  rw [← List.prefix_iff_eq_take.mp (List.takeWhile_prefix _)] at htoken
  exact List.mem_takeWhile_imp (p := fun token : Token => separates token.kind) htoken

/-- Members are read one after the other, and malformed ones are passed over. -/
theorem members {separates : TokenKind → Bool} {recovery : List Token → Nat}
    {member : Parser (Option Node)}
    (hseparates : ∀ kind, separates kind → ¬ kind.opens ∧ ¬ kind.closes)
    (hrecovery : ∀ tokens, Recovering (recovery tokens) tokens) (hrecovers : Recovers recovery)
    (hm : ∀ t, WalksMember t member) :
    WalksInside s (members separates recovery member) := by
  have hclose : ¬ separates .rBrace := fun h => (hseparates _ h).2 rfl
  have hskip : ∀ s : State, Walk (.part true) s (s.skipSeparators separates) := fun s =>
    .pass (balances_separators hseparates s.rest)
  have hupTo : ∀ count s, ∃ nodes t, membersUpTo separates recovery member count s =
      (.ok nodes, t) ∧ Walk .members s t := by
    intro count
    induction count with
    | zero => exact fun s => ⟨[], s, rfl, .ended s⟩
    | succ count ih =>
      intro s
      by_cases hend : (s.skipSeparators separates).endsMembers
      · exact ⟨[], _, membersUpTo_of_ends count hend, .separated (hskip s) (.ended _)⟩
      rcases hread : member (s.skipSeparators separates) with ⟨error | node?, t⟩
      · have hgiven := hm (s.skipSeparators separates)
        unfold WalksMember at hgiven
        rw [hread] at hgiven
        obtain ⟨nodes, u, hrun, hrest⟩ := ih (t.recover recovery error)
        refine ⟨nodes, u, (membersUpTo_of_error count hend hread).trans hrun, ?_⟩
        refine .separated (hskip s) (.recovered hgiven (hrecovery t.rest) (fun hzero => ?_) hrest)
        have hends : (t.recover recovery error).endsMembers := by
          rw [endsMembers_iff, State.recover, hzero, State.advance_zero]
          exact hrecovers _ hzero
        rw [membersUpTo_of_endsMembers hclose hends] at hrun
        cases hrun
        rw [State.recover, hzero, State.advance_zero]
      · have hwhole := hm (s.skipSeparators separates)
        unfold WalksMember at hwhole
        rw [hread] at hwhole
        obtain ⟨nodes, u, hrun, hrest⟩ := ih t
        refine ⟨node?.toList ++ nodes, u, ?_,
          .separated (hskip s) (.read hwhole (fun hends => ?_) hrest)⟩
        · rw [membersUpTo_of_ok count hend hread]
          exact bind_apply_ok hrun
        · rw [membersUpTo_of_endsMembers hclose hends] at hrun
          cases hrun
          rfl
  obtain ⟨nodes, t, hrun, hwalk⟩ := hupTo s.rest.length s
  unfold WalksInside Parser.members
  rw [hrun]
  exact hwalk

end WalksInside

/-- Members or statements in braces. -/
theorem Walks.braced {s : State} {inside : Parser (List Node)} {f : List Node → Parser β}
    (hinside : ∀ t, WalksInside t inside) (hf : ∀ nodes t, Walks t (f nodes)) :
    Walks s (braced inside >>= f) := by
  refine Walks.go ?_ hf
  by_cases hopening : s.isAt .lBrace
  swap
  · exact .mk_error (bind_apply_error (expect_of_not_isAt hopening)) (.stop s)
  obtain ⟨opening, rest, hrest, hkind⟩ := rest_of_isAt hopening
  have hopen : Parser.expect .lBrace s = (.ok opening, s.advance 1) := expect_of_eq hrest hkind
  have hwalk := hinside (s.advance 1)
  unfold WalksInside at hwalk
  rcases hrun : inside (s.advance 1) with ⟨error | nodes, t⟩ <;> rw [hrun] at hwalk
  · have hopens : opening.kind.opens := by rw [hkind]; rfl
    exact .mk_error ((bind_apply_ok hopen).trans (bind_apply_error hrun))
      (.unclosed hrest hopens hwalk)
  have hbraced : Parser.braced inside s = (Parser.expect .rBrace >>= fun _ => Pure.pure nodes) t :=
    (bind_apply_ok hopen).trans (bind_apply_ok hrun)
  by_cases hclose : t.isAt .rBrace
  · obtain ⟨closing, behind, hclosing, hlast⟩ := rest_of_isAt hclose
    exact .mk_ok (hbraced.trans (bind_apply_ok (expect_of_eq hclosing hlast)))
      (.braced hrest hkind hwalk hclose)
  · exact .mk_error (hbraced.trans (bind_apply_error (expect_of_not_isAt hclose)))
      (.unbraced hrest hkind hwalk)

end Parser

end DeclSchema
