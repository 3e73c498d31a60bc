import DeclSchema.Proofs.Parser.Bodies
import DeclSchema.Proofs.Parser.Height
import Mathlib.Data.List.TakeWhile

/-!
# Staying inside of braces

A parser that is run inside a pair of braces stays inside of them, whether it succeeds or
fails, and its caller does when it recovers. The one exception is a level of nesting that is
refused behind an opening brace, where the parser has stepped into a pair of braces and gives
up there: from then on reading may be `Astray`. `Stays` says of a run that it stays inside or
goes astray, and that what it gives satisfies a predicate. The rules below derive it for a
composed parser from its parts.
-/

namespace DeclSchema

open TokenKind

namespace Parser

/-- The error is about a level of nesting that was refused directly behind an opening
brace. -/
def RefusedBehindBrace (source : String) (error : ParseError) : Prop :=
  error.fault = .nestingTooDeep ∧ ∃ before opening next behind,
    (TokenStream.ofSource source).tokens = before ++ opening :: next :: behind ∧
      opening.kind = .lBrace ∧ error.span = next.span

theorem exists_adjacent_iff {P : Token → Token → Prop} {tokens : List Token} :
    (∃ before first second behind, tokens = before ++ first :: second :: behind ∧
      P first second) ↔ ∃ pair ∈ tokens.zip tokens.tail, P pair.1 pair.2 := by
  induction tokens with
  | nil => simp
  | cons token rest ih =>
    constructor
    · rintro ⟨_ | ⟨head, before⟩, first, second, behind, htokens, hP⟩
      · obtain ⟨rfl, rfl⟩ := List.cons.inj htokens
        exact ⟨(token, second), List.mem_cons_self, hP⟩
      · obtain ⟨rfl, rfl⟩ := List.cons.inj htokens
        obtain ⟨pair, hpair, hP⟩ := ih.mp ⟨before, first, second, behind, rfl, hP⟩
        refine ⟨pair, ?_, hP⟩
        cases before <;> exact List.mem_cons_of_mem _ hpair
    · rintro ⟨pair, hpair, hP⟩
      cases rest with
      | nil => cases hpair
      | cons next rest =>
        rcases List.mem_cons.mp hpair with rfl | hpair
        · exact ⟨[], token, next, rest, rfl, hP⟩
        · obtain ⟨before, first, second, behind, hrest, hP⟩ := ih.mpr ⟨pair, hpair, hP⟩
          exact ⟨token :: before, first, second, behind, by rw [hrest]; rfl, hP⟩

theorem refusedBehindBrace_iff {source : String} {error : ParseError} :
    RefusedBehindBrace source error ↔ error.fault = .nestingTooDeep ∧
      ∃ pair ∈ (TokenStream.ofSource source).tokens.zip (TokenStream.ofSource source).tokens.tail,
        pair.1.kind = .lBrace ∧ error.span = pair.2.span :=
  and_congr_right fun _ =>
    exists_adjacent_iff (P := fun opening next => opening.kind = .lBrace ∧ error.span = next.span)

instance (source : String) (error : ParseError) : Decidable (RefusedBehindBrace source error) :=
  decidable_of_iff _ refusedBehindBrace_iff.symm

/-- A level of nesting was refused behind an opening brace. No error is kept of a return type,
so that any refusal counts in a source that states one. -/
def State.Astray (source : String) (s : State) : Prop :=
  StatesReturnType source ∧ .refused ∈ s.journal ∨
    ¬ StatesReturnType source ∧ ∃ error ∈ s.errors, RefusedBehindBrace source error

/-- A state that refuses a level behind an opening brace goes astray. -/
theorem State.Astray.of_refused {source : String} {s : State} {before after : List Token}
    {opening next : Token}
    (htokens : (TokenStream.ofSource source).tokens = before ++ opening :: s.rest)
    (hopen : opening.kind = .lBrace) (hrest : s.rest = next :: after) :
    ((s.note .refused).record ((s.note .refused).errorHere .nestingTooDeep)).Astray source := by
  by_cases hreturn : StatesReturnType source
  · exact .inl ⟨hreturn, List.mem_append_right _ (List.mem_singleton_self _)⟩
  · refine .inr ⟨hreturn, _, List.mem_append_right _ (List.mem_singleton_self _), ?_, before,
      opening, next, after, hrest ▸ htokens, hopen, ?_⟩
    · unfold State.errorHere
      split <;> rfl
    · have hrest' : (s.note .refused).rest = next :: after := hrest
      rw [State.errorHere, hrest']

theorem State.Astray.of_leadsTo {source : String} {s t : State} (h : s.Astray source)
    (hto : s.LeadsTo t) : t.Astray source :=
  h.imp (And.imp_right (hto.journal.subset ·))
    (And.imp_right fun ⟨error, hmem, herror⟩ => ⟨error, hto.errors.subset hmem, herror⟩)

/-- What is read from a brace up to and with the one that belongs to it. -/
theorem endsAtBrace_inner {source : String} {s u : State} {opening closing : Token}
    {behind : List Token} (hs : s.StandsIn source)
    (hsurrounds : Surrounds opening closing s.rest behind) (hrest : u.rest = closing :: behind)
    {kind : NodeKind} (hkind : kind ≠ .interfaceDeclaration) (children : List Node) :
    EndsAtBrace source (Node.inner kind s.start (u.advance 1).prevEnd children) := by
  obtain ⟨before, hbefore⟩ := hs.exists_append
  refine ⟨before, s.rest, opening, closing, behind, hbefore, hsurrounds, ?_, ?_⟩
  · obtain ⟨inside, hopening, -⟩ := hsurrounds
    refine (opensBody_of_ne hkind).mpr ?_
    show s.start = _
    rw [State.start, hopening]
  · rw [State.advance_one hrest]
    exact hs.ordered.stop_ofBounds hsurrounds.mem

/-- The state stands in the source inside of braces that are closed by the brace that the
tail begins with, and no brace was called stray. -/
structure Enclosed (source : String) (tail : List Token) (s : State) : Prop where
  stands : s.StandsIn source
  inside : Inside tail s.rest
  noStray : ∀ error ∈ s.errors, error.fault ≠ .strayBrace

/-- How a run may end that stays inside of braces. A failing run is seen from where its error
is recorded. -/
def Outcome (source : String) (tail : List Token) (Q : α → Prop) :
    Except ParseError α × State → Prop
  | (.ok a, t) => t.Astray source ∨ Enclosed source tail t ∧ Q a
  | (.error error, t) => (t.record error).Astray source ∨ Enclosed source tail (t.record error)

/-- Run from the state, the parser stays inside of any braces that the state is in, and what
it gives satisfies `Q`, unless reading goes astray. -/
def Stays (source : String) (s : State) (p : Parser α) (Q : α → Prop) : Prop :=
  ∀ tail, Closing tail → Enclosed source tail s → Outcome source tail Q (p s)

/-- What stands in braces is read up to a closing brace or the end, unless a level of nesting
is refused before anything of it is read. -/
def ReadsInside (inside : Parser (List Node)) : Prop :=
  ∀ s, (∃ nodes t, inside s = (.ok nodes, t) ∧ t.endsMembers) ∨ inside s = refuse s

theorem members_reads {separates : TokenKind → Bool} {recovery : List Token → Nat}
    {member : Parser (Option Node)} [Forward member] (hclose : ¬ separates .rBrace)
    (hrecovers : Recovers recovery) (hconsumes : ConsumesMember member) (s : State) :
    ∃ nodes t, members separates recovery member s = (.ok nodes, t) ∧ t.endsMembers :=
  membersUpTo_ends member hclose hrecovers hconsumes s.rest.length s (Nat.le_refl _)

theorem ReadsInside.nested {inside : Parser (List Node)}
    (h : ∀ s, ∃ nodes t, inside s = (.ok nodes, t) ∧ t.endsMembers) :
    ReadsInside (nested inside) := by
  intro s
  unfold Parser.nested
  split
  · exact .inr rfl
  · obtain ⟨nodes, t, hrun, hends⟩ := h { s with depth := s.depth + 1 }
    rw [hrun]
    exact .inl ⟨nodes, _, rfl, hends⟩

section

variable {source : String} {tail : List Token} {s t : State}

theorem Enclosed.congr (h : Enclosed source tail s) (hrest : t.rest = s.rest)
    (hprevEnd : t.prevEnd = s.prevEnd) (hlength : t.length = s.length)
    (herrors : t.errors ⊆ s.errors) : Enclosed source tail t where
  stands := h.stands.congr hrest hprevEnd hlength
  inside := hrest ▸ h.inside
  noStray error hmem := h.noStray error (herrors hmem)

theorem Enclosed.advance (h : Enclosed source tail s) {count : Nat} {tail' : List Token}
    (hinside : Inside tail' (s.rest.drop count)) : Enclosed source tail' (s.advance count) where
  stands := h.stands.advance count
  inside := hinside
  noStray := h.noStray

theorem Enclosed.record (h : Enclosed source tail s) {error : ParseError}
    (herror : error.fault ≠ .strayBrace) : Enclosed source tail (s.record error) where
  stands := h.stands.congr rfl rfl rfl
  inside := h.inside
  noStray other hmem := by
    rcases List.mem_append.mp hmem with hmem | hmem
    · exact h.noStray other hmem
    · rwa [List.mem_singleton.mp hmem]

theorem Enclosed.advance_one (h : Enclosed source tail s) (htail : Closing tail) {first : Token}
    {rest : List Token} (hrest : s.rest = first :: rest) (hopen : first.kind ≠ .lBrace)
    (hclose : first.kind ≠ .rBrace) : Enclosed source tail (s.advance 1) :=
  h.advance (h.inside.drop htail 1 (by simp [hrest, hopen, hclose]))

theorem fault_errorHere (s : State) (fault : Fault) : (s.errorHere fault).fault = fault := by
  unfold State.errorHere
  split <;> rfl

theorem Enclosed.failed (h : Enclosed source tail s) {fault : Fault}
    (hfault : fault ≠ .strayBrace) : Enclosed source tail (s.record (s.errorHere fault)) :=
  h.record (by rwa [fault_errorHere])

theorem Outcome.of_astray {Q : α → Prop} {result : Except ParseError α × State}
    (h : s.Astray source) (hto : s.LeadsTo result.2) : Outcome source tail Q result := by
  rcases result with ⟨error | a, t⟩
  · exact .inl (h.of_leadsTo (hto.trans (.record t error)))
  · exact .inl (h.of_leadsTo hto)

end

namespace Stays

variable {α β : Type} {source : String} {s : State} {p q : Parser α} {f : α → Parser β}
  {P : α → Prop} {Q : β → Prop}

theorem of_run (h : Stays source s p P) {tail : List Token} (htail : Closing tail)
    (hs : Enclosed source tail s) {result : Except ParseError α × State} (hrun : p s = result) :
    Outcome source tail P result :=
  hrun ▸ h tail htail hs

theorem pure {a : α} (h : P a) : Stays source s (pure a) P :=
  fun _ _ hs => .inr ⟨hs, h⟩

theorem bind [∀ a, Forward (f a)] (hp : Stays source s p P)
    (hf : ∀ a t, p s = (.ok a, t) → P a → Stays source t (f a) Q) :
    Stays source s (p >>= f) Q := by
  intro tail htail hs
  rcases hrun : p s with ⟨error | a, t⟩
  · rw [bind_apply_error hrun]
    exact hp.of_run htail hs hrun
  · rw [bind_apply_ok hrun]
    rcases hp.of_run htail hs hrun with hastray | ⟨ht, ha⟩
    · exact .of_astray hastray (Forward.leadsTo t)
    · exact hf a t hrun ha tail htail ht

/-- As `bind`, where the run does not matter to what follows. -/
theorem go [∀ a, Forward (f a)] (hp : Stays source s p P)
    (hf : ∀ a t, P a → Stays source t (f a) Q) : Stays source s (p >>= f) Q :=
  hp.bind fun a t _ ha => hf a t ha

/-- The state may be taken to stand in the source. -/
theorem standing (h : s.StandsIn source → Stays source s p P) : Stays source s p P :=
  fun tail htail hs => h hs.stands tail htail hs

theorem look {f : State → Parser β} (h : Stays source s (f s) Q) :
    Stays source s (Parser.look >>= f) Q :=
  h

theorem ite {c : Prop} [Decidable c] (hp : c → Stays source s p P)
    (hq : ¬ c → Stays source s q P) : Stays source s (if c then p else q) P := by
  by_cases h : c
  · rw [if_pos h]
    exact hp h
  · rw [if_neg h]
    exact hq h

/-- A step that is taken only under a condition, with what comes behind it. -/
theorem when {c : Prop} [Decidable c] {p : Parser Unit} {f : Unit → Parser β}
    [∀ u, Forward (f u)] (hp : c → Stays source s p fun _ => True)
    (hf : ∀ t, Stays source t (f ()) Q) :
    Stays source s (if c then p >>= f else f ()) Q :=
  .ite (fun h => (hp h).go fun _ t _ => hf t) fun _ => hf s

/-- One of two steps, with what comes behind it in both cases. -/
theorem either {c : Prop} [Decidable c] [∀ a, Forward (f a)] (hp : c → Stays source s p P)
    (hq : ¬ c → Stays source s q P) (hf : ∀ a t, P a → Stays source t (f a) Q) :
    Stays source s (if c then p >>= f else q >>= f) Q :=
  .ite (fun h => (hp h).go hf) fun h => (hq h).go hf

theorem map {g : α → β} (hp : Stays source s p P) (hg : ∀ a, P a → Q (g a)) :
    Stays source s (g <$> p) Q :=
  hp.go (f := fun a => Pure.pure (g a)) fun a _ ha => .pure (hg a ha)

theorem fail {fault : Fault} (h : fault ≠ .strayBrace) :
    Stays source s (fail fault : Parser α) P :=
  fun _ _ hs => .inr (hs.failed h)

theorem refuse : Stays source s (refuse : Parser α) P :=
  fun _ _ hs => .inr ((hs.congr rfl rfl rfl (List.Subset.refl _) :
    Enclosed source _ (s.note .refused)).failed (by decide))

theorem advance {count : Nat}
    (h : ∀ tail, Closing tail → Inside tail s.rest → Inside tail (s.rest.drop count)) :
    Stays source s (advance count) fun _ => True :=
  fun tail htail hs => .inr ⟨hs.advance (h tail htail hs.inside), trivial⟩

theorem advance_one {first : Token} {rest : List Token} (hrest : s.rest = first :: rest)
    (hopen : first.kind ≠ .lBrace) (hclose : first.kind ≠ .rBrace) :
    Stays source s (Parser.advance 1) fun _ => True :=
  fun _ htail hs => .inr ⟨hs.advance_one htail hrest hopen hclose, trivial⟩

theorem takeDocs : Stays source s takeDocs fun _ => True := by
  intro tail _ hs
  unfold Parser.takeDocs
  cases s.docs.lookup s.start with
  | none => exact .inr ⟨hs, trivial⟩
  | some tags => exact .inr ⟨hs.congr rfl rfl rfl (List.Subset.refl _), trivial⟩

theorem note {event : Event} : Stays source s (note event) fun _ => True :=
  fun _ _ hs => .inr ⟨hs.congr rfl rfl rfl (List.Subset.refl _), trivial⟩

section

variable {kind : TokenKind} (hopen : kind ≠ .lBrace) (hclose : kind ≠ .rBrace)

include hopen hclose

theorem token (what : Wanted) : Stays source s (token kind what) fun _ => True := by
  intro tail htail hs
  unfold Parser.token
  cases hrest : s.rest with
  | nil => exact .inr (hs.failed nofun)
  | cons first rest =>
    dsimp only
    by_cases hkind : first.kind = kind
    · rw [if_pos hkind]
      exact .inr ⟨hs.advance_one htail hrest (hkind ▸ hopen) (hkind ▸ hclose), trivial⟩
    · rw [if_neg hkind]
      exact .inr (hs.failed nofun)

theorem expect : Stays source s (expect kind) fun _ => True :=
  token hopen hclose _

theorem accept : Stays source s (accept kind) fun found => found → s.isAt kind := by
  intro tail htail hs
  unfold Parser.accept
  by_cases hkind : s.isAt kind
  · obtain ⟨first, rest, hrest, hfirst⟩ := rest_of_isAt hkind
    rw [if_pos hkind]
    exact .inr ⟨hs.advance_one htail hrest (hfirst ▸ hopen) (hfirst ▸ hclose), fun _ => hkind⟩
  · rw [if_neg hkind]
    exact .inr ⟨hs, fun hfound => absurd hfound Bool.false_ne_true⟩

end

theorem acceptWord (word : String) : Stays source s (acceptWord word) fun _ => True := by
  intro tail htail hs
  unfold Parser.acceptWord
  by_cases hword : s.atWord word
  · obtain ⟨first, rest, hrest, hkind⟩ := rest_of_atWord hword
    rw [if_pos hword]
    exact .inr ⟨hs.advance_one htail hrest (by simp [hkind]) (by simp [hkind]), trivial⟩
  · rw [if_neg hword]
    exact .inr ⟨hs, trivial⟩

theorem nested (h : Stays source { s with depth := s.depth + 1 } p P) :
    Stays source s (nested p) P := by
  intro tail htail hs
  unfold Parser.nested
  split
  · exact Stays.refuse tail htail hs
  · have hrun := h tail htail (hs.congr rfl rfl rfl (List.Subset.refl _))
    rcases hp : p { s with depth := s.depth + 1 } with ⟨error | a, t⟩ <;> rw [hp] at hrun
    · exact hrun.imp id (·.congr rfl rfl rfl (List.Subset.refl _))
    · exact hrun.imp id (And.imp_left (·.congr rfl rfl rfl (List.Subset.refl _)))

theorem optional {test : Parser Bool} {T : Bool → Prop} [Forward p]
    (htest : Stays source s test T) (hp : ∀ t, Stays source t p P) :
    Stays source s (optional test p) fun as => ∀ a ∈ as, P a := by
  refine htest.go fun _ t _ => .ite (fun _ => (hp t).go fun a _ ha => .pure ?_) fun _ => .pure ?_
  · simpa using ha
  · simp

theorem upTo {continues : State → Bool} [Forward p]
    (hp : ∀ t, continues t → Stays source t p P) (count : Nat) :
    Stays source s (upTo continues p count) fun as => ∀ a ∈ as, P a := by
  induction count generalizing s with
  | zero => exact .pure (by simp)
  | succ count ih =>
    refine .look (.ite (fun hcontinues => ?_) fun _ => .pure (by simp))
    refine (hp s hcontinues).go fun a t ha => ih.go fun as u has => .pure ?_
    simpa [ha] using has

theorem repeatWhile {continues : State → Bool} [Forward p]
    (hp : ∀ t, continues t → Stays source t p P) :
    Stays source s (repeatWhile continues p) fun as => ∀ a ∈ as, P a :=
  upTo hp s.rest.length

section

variable {mark : TokenKind} [Forward p] (hopen : mark ≠ .lBrace) (hclose : mark ≠ .rBrace)
  (hp : ∀ t, Stays source t p P)

include hopen hclose hp

theorem separated : Stays source s (separated mark p) fun as => ∀ a ∈ as, P a := by
  refine (hp s).go fun first t hfirst => ?_
  refine go (P := fun as => ∀ a ∈ as, P a) (.repeatWhile fun u hu => ?_)
    fun others u hothers => .pure ?_
  · obtain ⟨token, rest, hrest, hkind⟩ := rest_of_isAt hu
    exact (advance_one hrest (hkind ▸ hopen) (hkind ▸ hclose)).go fun _ v _ => hp v
  · simpa [hfirst] using hothers

theorem listUpTo (count : Nat) :
    Stays source s (listUpTo mark p count) fun as => ∀ a ∈ as, P a := by
  induction count generalizing s with
  | zero => exact .pure (by simp)
  | succ count ih =>
    refine (accept hopen hclose).go fun _ t _ => .ite (fun _ => .pure (by simp)) fun _ => ?_
    refine (hp t).go fun a u ha => (accept (by decide) (by decide)).go fun _ v _ => ?_
    refine .ite (fun _ => ih.go fun as w has => .pure ?_) fun _ => ?_
    · simpa [ha] using has
    · exact (expect hopen hclose).go fun _ w _ => .pure (by simpa using ha)

theorem commaList : Stays source s (commaList mark p) fun as => ∀ a ∈ as, P a :=
  listUpTo hopen hclose hp (s.rest.length + 1)

end

/-- Members are read up to the brace that closes their list. -/
theorem members {separates : TokenKind → Bool} {recovery : List Token → Nat}
    {member : Parser (Option Node)} [Forward member] {P : Node → Prop}
    (hopen : ¬ separates .lBrace) (hclose : ¬ separates .rBrace)
    (hrecovery : ∀ tail tokens, Closing tail → Inside tail tokens →
      Inside tail (tokens.drop (recovery tokens)))
    (hm : ∀ t, Stays source t member fun node? => ∀ node ∈ node?, P node) :
    Stays source s (members separates recovery member) fun nodes => ∀ node ∈ nodes, P node := by
  intro tail htail hs
  have hskip : ∀ s, Enclosed source tail s → Enclosed source tail (s.skipSeparators separates) := by
    refine fun s hs => hs.advance (hs.inside.drop htail _ fun token htoken => ?_)
    rw [← List.prefix_iff_eq_take.mp (List.takeWhile_prefix _)] at htoken
    have hsep : separates token.kind :=
      List.mem_takeWhile_imp (p := fun token : Token => separates token.kind) htoken
    exact ⟨fun hkind => hopen (hkind ▸ hsep), fun hkind => hclose (hkind ▸ hsep)⟩
  have hlead : ∀ (s t : State) result, member (s.skipSeparators separates) = (result, t) →
      s.Astray source → t.Astray source := by
    intro s t result hread hastray
    have hmember := Forward.of_run hread
    exact hastray.of_leadsTo (.trans (.advance s _) hmember)
  have hrecover : ∀ (t : State) error, Enclosed source tail (t.record error) →
      Enclosed source tail (t.recover recovery error) := fun t error ht =>
    ht.advance (hrecovery tail t.rest htail ht.inside)
  obtain ⟨nodes, t, hrun, hmotive⟩ := membersUpTo_induction separates recovery member
    (motive := fun s nodes t => (s.Astray source → t.Astray source) ∧
      (Enclosed source tail s →
        t.Astray source ∨ Enclosed source tail t ∧ ∀ node ∈ nodes, P node))
    (fun s => ⟨id, fun hs => .inr ⟨hs, by simp⟩⟩)
    (fun s _ => ⟨(·.of_leadsTo (.advance s _)), fun hs => .inr ⟨hskip s hs, by simp⟩⟩)
    (by
      intro s node? t nodes u _ hread ih
      refine ⟨fun hs => ih.1 (hlead s t _ hread hs), fun hs => ?_⟩
      rcases (hm _).of_run htail (hskip s hs) hread with hastray | ⟨ht, hnode⟩
      · exact .inl (ih.1 hastray)
      · refine (ih.2 ht).imp_right (And.imp_right fun hnodes => ?_)
        exact List.forall_mem_append.mpr ⟨by simpa using hnode, hnodes⟩)
    (by
      intro s error t nodes u _ hread ih
      refine ⟨fun hs => ih.1 ((hlead s t _ hread hs).of_leadsTo (leadsTo_recover _ t error)),
        fun hs => ?_⟩
      rcases (hm _).of_run htail (hskip s hs) hread with hastray | ht
      · exact .inl (ih.1 (hastray.of_leadsTo (.advance _ _)))
      · exact ih.2 (hrecover t error ht))
    s.rest.length s
  rw [Parser.members, hrun]
  exact hmotive.2 hs

/-- Behind the brace that closes what is read reading goes on where it was before the one
that opens it. -/
theorem braced {inside : Parser (List Node)} {f : List Node → Parser β} [Forward inside]
    [∀ nodes, Forward (f nodes)] {P : List Node → Prop} (hinside : ∀ t, Stays source t inside P)
    (hreads : ReadsInside inside)
    (hf : ∀ nodes (u : State) opening closing behind, Surrounds opening closing s.rest behind →
      u.rest = closing :: behind → P nodes → Stays source (u.advance 1) (f nodes) Q) :
    Stays source s (braced inside >>= f) Q := by
  intro tail htail hs
  rw [show Parser.braced inside >>= f = Parser.expect .lBrace >>= fun _ => inside >>= fun nodes =>
    Parser.expect .rBrace >>= fun _ => f nodes by simp only [Parser.braced, bind_assoc, pure_bind]]
  cases hrest : s.rest with
  | nil =>
    rw [bind_apply_error (expect_of_nil hrest)]
    exact .inr (hs.failed nofun)
  | cons opening rest =>
    by_cases hopen : opening.kind = .lBrace
    swap
    · rw [bind_apply_error (expect_of_ne hrest hopen)]
      exact .inr (hs.failed nofun)
    rw [bind_apply_ok (expect_of_eq hrest hopen)]
    obtain ⟨between, closing, behind, hbetween, hnests, hclosing, hbehind⟩ :=
      (hrest ▸ hs.inside).exists_closing htail hopen
    have hsurrounds : Surrounds opening closing s.rest behind :=
      ⟨between, by rw [hrest, hbetween], hopen, hclosing, hnests⟩
    have htail' : Closing (closing :: behind) := by simpa [Closing] using hclosing
    have ht : Enclosed source (closing :: behind) (s.advance 1) := by
      refine hs.advance ?_
      rw [hrest, hbetween]
      exact .of_nests hnests _
    rcases hreads (s.advance 1) with ⟨nodes, u, hrun, hends⟩ | hrefused
    · rw [bind_apply_ok hrun]
      rcases (hinside _).of_run htail' ht hrun with hastray | ⟨hu, hnodes⟩
      · exact .of_astray hastray (Forward.leadsTo u)
      have hrest' : u.rest = closing :: behind := hu.inside.eq_tail (endsMembers_iff.mp hends)
      rw [bind_apply_ok (expect_of_eq hrest' hclosing)]
      refine hf nodes u opening closing behind ?_ hrest' hnodes tail htail (hu.advance ?_)
      · exact hrest ▸ hsurrounds
      · rw [hrest']
        exact hbehind
    · -- Nothing behind the brace is read, and the brace is not given back.
      obtain ⟨next, after, hnext⟩ := List.exists_cons_of_ne_nil
        (show between ++ closing :: behind ≠ [] by simp)
      have hrest' : (s.advance 1).rest = next :: after := by
        rw [State.rest_advance, hrest, hbetween, hnext]
        rfl
      obtain ⟨before, hbefore⟩ := hs.stands.exists_append
      rw [bind_apply_error hrefused]
      have htokens : (TokenStream.ofSource source).tokens =
          before ++ opening :: (s.advance 1).rest := by
        rw [hbefore, State.rest_advance, hrest]
        rfl
      exact .inl (.of_refused htokens hopen hrest')

end Stays

end Parser

end DeclSchema
