import DeclSchema.Proofs.Parser.Context

/-!
# Types and members are read alike in any context

The parsers of types and members are carried by every context: read in a larger source
they do what they do by themselves. Braces need care, as reading one changes the level of
the seal; they are read in pairs, around lists of members that end before a brace.
-/

namespace DeclSchema.Parser

section

variable {c : Context} {level : Nat}

/-- A measure that needs no particular token ahead. -/
def anyKind : TokenKind → Prop :=
  fun _ => True

theorem local_skipSeparators {separates : TokenKind → Bool} (hopen : ¬ separates .lBrace)
    (hclose : ¬ separates .rBrace) :
    Local c (fun tokens => (tokens.takeWhile (separates ·.kind)).length) level anyKind where
  shift offset tokens := by
    induction tokens with
    | nil => rfl
    | cons token rest ih =>
      rw [shift_cons, List.takeWhile_cons, List.takeWhile_cons, kind_shift]
      split
      · rw [List.length_cons, List.length_cons, ih]
      · rfl
  measures _ tokens _ h := by
    induction tokens with
    | nil => exact absurd rfl h.ne_nil
    | cons token rest ih =>
      by_cases hsep : separates token.kind
      · have hrest := h.of_cons (fun hkind => hopen (hkind ▸ hsep))
          (fun hkind => hclose (hkind ▸ hsep))
        refine .succ (ih (fun _ _ => trivial) hrest) fun tail => ?_
        rw [List.takeWhile_cons, if_pos hsep, List.length_cons, Nat.add_comm]
      · refine .zero h fun tail => ?_
        rw [List.cons_append, List.takeWhile_cons, if_neg hsep]
        rfl
  stays _ _ tail _ := takeWhile_append_of_lt separates tail

theorem local_groupLength : Local c (groupLength 0) level (·.opens) where
  shift offset := groupLength_shift offset 0
  measures _ tokens hfirst h := by
    cases tokens with
    | nil => exact absurd rfl h.ne_nil
    | cons token rest => exact measures_group h (hfirst token rfl)
  stays _ _ tail _ := groupLength_append_of_lt tail

theorem local_malformedLength : Local c (malformedLength 0) level anyKind where
  shift offset := malformedLength_shift offset 0
  measures _ tokens _ h := by
    obtain ⟨awaited, hsealed, hlevel⟩ := h
    exact measures_malformedLength hsealed (covers_zero.mpr hlevel)
  stays _ _ tail _ := malformedLength_append_of_lt tail

theorem local_initializerLength (ends : TokenKind → Bool) :
    Local c (initializerLength ends true 0) level anyKind where
  shift offset := initializerLength_shift offset ends true 0
  measures _ tokens _ h := by
    obtain ⟨awaited, hsealed, hlevel⟩ := h
    exact measures_initializerLength ends true hsealed (covers_zero.mpr hlevel)
  stays _ _ tail _ := initializerLength_append_of_lt ends tail

theorem local_returnTypeLength (withBody : Bool) :
    Local c (returnTypeLength withBody true 0) level anyKind where
  shift offset := returnTypeLength_shift offset withBody true 0
  measures _ tokens _ h := by
    obtain ⟨awaited, hsealed, hlevel⟩ := h
    exact measures_returnTypeLength withBody true hsealed (covers_zero.mpr hlevel)
  stays _ _ tail _ := returnTypeLength_append_of_lt tail

theorem local_decoratorsLength : Local c decoratorsLength level anyKind where
  shift := decoratorsLength_shift
  measures _ _ _ h := measures_decoratorsLength h
  stays _ _ tail _ := decoratorsLength_append_of_lt tail

theorem local_readonlyLength : Local c readonlyLength level anyKind where
  shift := readonlyLength_shift
  measures _ _ _ h := measures_readonlyLength h
  stays _ _ _ h _ := readonlyLength_append h

end

section

variable {separates : TokenKind → Bool} {recovery : List Token → Nat}
  {member member' : Parser (Option Node)} {s : State}

theorem recovers_malformedLength : Recovers (malformedLength 0) := by
  intro tokens h
  cases tokens with
  | nil => simp
  | cons token rest =>
    intro first hfirst
    cases hfirst
    unfold malformedLength at h
    grind

/-- Behind a malformed member fewer tokens are left, or the members end. -/
theorem length_recover_lt_or_ends (hrecovers : Recovers recovery) (error : ParseError) :
    (s.recover recovery error).rest.length < s.rest.length ∨
      (s.recover recovery error).endsMembers := by
  by_cases hzero : recovery s.rest = 0
  · refine .inr (endsMembers_iff.mpr ?_)
    have hrest : (s.recover recovery error).rest = s.rest := by
      show s.rest.drop (recovery s.rest) = s.rest
      rw [hzero, List.drop_zero]
    rw [hrest]
    exact hrecovers _ hzero
  · by_cases hrest : s.rest = []
    · refine .inr (endsMembers_iff.mpr ?_)
      have hnil : (s.recover recovery error).rest = [] := by
        show s.rest.drop _ = []
        rw [hrest, List.drop_nil]
      simp [hnil]
    · exact .inl (length_advance_lt (Nat.pos_of_ne_zero hzero) hrest)

theorem length_skipSeparators_le (separates : TokenKind → Bool) (s : State) :
    (s.skipSeparators separates).rest.length ≤ s.rest.length := by
  rw [State.skipSeparators, State.rest_advance, List.length_drop]
  exact Nat.sub_le _ _

end

section

variable {c : Context} {level : Nat} {separates : TokenKind → Bool}
  {recovery : List Token → Nat} {member : Parser (Option Node)}

theorem Fits.advance_measured {measure : List Token → Nat} {s : State} (h : Fits c level s)
    (hlocal : Local c measure level anyKind) (hcalm : c.Calm (s.advance (measure s.rest))) :
    (c.embed s).advance (measure (c.embed s).rest) = c.embed (s.advance (measure s.rest)) ∧
      Fits c level (s.advance (measure s.rest)) := by
  have hfirst : ∀ token ∈ s.rest.head?, anyKind token.kind := fun _ _ => trivial
  have hsealed := Fits.sealedAt_drop (s := s) hlocal hfirst
  rw [h.measure_eq hlocal hfirst hcalm]
  exact ⟨h.embed_advance hsealed hcalm, h.advance hsealed hcalm⟩

theorem Fits.skipSeparators {s : State} (h : Fits c level s) (hopen : ¬ separates .lBrace)
    (hclose : ¬ separates .rBrace) (hcalm : c.Calm (s.skipSeparators separates)) :
    (c.embed s).skipSeparators separates = c.embed (s.skipSeparators separates) ∧
      Fits c level (s.skipSeparators separates) :=
  h.advance_measured (local_skipSeparators hopen hclose) hcalm

theorem Fits.record {s : State} (h : Fits c level s) (error : ParseError) :
    Fits c level (s.record error) :=
  ⟨h.before, h.after, h.stretch⟩

theorem Fits.recover {s : State} (h : Fits c level s) (hlocal : Local c recovery level anyKind)
    (error : ParseError) (hcalm : c.Calm (s.recover recovery error)) :
    (c.embed s).recover recovery (shift c.offset error) = c.embed (s.recover recovery error) ∧
      Fits c level (s.recover recovery error) := by
  have hrecord := (h.record error).advance_measured hlocal hcalm
  rw [c.embed_record] at hrecord
  exact hrecord

theorem leadsTo_recover (recovery : List Token → Nat) (t : State) (error : ParseError) :
    t.LeadsTo (t.recover recovery error) :=
  (State.LeadsTo.record t error).trans (.advance _ _)

theorem leadsTo_skipSeparators (member : Parser (Option Node)) [Forward member] (count : Nat)
    (s : State) :
    (s.skipSeparators separates).LeadsTo
      (membersUpTo separates recovery member (count + 1) s).2 := by
  by_cases hends : (s.skipSeparators separates).endsMembers
  · rw [membersUpTo_of_ends count hends]
    exact .refl _
  have hmember := Forward.leadsTo (p := member) (s.skipSeparators separates)
  rcases hrun : member (s.skipSeparators separates) with ⟨error | node?, t⟩ <;> rw [hrun] at hmember
  · rw [membersUpTo_of_error count hends hrun]
    exact (hmember.trans (leadsTo_recover recovery t error)).trans (Forward.leadsTo _)
  · rw [membersUpTo_of_ok count hends hrun]
    exact hmember.trans (Forward.leadsTo t)

/-- The bound on the number of members is not reached either: each round that does not end
the list reads a token. -/
theorem Agrees.membersUpTo [Forward member] (hopen : ¬ separates .lBrace)
    (hclose : ¬ separates .rBrace) (hlocal : Local c recovery level anyKind)
    (hrecovers : Recovers recovery) (hmember : ∀ t, Agrees c level t member member)
    (hconsumes : ConsumesMember member) (m n : Nat) (s : State)
    (hm : s.rest.length ≤ m) (hn : s.rest.length ≤ n) :
    Agrees c level s (membersUpTo separates recovery member m)
      (membersUpTo separates recovery member n) := by
  induction n generalizing s m with
  | zero =>
    have hrest : s.rest = [] := List.eq_nil_of_length_eq_zero (Nat.le_zero.mp hn)
    have hends : s.endsMembers := endsMembers_iff.mpr (by simp [hrest])
    intro hs _
    rw [membersUpTo_of_endsMembers hclose hends,
      membersUpTo_of_endsMembers hclose (hs.endsMembers.trans hends)]
    exact ⟨rfl, hs⟩
  | succ n ih =>
    intro hs hcalm
    by_cases hend : s.endsMembers
    · rw [membersUpTo_of_endsMembers hclose hend,
        membersUpTo_of_endsMembers hclose (hs.endsMembers.trans hend)]
      exact ⟨rfl, hs⟩
    have hpos : 0 < s.rest.length := List.length_pos_iff.mpr fun hrest =>
      hend (endsMembers_iff.mpr (by simp [hrest]))
    obtain ⟨m, rfl⟩ := Nat.exists_eq_add_one_of_ne_zero (Nat.ne_of_gt (Nat.lt_of_lt_of_le hpos hm))
    obtain ⟨hskip, hskips⟩ := hs.skipSeparators hopen hclose
      (hcalm.of_leadsTo (leadsTo_skipSeparators member n s))
    have hle := length_skipSeparators_le separates s
    by_cases hends : (s.skipSeparators separates).endsMembers
    · have hends' : ((c.embed s).skipSeparators separates).endsMembers := by
        rw [hskip, hskips.endsMembers]
        exact hends
      rw [membersUpTo_of_ends n hends, membersUpTo_of_ends m hends']
      exact ⟨congrArg _ hskip, hskips⟩
    have hends' : ¬ ((c.embed s).skipSeparators separates).endsMembers := by
      rw [hskip, hskips.endsMembers]
      exact hends
    rcases hrun : member (s.skipSeparators separates) with ⟨error | node?, t⟩
    · rw [membersUpTo_of_error n hends hrun] at hcalm ⊢
      have hcalm' : c.Calm (t.recover recovery error) := calm_of_forward _ hcalm
      obtain ⟨hsame, ht⟩ := (hmember _).of_run hskips hrun
        (hcalm'.of_leadsTo (leadsTo_recover recovery t error))
      obtain ⟨hrecover, hfits⟩ := ht.recover hlocal error hcalm'
      rw [membersUpTo_of_error m hends' (hskip ▸ hsame), hrecover]
      have hlength := (Forward.of_run hrun).rest.length_le
      rcases length_recover_lt_or_ends (s := t) hrecovers error with hlt | hstop
      · exact ih m _ (by omega) (by omega) hfits hcalm
      · rw [membersUpTo_of_endsMembers hclose hstop,
          membersUpTo_of_endsMembers hclose (hfits.endsMembers.trans hstop)]
        exact ⟨rfl, hfits⟩
    · have hlt := hconsumes _ _ _ hends hrun
      rw [membersUpTo_of_ok n hends hrun] at hcalm ⊢
      obtain ⟨hsame, ht⟩ := (hmember _).of_run hskips hrun (calm_of_forward _ hcalm)
      rw [membersUpTo_of_ok m hends' (hskip ▸ hsame)]
      refine Agrees.bind (f := fun nodes => Pure.pure (node?.toList ++ nodes))
        (ih m t (by omega) (by omega)) (fun nodes u _ => .pure ?_) ht hcalm
      cases node? <;> simp

theorem Agrees.members [Forward member] {s : State} (hopen : ¬ separates .lBrace)
    (hclose : ¬ separates .rBrace) (hlocal : Local c recovery level anyKind)
    (hrecovers : Recovers recovery) (hmember : ∀ t, Agrees c level t member member)
    (hconsumes : ConsumesMember member) :
    Agrees c level s (members separates recovery member) (members separates recovery member) :=
  Agrees.membersUpTo hopen hclose hlocal hrecovers hmember hconsumes _ _ s (length_le_embed s)
    (Nat.le_refl _)

/-- Members are read up to a closing brace or the end. -/
theorem membersUpTo_ends (member : Parser (Option Node)) [Forward member]
    (hclose : ¬ separates .rBrace) (hrecovers : Recovers recovery)
    (hconsumes : ConsumesMember member) (count : Nat) (s : State)
    (hcount : s.rest.length ≤ count) :
    ∃ nodes t, membersUpTo separates recovery member count s = (.ok nodes, t) ∧ t.endsMembers := by
  induction count generalizing s with
  | zero =>
    have hrest : s.rest = [] := List.eq_nil_of_length_eq_zero (Nat.le_zero.mp hcount)
    exact ⟨[], s, rfl, endsMembers_iff.mpr (by simp [hrest])⟩
  | succ count ih =>
    have hle := length_skipSeparators_le separates s
    by_cases hends : (s.skipSeparators separates).endsMembers
    · exact ⟨[], _, membersUpTo_of_ends count hends, hends⟩
    rcases hrun : member (s.skipSeparators separates) with ⟨error | node?, t⟩
    · rw [membersUpTo_of_error count hends hrun]
      have hlength := (Forward.of_run hrun).rest.length_le
      rcases length_recover_lt_or_ends (s := t) hrecovers error with hlt | hstop
      · exact ih _ (by omega)
      · exact ⟨[], _, membersUpTo_of_endsMembers hclose hstop count, hstop⟩
    · have hlt := hconsumes _ _ _ hends hrun
      rw [membersUpTo_of_ok count hends hrun]
      obtain ⟨nodes, u, hrest, hends'⟩ := ih t (by omega)
      exact ⟨_, u, bind_apply_ok hrest, hends'⟩

end

section

variable {c : Context} {level : Nat} {s : State} {α β : Type} [Shift α] [Shift β]

/-- Levels matter only under a seal. -/
theorem Fits.of_unsealed (h : Fits c level s) (hunsealed : c.ending ≠ .sealed) (level' : Nat) :
    Fits c level' s :=
  ⟨h.before, h.after, h.stretch.imp id <| .imp (fun hseal => absurd hseal.1 hunsealed) id⟩

theorem Fits.advance_open (h : Fits c level s) (hending : c.ending = .sealed) {first : Token}
    {rest : List Token} (hrest : s.rest = first :: rest) (hopen : first.kind = .lBrace) :
    Fits c (level + 1) (s.advance 1) where
  before := h.before
  after doc hdoc token htoken := h.after doc hdoc token (List.mem_of_mem_drop htoken)
  stretch := by
    have hseal := h.sealedAt hending
    rw [hrest] at hseal
    rw [State.rest_advance, hrest]
    exact .inr (.inl ⟨hending, hseal.of_lBrace hopen⟩)

theorem Fits.advance_close (h : Fits c (level + 1) s) (hending : c.ending = .sealed)
    {first : Token} {rest : List Token} (hrest : s.rest = first :: rest)
    (hclose : first.kind = .rBrace) : Fits c level (s.advance 1) where
  before := h.before
  after doc hdoc token htoken := h.after doc hdoc token (List.mem_of_mem_drop htoken)
  stretch := by
    have hseal := h.sealedAt hending
    rw [hrest] at hseal
    rw [State.rest_advance, hrest]
    exact .inr (.inl ⟨hending, hseal.of_rBrace hclose⟩)

theorem Agrees.of_unsealed {p p' : Parser α} (h : Agrees c level s p' p)
    (hunsealed : c.ending ≠ .sealed) (level' : Nat) : Agrees c level' s p' p := fun hs hcalm =>
  have hboth := h (hs.of_unsealed hunsealed level) hcalm
  ⟨hboth.1, hboth.2.of_unsealed hunsealed level'⟩

theorem Agrees.token_of_unsealed (hunsealed : c.ending ≠ .sealed) (kind : TokenKind)
    (what : Wanted) : Agrees c level s (token kind what) (token kind what) := by
  intro hs hcalm
  unfold token at hcalm ⊢
  cases hrest : s.rest with
  | nil =>
    rw [hs.rest_eq_nil hrest]
    exact Agrees.fail _ hs (.of_final (hs.tail_eq_nil hrest).1)
  | cons first rest =>
    rw [hrest] at hcalm
    rw [Fits.rest_eq_cons hrest]
    dsimp only at hcalm ⊢
    by_cases hkind : first.kind = kind
    · rw [if_pos hkind] at hcalm
      rw [if_pos hkind, if_pos (show (shift c.offset first).kind = kind from hkind),
        embed_advance_one hrest]
      exact ⟨rfl, hs.advance (fun hsealed => absurd hsealed hunsealed) hcalm⟩
    · rw [if_neg hkind] at hcalm
      rw [if_neg hkind, if_neg (show ¬ (shift c.offset first).kind = kind from hkind)]
      exact Agrees.fail _ hs hcalm

/-- What stands in braces and ends before the closing one. A parser that fails inside
refuses a level of nesting; otherwise the closing brace is read, and closes the opening
one. -/
theorem Agrees.braces {inside : Parser α} {f f' : α → Parser β} [Forward inside]
    [∀ a, Forward (f a)] (hinside : ∀ t, Agrees c (level + 1) t inside inside)
    (hends : ∀ (t u : State) (a : α), inside t = (.ok a, u) → u.endsMembers)
    (hrefuses : ∀ (t u : State) (error : ParseError), inside t = (.error error, u) →
      .refused ∈ u.journal)
    (hf : ∀ a t, Agrees c level t (f' (shift c.offset a)) (f a)) :
    Agrees c level s
      (do let _ ← expect .lBrace; let a ← inside; let _ ← expect .rBrace; f' a)
      (do let _ ← expect .lBrace; let a ← inside; let _ ← expect .rBrace; f a) := by
  by_cases hunsealed : c.ending ≠ .sealed
  · refine (Agrees.token_of_unsealed hunsealed .lBrace _).bind fun _ t _ => ?_
    refine ((hinside t).of_unsealed hunsealed level).bind fun a u _ => ?_
    exact (Agrees.token_of_unsealed hunsealed .rBrace _).bind fun _ v _ => hf a v
  intro hs hcalm
  have hsealed : c.ending = .sealed := not_not.mp hunsealed
  have hseal := hs.sealedAt hsealed
  obtain ⟨first, rest, hrest⟩ := List.exists_cons_of_ne_nil hseal.ne_nil
  have hrest' := Fits.rest_eq_cons (c := c) hrest
  by_cases hopen : first.kind = .lBrace
  · rw [bind_apply_ok (expect_of_eq hrest hopen)] at hcalm ⊢
    rw [bind_apply_ok (expect_of_eq hrest' hopen), embed_advance_one hrest]
    have ht : Fits c (level + 1) (s.advance 1) := hs.advance_open hsealed hrest hopen
    rcases hrun : inside (s.advance 1) with ⟨error | a, u⟩
    · rw [bind_apply_error hrun] at hcalm
      exact absurd (hrefuses _ _ _ hrun) (hcalm.accepts hsealed)
    · rw [bind_apply_ok hrun] at hcalm ⊢
      obtain ⟨hsame, hu⟩ := (hinside _).of_run ht hrun (calm_of_forward _ hcalm)
      rw [bind_apply_ok hsame]
      obtain ⟨last, behind, hlast⟩ := List.exists_cons_of_ne_nil (hu.sealedAt hsealed).ne_nil
      have hclose : last.kind = .rBrace :=
        endsMembers_iff.mp (hends _ _ _ hrun) last (by simp [hlast])
      have hlast' := Fits.rest_eq_cons (c := c) hlast
      rw [bind_apply_ok (expect_of_eq hlast hclose)] at hcalm ⊢
      rw [bind_apply_ok (expect_of_eq hlast' hclose), embed_advance_one hlast]
      exact hf a _ (hu.advance_close hsealed hlast hclose) hcalm
  · rw [bind_apply_error (expect_of_ne hrest hopen),
      bind_apply_error (expect_of_ne hrest' hopen), hs.errorHere]
    exact ⟨rfl, hs⟩

end

section

variable {c : Context}

theorem carried_identifier (what : Wanted) : Carried c (identifier what) := by
  intro level s
  refine (carried_token what (by decide) (by decide) level s).bind fun token t _ => .pure ?_
  simp

theorem carried_entityName : Carried c entityName := by
  intro level s
  refine (carried_identifier .name level s).bind fun first t _ => ?_
  refine Agrees.bind (.repeatWhile ?_ (fun t ht => ht.atSegment) ?_ ?_) fun segments u _ => ?_
  · intro t ht
    simp [State.atSegment, State.isAt, State.nthIs, ht]
  · intro t ht
    obtain ⟨token, rest, hrest, hkind⟩ := rest_of_isAt (Bool.and_eq_true_iff.mp ht).1
    refine (Agrees.advance_one hrest (by simp [hkind]) (by simp [hkind])).go fun _ u _ => ?_
    exact carried_identifier .name level u
  · intro t u a ht hrun
    obtain ⟨token, rest, hrest, -⟩ := rest_of_isAt (Bool.and_eq_true_iff.mp ht).1
    exact length_lt_of_advance_one (by simp [hrest]) hrun
  · refine .ite ?_ (fun _ => .pure rfl) fun _ => .look fun hu => .pure ?_
    · cases segments <;> simp
    · simp

theorem carried_skipDecorators : Carried c skipDecorators := fun _ _ =>
  .measured local_decoratorsLength fun _ _ => trivial

theorem carried_skipInitializer (ends : TokenKind → Bool) : Carried c (skipInitializer ends) :=
  fun _ _ => .measured (local_initializerLength ends) fun _ _ => trivial

theorem agrees_skipGroup {level : Nat} {s : State} {token : Token} {rest : List Token}
    (hrest : s.rest = token :: rest) (hopen : token.kind.opens) :
    Agrees c level s skipGroup skipGroup :=
  .measured local_groupLength (by simpa [hrest] using hopen)

theorem carried_memberName : Carried c memberName := by
  intro level s
  refine .look fun hs => ?_
  cases hrest : s.rest with
  | nil =>
    rw [hs.rest_eq_nil hrest]
    exact .fail _
  | cons token rest =>
    rw [Fits.rest_eq_cons hrest]
    dsimp only
    rw [kind_shift]
    cases hkind : token.kind with
    | word | string | number =>
      refine (Agrees.advance_one hrest (by simp [hkind]) (by simp [hkind])).go fun _ t _ => .pure ?_
      simp
    | hash =>
      dsimp only
      rcases hs.head?_rest hrest (by simp [hkind]) with hsame | ⟨hnone, stop, hstop, hstops⟩
      case inr =>
        -- Behind the stretch there is no name, and in it there is none either.
        have hword : stop.kind ≠ .word := by
          intro hword
          rw [hword] at hstops
          cases hstops
        rw [Option.mem_def.mp hstop, hnone]
        dsimp only
        rw [if_neg hword]
        exact .fail _
      rw [hsame]
      cases hname : rest.head? with
      | none => exact .fail _
      | some name =>
        refine .ite Iff.rfl (fun hword => ?_) fun _ => .fail _
        refine Agrees.go (.advance fun _ hseal => ?_) fun _ t _ =>
          .pure (by simp only [shift_cons, shift_leaf, shift_nil]; rfl)
        obtain ⟨behind, rfl⟩ := List.head?_eq_some_iff.mp hname
        rw [hrest] at hseal ⊢
        exact (hseal.of_cons (by simp [hkind]) (by simp [hkind])).of_cons (by simp [hword])
          (by simp [hword])
    | lBracket =>
      refine (agrees_skipGroup hrest (by simp [hkind, TokenKind.opens])).go fun _ t _ => ?_
      exact .pure rfl
    | _ => exact .fail _

theorem carried_questionMark : Carried c questionMark := by
  intro level s
  refine .look fun hs => ?_
  cases hrest : s.rest with
  | nil =>
    rw [hs.rest_eq_nil hrest]
    exact .pure rfl
  | cons token rest =>
    rw [Fits.rest_eq_cons hrest]
    refine .ite Iff.rfl (fun hkind => ?_) fun _ => .pure rfl
    refine (Agrees.advance_one hrest (by simp [hkind]) (by simp [hkind])).go fun _ t _ => .pure ?_
    simp

end

end DeclSchema.Parser
