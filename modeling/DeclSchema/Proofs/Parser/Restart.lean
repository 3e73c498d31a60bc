import DeclSchema.Proofs.Parser.CarriedStatements
import DeclSchema.Proofs.Token.Concatenation

/-!
# Statements do not look back

What stands before a statement has no influence on it: neither where the last token ends
nor whether a line feed follows it. A statement that is read in front of others is
therefore one node more, and the others are read as if they came first.
-/

namespace DeclSchema.Parser

open TokenStream (withNewline)

/-- The state with other text before its next token. -/
def State.restart (s : State) (prevEnd : Nat) (newline : Bool) : State :=
  { s with rest := withNewline newline s.rest, prevEnd }

section

variable {s : State} {stop : Nat} {newline : Bool}

theorem restart_of_rest_eq_nil (h : s.rest = []) :
    (s.restart stop newline).rest = [] := by
  rw [State.restart, h]
  rfl

theorem start_restart : (s.restart stop newline).start = s.start := by
  obtain ⟨rest, prevEnd, length, docs, depth, errors, journal⟩ := s
  cases rest <;> rfl

theorem errorHere_restart (fault : Fault) :
    (s.restart stop newline).errorHere fault = s.errorHere fault := by
  obtain ⟨rest, prevEnd, length, docs, depth, errors, journal⟩ := s
  cases rest <;> rfl

theorem nthIs_restart (i : Nat) (kind : TokenKind) :
    (s.restart stop newline).nthIs i kind = s.nthIs i kind := by
  obtain ⟨rest, prevEnd, length, docs, depth, errors, journal⟩ := s
  cases rest <;> cases i <;> rfl

theorem nthWord?_restart (i : Nat) : (s.restart stop newline).nthWord? i = s.nthWord? i := by
  obtain ⟨rest, prevEnd, length, docs, depth, errors, journal⟩ := s
  cases rest <;> cases i <;> rfl

theorem heading?_restart : (s.restart stop newline).heading? = s.heading? := by
  unfold State.heading? State.nthIsWord
  simp only [nthIs_restart, nthWord?_restart]

theorem endsMembers_restart : (s.restart stop newline).endsMembers = s.endsMembers := by
  obtain ⟨rest, prevEnd, length, docs, depth, errors, journal⟩ := s
  cases rest <;> rfl

/-- Behind the next token nothing is left of what was before it. -/
theorem advance_restart {count : Nat} (hcount : 0 < count) (hrest : s.rest ≠ []) :
    (s.restart stop newline).advance count = s.advance count := by
  obtain ⟨rest, prevEnd, length, docs, depth, errors, journal⟩ := s
  obtain ⟨token, rest, rfl⟩ := List.exists_cons_of_ne_nil hrest
  obtain ⟨count, rfl⟩ := Nat.exists_eq_add_one_of_ne_zero (Nat.ne_of_gt hcount)
  simp only [State.advance, State.restart, withNewline, List.take_succ_cons, List.drop_succ_cons,
    List.getLast?_cons]
  cases (rest.take count).getLast? <;> rfl

end

/-- What was before the state changes nothing, or nothing is read and it is passed on. -/
def Restarts (p : Parser α) : Prop :=
  ∀ (s : State) (stop : Nat) (newline : Bool), p (s.restart stop newline) = p s ∨
    (p s).2.rest = s.rest ∧
      p (s.restart stop newline) = ((p s).1, (p s).2.restart stop newline)

section

variable {α β : Type} {p : Parser α} {f : α → Parser β}

theorem Restarts.pure (a : α) : Restarts (Pure.pure a : Parser α) :=
  fun _ _ _ => .inr ⟨rfl, rfl⟩

theorem Restarts.bind (hp : Restarts p) (hf : ∀ a, Restarts (f a)) : Restarts (p >>= f) := by
  intro s stop newline
  rcases hrun : p s with ⟨error | a, t⟩
  · have hboth := hp s stop newline
    rw [hrun] at hboth
    rw [bind_apply_error hrun]
    rcases hboth with hsame | ⟨hrest, hsame⟩
    · exact .inl (bind_apply_error hsame)
    · exact .inr ⟨hrest, bind_apply_error hsame⟩
  · have hboth := hp s stop newline
    rw [hrun] at hboth
    rw [bind_apply_ok hrun]
    rcases hboth with hsame | ⟨hrest, hsame⟩
    · exact .inl (bind_apply_ok hsame)
    · rw [bind_apply_ok hsame]
      rcases hf a t stop newline with hnext | ⟨hkept, hnext⟩
      · exact .inl hnext
      · exact .inr ⟨hkept.trans hrest, hnext⟩

theorem restarts_takeDocs : Restarts takeDocs := by
  intro s stop newline
  refine .inr ?_
  have hdocs : (s.restart stop newline).docs = s.docs := rfl
  unfold takeDocs
  rw [start_restart, hdocs]
  cases s.docs.lookup s.start <;> exact ⟨rfl, rfl⟩

/-- Reading some tokens, be it none. -/
theorem advance_restart_cases (s : State) (stop : Nat) (newline : Bool) (count : Nat) :
    (s.restart stop newline).advance count = s.advance count ∨
      (s.advance count).rest = s.rest ∧
        (s.restart stop newline).advance count = (s.advance count).restart stop newline := by
  by_cases hcount : count = 0
  · subst hcount
    rw [State.advance_zero, State.advance_zero]
    exact .inr ⟨rfl, rfl⟩
  by_cases hrest : s.rest = []
  · rw [State.advance_of_rest_eq_nil hrest, State.advance_of_rest_eq_nil
      (restart_of_rest_eq_nil hrest)]
    exact .inr ⟨rfl, rfl⟩
  · exact .inl (advance_restart (Nat.pos_of_ne_zero hcount) hrest)

theorem decoratorsLength_withNewline (newline : Bool) (tokens : List Token) :
    decoratorsLength (withNewline newline tokens) = decoratorsLength tokens := by
  cases tokens with
  | nil => rfl
  | cons token rest =>
    have hfirst : decoratorLength ({ token with newlineBefore := newline } :: rest) =
        decoratorLength (token :: rest) := rfl
    show decoratorsUpTo (rest.length + 1) ({ token with newlineBefore := newline } :: rest) =
      decoratorsUpTo (rest.length + 1) (token :: rest)
    by_cases hzero : decoratorLength (token :: rest) = 0
    · rw [decoratorsUpTo_of_eq_zero _ hzero, decoratorsUpTo_of_eq_zero _ (hfirst.trans hzero)]
    · obtain ⟨length, hlength⟩ := Nat.exists_eq_add_one_of_ne_zero hzero
      rw [decoratorsUpTo_of_ne_zero _ hzero, decoratorsUpTo_of_ne_zero _ (hfirst ▸ hzero), hfirst,
        hlength, List.drop_succ_cons, List.drop_succ_cons]

theorem restarts_skipDecorators : Restarts skipDecorators := by
  intro s stop newline
  have hmeasure : decoratorsLength (s.restart stop newline).rest = decoratorsLength s.rest :=
    decoratorsLength_withNewline newline s.rest
  have hrun : ∀ t : State, skipDecorators t = (.ok (), t.advance (decoratorsLength t.rest)) :=
    fun _ => rfl
  rw [hrun, hrun, hmeasure]
  exact (advance_restart_cases s stop newline _).imp (congrArg _)
    fun hkept => ⟨hkept.1, congrArg _ hkept.2⟩

theorem leadingModifiers_withNewline (newline kept : Bool) (tokens : List Token) :
    leadingModifiers statementModifier kept (withNewline newline tokens) =
      leadingModifiers statementModifier kept tokens := by
  cases tokens <;> rfl

theorem restarts_modifiers : Restarts (modifiers statementModifier) := by
  intro s stop newline
  have hwords : leadingModifiers statementModifier false (s.restart stop newline).rest =
      leadingModifiers statementModifier false s.rest :=
    leadingModifiers_withNewline newline false s.rest
  have hrun : ∀ t : State, modifiers statementModifier t =
      (.ok (leadingModifiers statementModifier false t.rest).1,
        t.advance (leadingModifiers statementModifier false t.rest).2) := fun _ => rfl
  rw [hrun, hrun, hwords]
  exact (advance_restart_cases s stop newline _).imp (congrArg _)
    fun hkept => ⟨hkept.1, congrArg _ hkept.2⟩

theorem restarts_statementHead : Restarts statementHead :=
  restarts_takeDocs.bind fun _ => restarts_skipDecorators.bind fun _ =>
    restarts_takeDocs.bind fun _ => restarts_modifiers.bind fun _ => .pure _

end

section

variable {block : Parser (List Node)} {s : State}

theorem declaration_restart (s : State) (stop : Nat) (newline : Bool) (tags : List DocTag)
    (words : List Node) (heading : Heading) :
    declaration block (s.restart stop newline) tags words heading =
      declaration block s tags words heading := by
  unfold declaration Heading.node
  rw [start_restart]
  rfl

theorem statementLength_withNewline (newline : Bool) (tokens : List Token) :
    statementLength true 0 (withNewline newline tokens) = statementLength true 0 tokens := by
  cases tokens with
  | nil => rfl
  | cons token rest => simp [withNewline, statementLength]

theorem ne_nil_of_not_endsMembers (h : ¬ s.endsMembers) : s.rest ≠ [] := fun hrest =>
  h (endsMembers_iff.mpr (by simp [hrest]))

/-- A statement is the same whatever stands before it. -/
theorem statement_restart (block : Parser (List Node)) (h : ¬ s.endsMembers) (stop : Nat)
    (newline : Bool) : statement block (s.restart stop newline) = statement block s := by
  obtain ⟨tags, words, u, hhead⟩ := statementHead_eq_ok s
  have hrestarts := restarts_statementHead s stop newline
  rw [hhead] at hrestarts
  rw [statement_of_head block hhead]
  rcases hrestarts with hsame | ⟨hrest, hsame⟩
  · rw [statement_of_head block hsame]
    cases u.heading? with
    | none => rfl
    | some found =>
      dsimp only
      rw [declaration_restart]
  · have hne : u.rest ≠ [] := by
      dsimp only at hrest
      rw [hrest]
      exact ne_nil_of_not_endsMembers h
    rw [statement_of_head block hsame, heading?_restart]
    cases hheading : u.heading? with
    | none =>
      have hends : ¬ u.endsMembers := fun hends => by
        have hkind := endsMembers_iff.mp hends
        rw [show u.rest = s.rest from hrest] at hkind
        exact h (endsMembers_iff.mpr hkind)
      have hlength : statementLength true 0 (u.restart stop newline).rest =
          statementLength true 0 u.rest := statementLength_withNewline newline u.rest
      have hpos : 0 < statementLength true 0 u.rest := Nat.pos_of_ne_zero fun hzero =>
        hends (endsMembers_iff.mpr (recovers_statementLength _ hzero))
      show (Except.ok none, (u.restart stop newline).advance
        (statementLength true 0 (u.restart stop newline).rest)) = _
      rw [hlength, advance_restart hpos hne]
      rfl
    | some found =>
      show declaration block (s.restart stop newline) tags words found.1
        ((u.restart stop newline).advance found.2) = _
      rw [declaration_restart, advance_restart (heading?_some hheading).1 hne]
      rfl

theorem skipSeparators_restart (separates : TokenKind → Bool) (h : s.rest ≠ []) (stop : Nat)
    (newline : Bool) :
    (s.restart stop newline).skipSeparators separates = s.skipSeparators separates ∨
      s.skipSeparators separates = s ∧
        (s.restart stop newline).skipSeparators separates = s.restart stop newline := by
  obtain ⟨token, rest, hrest⟩ := List.exists_cons_of_ne_nil h
  have hrest' : (s.restart stop newline).rest = { token with newlineBefore := newline } :: rest := by
    rw [State.restart, hrest]
    rfl
  unfold State.skipSeparators
  rw [hrest, hrest', List.takeWhile_cons, List.takeWhile_cons]
  by_cases hsep : separates token.kind
  · rw [if_pos hsep, if_pos hsep, List.length_cons, List.length_cons,
      advance_restart (Nat.succ_pos _) h]
    exact .inl rfl
  · rw [if_neg hsep, if_neg hsep]
    exact .inr ⟨State.advance_zero s, State.advance_zero _⟩

/-- So are several statements. -/
theorem statements_restart (h : ¬ s.endsMembers) (stop : Nat) (newline : Bool) :
    statements block (s.restart stop newline) = statements block s := by
  have hne := ne_nil_of_not_endsMembers h
  obtain ⟨count, hcount⟩ := Nat.exists_eq_add_one_of_ne_zero
    (Nat.ne_of_gt (List.length_pos_iff.mpr hne))
  have hlength : (s.restart stop newline).rest.length = count + 1 := by
    rw [← hcount, State.restart]
    cases s.rest <;> rfl
  unfold statements members
  rw [hlength, hcount]
  rcases skipSeparators_restart separatesStatements hne stop newline with
    hsame | ⟨hself, hself'⟩
  · by_cases hends : (s.skipSeparators separatesStatements).endsMembers
    · rw [membersUpTo_of_ends count hends, membersUpTo_of_ends count (hsame ▸ hends), hsame]
    · rcases hrun : statement block (s.skipSeparators separatesStatements) with ⟨error | node?, t⟩
      · rw [membersUpTo_of_error count hends hrun,
          membersUpTo_of_error count (hsame ▸ hends) (hsame ▸ hrun)]
      · rw [membersUpTo_of_ok count hends hrun,
          membersUpTo_of_ok count (hsame ▸ hends) (hsame ▸ hrun)]
  · have hends : ¬ (s.skipSeparators separatesStatements).endsMembers := hself.symm ▸ h
    have hends' : ¬ ((s.restart stop newline).skipSeparators separatesStatements).endsMembers := by
      rw [hself', endsMembers_restart]
      exact h
    have hboth := statement_restart block h stop newline
    rcases hrun : statement block s with ⟨error | node?, t⟩
    · rw [hrun] at hboth
      rw [membersUpTo_of_error count hends (hself.symm ▸ hrun),
        membersUpTo_of_error count hends' (hself'.symm ▸ hboth)]
    · rw [hrun] at hboth
      rw [membersUpTo_of_ok count hends (hself.symm ▸ hrun),
        membersUpTo_of_ok count hends' (hself'.symm ▸ hboth)]

/-- So are all statements of a source, if there are any. -/
theorem runsUpTo_restart (h : s.rest ≠ []) (count stop : Nat) (newline : Bool) :
    runsUpTo (count + 1) (s.restart stop newline) = runsUpTo (count + 1) s := by
  by_cases hends : s.endsMembers
  · have hstop : ∀ t : State, t.endsMembers → statements (blockWithin maxDepth) t = (.ok [], t) :=
      fun t ht => membersUpTo_of_endsMembers (by decide) ht _
    have hbrace : s.isAt .rBrace := by
      obtain ⟨token, rest, hrest⟩ := List.exists_cons_of_ne_nil h
      exact (isAt_iff hrest).mpr (endsMembers_iff.mp hends token (by simp [hrest]))
    have hbrace' : (s.restart stop newline).isAt .rBrace := (nthIs_restart 0 _).trans hbrace
    have hpass : (s.restart stop newline).passStrayBrace = s.passStrayBrace := by
      unfold State.passStrayBrace State.recover
      rw [errorHere_restart]
      exact advance_restart (s := s.record (s.errorHere .strayBrace)) Nat.one_pos h
    rw [runsUpTo_of_isAt count (hstop s hends) hbrace,
      runsUpTo_of_isAt count (hstop _ (endsMembers_restart.trans hends)) hbrace', hpass]
  · unfold runsUpTo
    rw [bind_apply, bind_apply, statements_restart hends]

end

section

variable {separates : TokenKind → Bool} {recovery : List Token → Nat}
  {member : Parser (Option Node)}

section

variable {α β : Type} {p q : Parser α} {t u : State} (g : α → β)

theorem map_apply_ok {a : α} (h : p t = (.ok a, u)) : (g <$> p) t = (.ok (g a), u) :=
  bind_apply_ok h

theorem map_apply_error {error : ParseError} (h : p t = (.error error, u)) :
    (g <$> p) t = (.error error, u) :=
  bind_apply_error h

theorem map_apply_trans {γ : Type} (f : β → γ) {p : Parser β} {q : Parser α}
    (h : p t = (g <$> q) u) : (f <$> p) t = ((fun a => f (g a)) <$> q) u := by
  rcases hrun : q u with ⟨error | a, v⟩
  · rw [map_apply_error g hrun] at h
    rw [map_apply_error f h, map_apply_error _ hrun]
  · rw [map_apply_ok g hrun] at h
    rw [map_apply_ok f h, map_apply_ok _ hrun]

theorem snd_map_apply : ((g <$> p) t).2 = (p t).2 := by
  rcases hrun : p t with ⟨error | a, u⟩
  · rw [map_apply_error g hrun]
  · rw [map_apply_ok g hrun]

theorem map_apply_congr (h : p t = q t) : (g <$> p) t = (g <$> q) t := by
  show (p >>= fun a => pure (g a)) t = (q >>= fun a => pure (g a)) t
  rw [bind_apply, bind_apply, h]

end

/-- Any bound on the number of members that is large enough gives the same. -/
theorem membersUpTo_eq [Forward member] (hclose : ¬ separates .rBrace)
    (hrecovers : Recovers recovery) (hconsumes : ConsumesMember member) (m n : Nat) (s : State)
    (hm : s.rest.length ≤ m) (hn : s.rest.length ≤ n) :
    membersUpTo separates recovery member m s = membersUpTo separates recovery member n s := by
  induction n generalizing m s with
  | zero =>
    have hrest : s.rest = [] := List.eq_nil_of_length_eq_zero (Nat.le_zero.mp hn)
    have hends : s.endsMembers := endsMembers_iff.mpr (by simp [hrest])
    rw [membersUpTo_of_endsMembers hclose hends, membersUpTo_of_endsMembers hclose hends]
  | succ n ih =>
    by_cases hend : s.endsMembers
    · rw [membersUpTo_of_endsMembers hclose hend, membersUpTo_of_endsMembers hclose hend]
    have hpos := List.length_pos_iff.mpr (ne_nil_of_not_endsMembers hend)
    obtain ⟨m, rfl⟩ := Nat.exists_eq_add_one_of_ne_zero (Nat.ne_of_gt (Nat.lt_of_lt_of_le hpos hm))
    have hle := length_skipSeparators_le separates s
    by_cases hends : (s.skipSeparators separates).endsMembers
    · rw [membersUpTo_of_ends n hends, membersUpTo_of_ends m hends]
    rcases hrun : member (s.skipSeparators separates) with ⟨error | node?, t⟩
    · have hlength := (Forward.of_run hrun).rest.length_le
      rw [membersUpTo_of_error n hends hrun, membersUpTo_of_error m hends hrun]
      rcases length_recover_lt_or_ends (s := t) hrecovers error with hlt | hstop
      · exact ih m _ (by omega) (by omega)
      · rw [membersUpTo_of_endsMembers hclose hstop, membersUpTo_of_endsMembers hclose hstop]
    · have hlt := hconsumes _ _ _ hends hrun
      rw [membersUpTo_of_ok n hends hrun, membersUpTo_of_ok m hends hrun]
      exact map_apply_congr _ (ih m t (by omega) (by omega))

variable {block : Parser (List Node)} [Forward block] {s t : State} {node? : Option Node}

theorem skipSeparators_of_not_isAt (hsep : ¬ s.isAt .semicolon) :
    s.skipSeparators separatesStatements = s := by
  cases hrest : s.rest with
  | nil => exact State.advance_of_rest_eq_nil hrest _
  | cons token rest =>
    have hkind : token.kind ≠ .semicolon := mt (isAt_iff hrest).mpr hsep
    have hnot : ¬ separatesStatements token.kind := by
      unfold separatesStatements
      split <;> simp_all
    rw [State.skipSeparators, hrest, List.takeWhile_cons, if_neg hnot]
    exact State.advance_zero s

/-- A statement that is read first is one node more. -/
theorem statements_of_statement (h : ¬ s.endsMembers) (hsep : ¬ s.isAt .semicolon)
    (hrun : statement block s = (.ok node?, t)) :
    statements block s = ((node?.toList ++ ·) <$> statements block) t := by
  have hself := skipSeparators_of_not_isAt hsep
  have hlt := consumes_statement s t node? h hrun
  obtain ⟨count, hcount⟩ := Nat.exists_eq_add_one_of_ne_zero (Nat.ne_of_gt (Nat.zero_lt_of_lt hlt))
  show membersUpTo _ _ _ s.rest.length s = _
  rw [hcount, membersUpTo_of_ok count (hself.symm ▸ h) (hself.symm ▸ hrun)]
  exact map_apply_congr _ (membersUpTo_eq (by decide) recovers_statementLength consumes_statement _ _
    t (by omega) (Nat.le_refl _))

/-- The statements that a statement is the first of read on from where it ended. -/
theorem leadsTo_statements (h : ¬ s.endsMembers) (hsep : ¬ s.isAt .semicolon) :
    (statement block s).2.LeadsTo (statements block s).2 := by
  have hself := skipSeparators_of_not_isAt hsep
  rcases hrun : statement block s with ⟨error | node?, t⟩
  · obtain ⟨count, hcount⟩ := Nat.exists_eq_add_one_of_ne_zero
      (Nat.ne_of_gt (List.length_pos_iff.mpr (ne_nil_of_not_endsMembers h)))
    have hrecover : t.LeadsTo (t.recover (statementLength true 0) error) :=
      (State.LeadsTo.record t error).trans (.advance _ _)
    show t.LeadsTo (membersUpTo _ _ _ s.rest.length s).2
    rw [hcount, membersUpTo_of_error count (hself.symm ▸ h) (hself.symm ▸ hrun)]
    exact hrecover.trans (Forward.leadsTo _)
  · rw [statements_of_statement h hsep hrun]
    exact Forward.leadsTo t

/-- So do all statements of a source. -/
theorem leadsTo_runsUpTo (h : ¬ s.endsMembers) (hsep : ¬ s.isAt .semicolon) (count : Nat) :
    (statement (blockWithin maxDepth) s).2.LeadsTo (runsUpTo (count + 1) s).2 :=
  (leadsTo_statements h hsep).trans (Forward.leadsTo_bind s)

theorem runsUpTo_of_statement (h : ¬ s.endsMembers) (hsep : ¬ s.isAt .semicolon)
    (hrun : statement (blockWithin maxDepth) s = (.ok node?, t)) (count : Nat) :
    runsUpTo (count + 1) s = ((node?.toList ++ ·) <$> runsUpTo (count + 1)) t := by
  obtain ⟨nodes, u, hrest⟩ : ∃ nodes u, statements (blockWithin maxDepth) t = (.ok nodes, u) :=
    members_eq_ok _ _ _ t
  have hall : statements (blockWithin maxDepth) s = (.ok (node?.toList ++ nodes), u) := by
    rw [statements_of_statement h hsep hrun]
    exact bind_apply_ok hrest
  by_cases hbrace : u.isAt .rBrace
  · rw [runsUpTo_of_isAt count hall hbrace]
    rcases hothers : runsUpTo count u.passStrayBrace with ⟨error | others, v⟩
    · have hboth := runsUpTo_of_isAt count hrest hbrace
      rw [map_apply_error _ hothers] at hboth ⊢
      exact (map_apply_error _ hboth).symm
    · have hboth := runsUpTo_of_isAt count hrest hbrace
      rw [map_apply_ok _ hothers] at hboth ⊢
      rw [map_apply_ok _ hboth, List.append_assoc]
  · rw [runsUpTo_of_not_isAt count hall hbrace,
      map_apply_ok _ (runsUpTo_of_not_isAt count hrest hbrace)]

theorem runsUpTo_of_rest_eq_nil {s : State} (h : s.rest = []) (count : Nat) :
    runsUpTo (count + 1) s = (.ok [], s) := by
  have hends : s.endsMembers := endsMembers_iff.mpr (by simp [h])
  exact runsUpTo_of_not_isAt count (membersUpTo_of_endsMembers (by decide) hends _)
    (not_isAt_of_rest_eq_nil h)

end

end DeclSchema.Parser
