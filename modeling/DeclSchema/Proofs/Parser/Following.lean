import DeclSchema.Proofs.Parser.ClosingStatements
import DeclSchema.Proofs.Parser.Restart

/-!
# Statements in front of a word

A loose stretch whose statements are read without an error is read the same in front of a
word, and what the word starts comes next. The induction is on what is left of the stretch:
its first statement is carried by the context or, if it is the last one, closes it.
-/

namespace DeclSchema.Parser

section

variable (separates : TokenKind → Bool)

theorem takeWhile_skipSeparators (s : State) :
    (s.skipSeparators separates).rest.takeWhile (separates ·.kind) = [] := by
  rw [State.skipSeparators, State.rest_advance]
  induction s.rest with
  | nil => rfl
  | cons token rest ih =>
    rw [List.takeWhile_cons]
    split
    · exact ih
    · next h => exact (List.takeWhile_cons ..).trans (if_neg h)

theorem skipSeparators_skipSeparators (s : State) :
    (s.skipSeparators separates).skipSeparators separates = s.skipSeparators separates := by
  rw [State.skipSeparators, takeWhile_skipSeparators separates]
  exact State.advance_zero _

theorem not_isAt_skipSeparators (s : State) :
    ¬ (s.skipSeparators separatesStatements).isAt .semicolon := by
  intro hat
  obtain ⟨token, rest, hrest, hkind⟩ := rest_of_isAt hat
  have hnone := takeWhile_skipSeparators separatesStatements s
  rw [hrest, List.takeWhile_cons, if_pos (by rw [hkind]; rfl)] at hnone
  cases hnone

variable {block : Parser (List Node)} [Forward block]

/-- Separators in front of statements are passed over. -/
theorem statements_skipSeparators (s : State) :
    statements block (s.skipSeparators separatesStatements) = statements block s := by
  by_cases hrest : s.rest = []
  · rw [State.skipSeparators, State.advance_of_rest_eq_nil hrest]
  have hidem := skipSeparators_skipSeparators separatesStatements s
  obtain ⟨count, hcount⟩ := Nat.exists_eq_add_one_of_ne_zero
    (Nat.ne_of_gt (List.length_pos_iff.mpr hrest))
  have hbound : statements block (s.skipSeparators separatesStatements) =
      membersUpTo separatesStatements (statementLength true 0) (statement block) (count + 1)
        (s.skipSeparators separatesStatements) :=
    membersUpTo_eq (by decide) recovers_statementLength consumes_statement _ _ _ (Nat.le_refl _)
      (hcount ▸ length_skipSeparators_le separatesStatements s)
  have hself : statements block s =
      membersUpTo separatesStatements (statementLength true 0) (statement block) (count + 1) s := by
    rw [← hcount]
    rfl
  rw [hbound, hself]
  by_cases hends : (s.skipSeparators separatesStatements).endsMembers
  · rw [membersUpTo_of_ends count hends, membersUpTo_of_ends count (hidem.symm ▸ hends), hidem]
  rcases hrun : statement block (s.skipSeparators separatesStatements) with ⟨error | node?, t⟩
  · rw [membersUpTo_of_error count hends hrun,
      membersUpTo_of_error count (hidem.symm ▸ hends) (hidem.symm ▸ hrun)]
  · rw [membersUpTo_of_ok count hends hrun,
      membersUpTo_of_ok count (hidem.symm ▸ hends) (hidem.symm ▸ hrun)]

theorem runsUpTo_skipSeparators (count : Nat) (s : State) :
    runsUpTo (count + 1) (s.skipSeparators separatesStatements) = runsUpTo (count + 1) s := by
  unfold runsUpTo
  rw [bind_apply, bind_apply, statements_skipSeparators]

end

/-- The word behind the stretch is no separator, so that no more of them are passed over. -/
theorem Context.Precedes.skipSeparators {c : Context} (hc : c.Precedes) (s : State) :
    (c.embed s).skipSeparators separatesStatements =
      c.embed (s.skipSeparators separatesStatements) := by
  obtain ⟨first, hfirst, hkind⟩ := hc.starts
  obtain ⟨behind, hbehind⟩ := List.head?_eq_some_iff.mp hfirst
  have htail : c.tail.takeWhile (separatesStatements ·.kind) = [] := by
    rw [hbehind]
    exact (List.takeWhile_cons ..).trans (if_neg (by simp [hkind, separatesStatements]))
  have hlength : ((c.embed s).rest.takeWhile (separatesStatements ·.kind)).length =
      (s.rest.takeWhile (separatesStatements ·.kind)).length := by
    rw [c.embed_rest, List.takeWhile_append, htail, List.append_nil]
    have hlocal : Local c (fun tokens => (tokens.takeWhile (separatesStatements ·.kind)).length) 0
        anyKind := local_skipSeparators (by decide) (by decide)
    have hshift := hlocal.shift c.offset s.rest
    split
    · next hall => exact hall.symm.trans hshift
    · exact hshift
  rw [State.skipSeparators, hlength, c.embed_advance (.inl (List.takeWhile_sublist _).length_le)]
  rfl

section

variable {block : Parser (List Node)} [Forward block] {s t : State} {error : ParseError}

/-- The error that ends a statement is recorded before the others are read. -/
theorem leadsTo_statements_of_error (h : ¬ s.endsMembers) (hsep : ¬ s.isAt .semicolon)
    (hrun : statement block s = (.error error, t)) :
    (t.recover (statementLength true 0) error).LeadsTo (statements block s).2 := by
  have hself := skipSeparators_of_not_isAt hsep
  obtain ⟨count, hcount⟩ := Nat.exists_eq_add_one_of_ne_zero
    (Nat.ne_of_gt (List.length_pos_iff.mpr (ne_nil_of_not_endsMembers h)))
  have hstatements : statements block s = membersUpTo separatesStatements (statementLength true 0)
      (statement block) count (t.recover (statementLength true 0) error) := by
    show membersUpTo _ _ _ s.rest.length s = _
    rw [hcount, membersUpTo_of_error count (hself.symm ▸ h) (hself.symm ▸ hrun)]
  rw [hstatements]
  exact Forward.leadsTo _

theorem errors_ne_nil_of_recover {recovery : List Token → Nat} {u : State}
    (h : (t.recover recovery error).LeadsTo u) : u.errors ≠ [] := by
  intro hnil
  have hprefix := h.errors
  rw [hnil, List.prefix_nil] at hprefix
  exact List.append_ne_nil_of_right_ne_nil t.errors (List.cons_ne_nil error []) hprefix

/-- Where no error is recorded, the first statement is read. -/
theorem statement_of_errors_eq_nil {count : Nat} (h : ¬ s.endsMembers)
    (hsep : ¬ s.isAt .semicolon) (herrors : (runsUpTo (count + 1) s).2.errors = []) :
    ∃ node? t, statement (blockWithin maxDepth) s = (.ok node?, t) := by
  rcases hrun : statement (blockWithin maxDepth) s with ⟨error | node?, t⟩
  · have hto : (t.recover (statementLength true 0) error).LeadsTo (runsUpTo (count + 1) s).2 :=
      (leadsTo_statements_of_error h hsep hrun).trans (Forward.leadsTo_bind s)
    exact absurd herrors (errors_ne_nil_of_recover hto)
  · exact ⟨node?, t, rfl⟩

/-- Nor does a brace come first that closes nothing. -/
theorem rest_eq_nil_of_errors_eq_nil {count : Nat} (h : s.endsMembers)
    (herrors : (runsUpTo (count + 1) s).2.errors = []) : s.rest = [] := by
  by_contra hne
  obtain ⟨token, rest, hrest⟩ := List.exists_cons_of_ne_nil hne
  have hbrace : s.isAt .rBrace :=
    (isAt_iff hrest).mpr (endsMembers_iff.mp h token (by simp [hrest]))
  have hnone : statements (blockWithin maxDepth) s = (.ok [], s) :=
    membersUpTo_of_endsMembers (by decide) h _
  have hto : s.passStrayBrace.LeadsTo (runsUpTo (count + 1) s).2 := by
    rw [runsUpTo_of_isAt count hnone hbrace]
    exact Forward.leadsTo _
  exact errors_ne_nil_of_recover hto herrors

end

section

variable {c : Context} {level : Nat}

/-- A statement of the stretch is the same in the larger source. -/
theorem statement_embed (hc : c.Precedes) {s t : State} {node? : Option Node}
    (hs : Fits c level s) (hrun : statement (blockWithin maxDepth) s = (.ok node?, t))
    (hkeeps : .gaveBack true ∉ t.journal) :
    statement (blockWithin maxDepth) (c.embed s) = (.ok (shift c.offset node?), c.embed t) ∧
      (t.rest = [] ∨ Fits c level t) := by
  have hblock := carried_blockWithin hc.bounds.unsealed maxDepth
  by_cases hrest : t.rest = []
  · exact ⟨closes_statement hc hblock hs (by rwa [hrun]) node? t hrun hrest, .inl hrest⟩
  · obtain ⟨hsame, ht⟩ :=
      (carried_statement hc.bounds.unsealed hblock level s).of_run hs hrun
        (hc.bounds.calm hrest hkeeps)
    exact ⟨hsame, .inr ht⟩

/-- The statements from the state on read all of the stretch, and in the larger source they
are the same, followed by those behind the stretch. -/
def Continues (c : Context) (count : Nat) (s : State) : Prop :=
  ∃ nodes t, runsUpTo (count + 1) s = (.ok nodes, t) ∧ t.rest = [] ∧ ∀ m,
    runsUpTo (m + 1) (c.embed s) = ((shift c.offset nodes ++ ·) <$> runsUpTo (m + 1)) (c.embed t)

namespace Continues

variable {count : Nat} {s t : State}

theorem of_rest_eq_nil (h : s.rest = []) : Continues c count s :=
  ⟨[], s, runsUpTo_of_rest_eq_nil h count, h, fun m => by
    show _ = (id <$> runsUpTo (m + 1)) (c.embed s)
    rw [id_map]⟩

theorem of_skipSeparators (hc : c.Precedes)
    (h : Continues c count (s.skipSeparators separatesStatements)) : Continues c count s := by
  obtain ⟨nodes, t, hrun, ht, hembed⟩ := h
  refine ⟨nodes, t, (runsUpTo_skipSeparators count s).symm.trans hrun, ht, fun m => ?_⟩
  rw [← hembed m, ← hc.skipSeparators, runsUpTo_skipSeparators]

/-- A statement that is read first is one node more in both. -/
theorem of_statement {node? : Option Node} (hs : Fits c level s) (hends : ¬ s.endsMembers)
    (hsep : ¬ s.isAt .semicolon) (hrun : statement (blockWithin maxDepth) s = (.ok node?, t))
    (hembed : statement (blockWithin maxDepth) (c.embed s) =
      (.ok (shift c.offset node?), c.embed t))
    (h : Continues c count t) : Continues c count s := by
  obtain ⟨nodes, u, hothers, hu, hbehind⟩ := h
  refine ⟨node?.toList ++ nodes, u, ?_, hu, fun m => ?_⟩
  · rw [runsUpTo_of_statement hends hsep hrun]
    exact map_apply_ok _ hothers
  · rw [runsUpTo_of_statement (hs.endsMembers ▸ hends) (hs.isAt _ ▸ hsep) hembed,
      map_apply_trans _ _ (hbehind m)]
    have hnodes : ∀ others, (shift c.offset node?).toList ++ (shift c.offset nodes ++ others) =
        shift c.offset (node?.toList ++ nodes) ++ others := fun others => by
      cases node? <;> simp
    simp only [hnodes]

end Continues

theorem runsUpTo_embed (hc : c.Precedes) (count : Nat) {s : State}
    (hs : s.rest = [] ∨ Fits c level s) (herrors : (runsUpTo (count + 1) s).2.errors = [])
    (hkeeps : .gaveBack true ∉ (runsUpTo (count + 1) s).2.journal) : Continues c count s := by
  induction hlength : s.rest.length using Nat.strongRecOn generalizing s with
  | ind length ih =>
    refine .of_skipSeparators hc ?_
    rw [← runsUpTo_skipSeparators] at herrors hkeeps
    have hle := length_skipSeparators_le separatesStatements s
    have hsep := not_isAt_skipSeparators s
    have hfits : (s.skipSeparators separatesStatements).rest ≠ [] →
        Fits c level (s.skipSeparators separatesStatements) := fun hne => by
      have hs := hs.resolve_left fun hnil => hne (by
        rwa [State.skipSeparators, State.advance_of_rest_eq_nil hnil])
      exact (hs.skipSeparators (by decide) (by decide) (hc.bounds.calm hne fun hmem =>
        hkeeps ((Forward.leadsTo _).journal.subset hmem))).2
    generalize s.skipSeparators separatesStatements = u at hle hsep hfits herrors hkeeps ⊢
    by_cases hends : u.endsMembers
    · exact .of_rest_eq_nil (rest_eq_nil_of_errors_eq_nil hends herrors)
    obtain ⟨node?, t, hrun⟩ := statement_of_errors_eq_nil hends hsep herrors
    have hu := hfits (ne_nil_of_not_endsMembers hends)
    rw [runsUpTo_of_statement hends hsep hrun, snd_map_apply] at herrors hkeeps
    have hlt := consumes_statement u t node? hends hrun
    obtain ⟨hembed, ht⟩ := statement_embed hc hu hrun fun hmem =>
      hkeeps ((Forward.leadsTo t).journal.subset hmem)
    exact .of_statement hu hends hsep hrun hembed (ih _ (by omega) ht herrors hkeeps rfl)

end

end DeclSchema.Parser
