import DeclSchema.Proofs.Parser.WalkingStatements

/-!
# Return types that are given back

A return type is first read as a type. Where it is given back, the tokens are left as they were
and the errors that were recorded meanwhile are dropped, but documentation that was taken stays
taken. It is taken by members of type literals only, so behind an opening brace.
-/

namespace DeclSchema.Parser

/-- At the place a token ahead starts, or the source ends. -/
def State.Ahead (s : State) (place : Nat) : Prop :=
  ∃ count, place = (s.advance count).start

/-- At the place a token ahead starts, or the source ends, and a brace is opened before. -/
def State.BehindBrace (s : State) (place : Nat) : Prop :=
  ∃ count, (∃ token ∈ s.rest.take count, token.kind = .lBrace) ∧ place = (s.advance count).start

/-- Of the documentation exactly that at some places is taken, and the places satisfy a
predicate. -/
def TakesAt (P : Nat → Prop) (docs left : List (Nat × List DocTag)) : Prop :=
  ∃ places : List Nat, left = docs.filter (·.1 ∉ places) ∧ ∀ place ∈ places, P place

/-- Where documentation is taken on a walk. -/
def Course.Takes : Course → State → Nat → Prop
  | .part _ => State.BehindBrace
  | _ => State.Ahead

section

variable {s t : State} {place : Nat} {P Q : Nat → Prop} {docs left less : List (Nat × List DocTag)}

theorem State.BehindBrace.ahead (h : s.BehindBrace place) : s.Ahead place :=
  h.imp fun _ => And.right

theorem State.start_advance_of_append {skipped : List Token} (hrest : s.rest = skipped ++ t.rest)
    (hlength : t.length = s.length) (count : Nat) :
    (t.advance count).start = (s.advance (skipped.length + count)).start := by
  apply Follows.start_eq
  · rw [State.rest_advance, State.rest_advance, hrest, ← List.drop_drop, List.drop_left]
  · exact hlength

theorem State.Ahead.of_suffix (h : t.Ahead place) (hrest : t.rest <:+ s.rest)
    (hlength : t.length = s.length) : s.Ahead place := by
  obtain ⟨count, rfl⟩ := h
  obtain ⟨skipped, hskipped⟩ := hrest
  exact ⟨skipped.length + count, State.start_advance_of_append hskipped.symm hlength count⟩

theorem State.BehindBrace.of_suffix (h : t.BehindBrace place) (hrest : t.rest <:+ s.rest)
    (hlength : t.length = s.length) : s.BehindBrace place := by
  obtain ⟨count, ⟨brace, hbrace, hkind⟩, rfl⟩ := h
  obtain ⟨skipped, hskipped⟩ := hrest
  refine ⟨skipped.length + count, ⟨brace, ?_, hkind⟩,
    State.start_advance_of_append hskipped.symm hlength count⟩
  rw [← hskipped, List.take_length_add_append]
  exact List.mem_append_right _ hbrace

/-- What is ahead behind an opening brace is behind a brace. -/
theorem State.BehindBrace.of_ahead {opening : Token} {rest : List Token}
    (hrest : s.rest = opening :: rest) (hopening : opening.kind = .lBrace)
    (h : (s.advance 1).Ahead place) : s.BehindBrace place := by
  obtain ⟨count, rfl⟩ := h
  refine ⟨1 + count, ⟨opening, ?_, hopening⟩, ?_⟩
  · rw [hrest, Nat.add_comm, List.take_succ_cons]
    exact List.mem_cons_self
  · rw [State.advance_advance]

theorem TakesAt.refl (docs : List (Nat × List DocTag)) : TakesAt P docs docs :=
  ⟨[], by simp, List.forall_mem_nil _⟩

theorem TakesAt.one (h : P place) (docs : List (Nat × List DocTag)) :
    TakesAt P docs (docs.filter (·.1 != place)) := by
  refine ⟨[place], List.filter_congr fun doc _ => ?_, List.forall_mem_singleton.mpr h⟩
  simp [bne, beq_eq_decide]

theorem TakesAt.mono (h : TakesAt P docs left) (hPQ : ∀ place, P place → Q place) :
    TakesAt Q docs left := by
  obtain ⟨places, hleft, hplaces⟩ := h
  exact ⟨places, hleft, fun place hplace => hPQ place (hplaces place hplace)⟩

theorem TakesAt.trans (h : TakesAt P docs left) (h' : TakesAt P left less) :
    TakesAt P docs less := by
  obtain ⟨places, rfl, hplaces⟩ := h
  obtain ⟨more, rfl, hmore⟩ := h'
  refine ⟨places ++ more, ?_, List.forall_mem_append.mpr ⟨hplaces, hmore⟩⟩
  rw [List.filter_filter]
  refine List.filter_congr fun doc _ => ?_
  simp [Bool.and_comm]

/-- Where no documentation stands at such a place, none is taken. -/
theorem TakesAt.eq_of_forall (h : TakesAt P docs left) (hdocs : ∀ doc ∈ docs, ¬ P doc.1) :
    left = docs := by
  obtain ⟨places, rfl, hplaces⟩ := h
  refine List.filter_eq_self.mpr fun doc hdoc => decide_eq_true fun hplace => ?_
  exact hdocs doc hdoc (hplaces doc.1 hplace)

theorem Course.Takes.of_suffix {course : Course} (h : course.Takes t place)
    (hrest : t.rest <:+ s.rest) (hlength : t.length = s.length) : course.Takes s place := by
  cases course with
  | part => exact State.BehindBrace.of_suffix h hrest hlength
  | _ => exact State.Ahead.of_suffix h hrest hlength

end

theorem takesAt_takeTags (s : State) : TakesAt s.Ahead s.docs s.takeTags.docs :=
  .one ⟨0, rfl⟩ s.docs

theorem takesAt_behindDecorators (s : State) :
    TakesAt s.Ahead s.docs s.behindDecorators.takeTags.docs := by
  refine (takesAt_takeTags s).trans ((takesAt_takeTags s.behindDecorators).mono fun place h => ?_)
  exact h.of_suffix (List.drop_suffix _ _) rfl

/-- Within a part of a statement only documentation behind an opening brace is taken. -/
theorem Walk.takesAt {course : Course} {s t : State} (h : Walk course s t) :
    TakesAt (course.Takes s) s.docs t.docs := by
  -- What is taken later is ahead from the first state on, too.
  have hlater : ∀ {course : Course} (course' : Course) {s t u : State}, Walk course s t →
      TakesAt (course'.Takes t) t.docs u.docs → TakesAt (course'.Takes s) t.docs u.docs :=
    fun _ _ _ _ hst htu => htu.mono fun place hplace =>
      hplace.of_suffix hst.leadsTo.rest hst.length
  induction h with
  | stay | stop | refuse | pass | ended => exact .refl _
  | trans hst _ ih ih' => exact ih.trans (hlater (.part _) hst ih')
  | separated hst _ ih ih' =>
    exact (ih.mono fun _ => State.BehindBrace.ahead).trans (hlater .members hst ih')
  | read hst _ _ ih ih' => exact ih.trans (hlater .members hst ih')
  | enclosed _ _ _ _ _ ih | unclosed _ _ _ ih =>
    exact ih.mono fun place hplace => State.BehindBrace.of_suffix hplace (List.drop_suffix _ _) rfl
  | braced hrest hopening _ _ ih | unbraced hrest hopening _ ih =>
    exact ih.mono fun place hplace => .of_ahead hrest hopening hplace
  | @deeper course s t _ _ ih => cases course <;> exact ih
  | returned _ ih | gaveBack _ _ ih | finished _ ih => exact ih
  | documented _ _ ih =>
    refine (takesAt_takeTags _).trans (ih.mono fun place hplace => ?_)
    exact hplace.ahead
  | @decorated _ s t _ _ ih | @passed s t _ _ _ _ ih | @declared s t _ _ _ _ ih =>
    refine (takesAt_behindDecorators s).trans (ih.mono fun place hplace => ?_)
    exact hplace.ahead.of_suffix (List.drop_suffix _ _) rfl
  | @recovered s t u error count hst _ _ htu ih ih' =>
    refine ih.trans (ih'.mono fun place hplace => ?_)
    exact hplace.of_suffix ((List.drop_suffix _ _).trans hst.leadsTo.rest) hst.length
  | @stray s t u hst _ htu ih ih' =>
    refine ih.trans (ih'.mono fun place hplace => ?_)
    exact hplace.of_suffix ((List.drop_suffix _ _).trans hst.leadsTo.rest) hst.length

/-- Whether the return type ahead is given back where types may have `levels` levels. -/
def State.givesBack (s : State) (levels : Nat) (withBody : Bool) : Bool :=
  let (result, t) := typeWithin levels s
  !(result.isOk && (s.keepErrors t).endsReturnType withBody)

/-- Giving a return type back leaves the state behind the tokens that are passed over, with the
errors and the depth of nesting that it had. Of the documentation that is missing what was taken
meanwhile: it stood behind an opening brace ahead. Where none stands there, only the journal
tells that a type was read. -/
theorem returnType_given_back (s : State) (levels : Nat) (withBody : Bool)
    (h : s.givesBack levels withBody) :
    ∃ t, returnType (typeWithin levels) withBody s = (.ok (), t) ∧
      t = { s.advance (returnTypeLength withBody true 0 s.rest) with
        docs := (typeWithin levels s).2.docs, journal := t.journal } ∧
      TakesAt s.BehindBrace s.docs t.docs ∧
      ((∀ doc ∈ s.docs, ¬ s.BehindBrace doc.1) →
        t = { s.advance (returnTypeLength withBody true 0 s.rest) with journal := t.journal }) := by
  have hwalk : Walk _ s _ := walks_typeWithin levels s
  have htakes := hwalk.takesAt
  have hdepth := hwalk.depth
  have hlength := hwalk.length
  have herrors := (List.prefix_iff_eq_take.mp hwalk.leadsTo.errors).symm
  unfold State.givesBack at h
  rcases hrun : typeWithin levels s with ⟨result, t⟩
  rw [hrun] at h htakes hdepth hlength herrors
  have hback : s.giveBack t = { s with docs := t.docs, journal := (s.giveBack t).journal } := by
    unfold State.giveBack State.keepErrors State.note
    dsimp only at hdepth hlength herrors ⊢
    rw [hdepth, hlength, herrors]
  have hgiven : (s.giveBack t).advance (returnTypeLength withBody true 0 s.rest) =
      { s.advance (returnTypeLength withBody true 0 s.rest) with
        docs := t.docs, journal := (s.giveBack t).journal } :=
    congrArg (State.advance · _) hback
  refine ⟨(s.giveBack t).advance (returnTypeLength withBody true 0 s.rest), ?_, hgiven, htakes, ?_⟩
  · rw [returnType_apply withBody hrun]
    exact if_neg (Bool.eq_false_iff.mp ((Bool.not_eq_true' _).mp h))
  · intro hdocs
    have hsame : t.docs = s.docs := TakesAt.eq_of_forall htakes hdocs
    rw [hsame] at hgiven
    exact hgiven

/-- A method whose return type is a type literal that is given back. A member of the literal is
documented. -/
def documentedReturn : String :=
  "interface A \x7b m(): \x7b a: >; /** @t */ b: C \x7d x \x7d"

/-- The type literal is passed over up to its semicolon, without errors and at the same depth. -/
theorem returnType_given_back_literal :
    ((State.ofSource documentedReturn).advance 7).givesBack maxDepth false ∧
      ∃ t, returnType (typeWithin maxDepth) false ((State.ofSource documentedReturn).advance 7) =
        (.ok (), t) ∧ t.errors = [] ∧ t.depth = 0 := by
  have hback : ((State.ofSource documentedReturn).advance 7).givesBack maxDepth false := by
    decide +kernel
  obtain ⟨t, hrun, ht, -⟩ := returnType_given_back _ _ _ hback
  refine ⟨hback, t, hrun, ?_, ?_⟩
  · rw [ht]
    rfl
  · rw [ht]
    rfl

/-- The documentation of the member `b` is taken while the return type is read as a type, and it
is missing where `b` is read again as a member of the interface. -/
theorem not_returnType_untouched :
    (¬ ∀ (s : State) (levels : Nat) (withBody : Bool), s.givesBack levels withBody →
      (returnType (typeWithin levels) withBody s).2.docs = s.docs) ∧
    (State.ofSource documentedReturn).docs = [(37, [⟨"t", none⟩])] ∧
    ∃ node ∈ (Parse.ofSource documentedReturn).root.descendants,
      node.kind = .propertySignature ∧ node.span.start = 37 ∧ node.tags = [] := by
  have hdocs : (State.ofSource documentedReturn).docs = [(37, [⟨"t", none⟩])] := by
    decide +kernel
  have hback : ((State.ofSource documentedReturn).advance 7).givesBack maxDepth false := by
    decide +kernel
  have htaken : (returnType (typeWithin maxDepth) false
      ((State.ofSource documentedReturn).advance 7)).2.docs = [] := by
    decide +kernel
  have hmember : (Parse.ofSource documentedReturn).root.descendants.any fun node =>
      node.kind = .propertySignature ∧ node.span.start = 37 ∧ node.tags = [] := by
    decide +kernel
  refine ⟨fun huntouched => ?_, hdocs, ?_⟩
  · have hsame := huntouched _ maxDepth false hback
    rw [htaken, State.docs_advance, hdocs] at hsame
    cases hsame
  · obtain ⟨node, hnode, hall⟩ := List.any_eq_true.mp hmember
    exact ⟨node, hnode, of_decide_eq_true hall⟩

end DeclSchema.Parser
