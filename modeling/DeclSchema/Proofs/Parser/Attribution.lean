import DeclSchema.Extraction.Basic
import DeclSchema.Proofs.Parser.Order

/-!
# Errors belong to the declaration they start in

The journal of a run tells which errors were recorded while a statement was read. For
interfaces and classes the spans tell the same: an error starts in the span of the node
exactly if it was recorded during the statement that became the node.

An error recorded during the statement starts at a token the statement has read, since
a statement that becomes a node is orderly. An error recorded before starts before the
statement: this is what `Settled` says, and it holds wherever a statement begins, though
not at a closing brace or at the end, where an error may be left at the next token. An
error recorded after starts behind the statement.
-/

namespace DeclSchema

namespace Parser

open Node

/-- No restriction on events. -/
def Any : Event → Prop :=
  fun _ => True

section

variable {J : Event → Prop} {α : Type} {p : Parser α} {P : α → Prop} {block : Parser (List Node)}

theorem Follows.any {s t : State} {b : Nat} (h : Follows J s t b) : Follows Any s t b := by
  obtain ⟨events, hevents, -⟩ := h.journal
  exact { h with journal := ⟨events, hevents, fun _ _ => trivial⟩ }

theorem Orderly.any (h : Orderly J p P) : Orderly Any p fun _ => True := by
  intro s hs
  have hstep := h s hs
  rcases hp : p s with ⟨error | a, t⟩ <;> rw [hp] at hstep
  · exact ⟨hstep.1.any, hstep.2⟩
  · exact ⟨hstep.1.any, trivial⟩

theorem orderly_moduleParts (h : Trailing Any block fun _ => True) :
    Orderly Any (moduleParts block) fun _ => True := by
  refine .bind orderly_moduleName.any fun name _ => .look fun s => .ite ?_ ?_
  · exact .bind (orderly_braced h) fun _ _ => .look fun _ => .pure trivial
  · exact .bind (orderly_accept _) fun _ _ => .pure trivial

theorem orderly_parts (h : Trailing Any block fun _ => True) (heading : Heading) :
    Orderly Any (heading.parts block) fun _ => True := by
  cases heading with
  | ofInterface => exact orderly_interfaceParts.any
  | ofClass => exact orderly_classParts.any
  | ofTypeAlias => exact orderly_typeAliasParts.any
  | ofEnum => exact orderly_enumParts.any
  | ofModule => exact orderly_moduleParts h

theorem orderly_declaration (h : Trailing Any block fun _ => True) (first : State)
    (tags : List DocTag) (words : List Node) (heading : Heading) :
    Orderly Any (declaration block first tags words heading) fun _ => True := by
  refine .bind (orderly_parts h heading) fun parts _ => .look fun last => ?_
  exact .bind (orderly_note trivial) fun _ _ => .pure trivial

theorem takeDocs_eq_ok (s : State) : ∃ tags t, takeDocs s = (.ok tags, t) := by
  unfold takeDocs
  split <;> exact ⟨_, _, rfl⟩

/-- A statement is passed over, or it is a declaration behind a head in which nothing is
recorded. -/
theorem statement_cases (block : Parser (List Node)) {s : State} (hs : s.Ordered) :
    (∃ t, statement block s = (.ok none, t) ∧ Follows Quiet s t t.prevEnd) ∨
      ∃ u tags words heading,
        statement block s = declaration block s tags words heading u ∧
          Follows Quiet s u u.prevEnd ∧ AllPlain words := by
  obtain ⟨before, s₁, h₁⟩ := takeDocs_eq_ok s
  obtain ⟨hto₁, -⟩ := orderly_takeDocs.of_ok (J := Quiet) hs h₁
  have h₂ : skipDecorators s₁ = (.ok (), s₁.advance (decoratorsLength s₁.rest)) := rfl
  obtain ⟨hto₂, -⟩ := orderly_skipDecorators.of_ok hto₁.ordered h₂
  obtain ⟨behind, s₃, h₃⟩ := takeDocs_eq_ok (s₁.advance (decoratorsLength s₁.rest))
  obtain ⟨hto₃, -⟩ := orderly_takeDocs.of_ok (J := Quiet) hto₂.ordered h₃
  have h₄ : modifiers statementModifier s₃ =
      (.ok (leadingModifiers statementModifier false s₃.rest).1,
        s₃.advance (leadingModifiers statementModifier false s₃.rest).2) := rfl
  obtain ⟨hto₄, hwords⟩ :=
    (orderly_modifiers declares_of_statementModifier).of_ok hto₃.ordered h₄
  have hhead := (hto₁.andThen hto₂).andThen (hto₃.andThen hto₄)
  generalize s₃.advance (leadingModifiers statementModifier false s₃.rest).2 = v at *
  unfold statement
  rw [look_bind_apply, bind_apply_ok h₁, bind_apply_ok h₂,
    bind_apply_ok h₃, bind_apply_ok h₄, look_bind_apply]
  have hon := fun count => hhead.andThen (.advance hhead.ordered count _)
  cases v.heading? with
  | none => exact .inl ⟨_, rfl, hon _⟩
  | some found => exact .inr ⟨_, _, _, _, rfl, hon found.2, hwords⟩

theorem orderly_statement (h : Trailing Any block fun _ => True) :
    Orderly Any (statement block) fun _ => True := by
  intro s hs
  rcases statement_cases block hs with ⟨t, hrun, hto⟩ | ⟨u, tags, words, heading, hrun, hto, -⟩
  · rw [hrun]
    exact ⟨hto.any, trivial⟩
  · rw [hrun]
    have hrest := orderly_declaration h s tags words heading u hto.ordered
    rcases hd : declaration block s tags words heading u with ⟨error | node?, t⟩ <;>
      rw [hd] at hrest
    · have hle := hrest.1.start_le_start
      have hprev := hto.ordered.prevEnd_le_start
      exact ⟨hto.any.trans hrest.1 (by omega), hrest.2⟩
    · exact ⟨hto.any.andThen hrest.1, trivial⟩

theorem trailing_statements (h : Trailing Any block fun _ => True) :
    Trailing Any (statements block) fun _ => True :=
  have hm : Orderly Any (statement block) fun node? => ∀ node ∈ node?, True :=
    (orderly_statement h).mono fun _ _ _ _ => trivial
  Trailing.mono (.members hm) fun _ _ => trivial

theorem trailing_blockWithin (levels : Nat) :
    Trailing Any (blockWithin levels) fun _ => True := by
  induction levels with
  | zero => exact (orderly_refuse trivial).trailing
  | succ levels ih => exact (trailing_statements ih).nested trivial

end

/-- The event agrees with what is recorded. The errors from before, from during and from
after the reading of a declared node make up all errors, and those from during are the
ones in its span. What is recorded from `start` on does not lie in it. -/
def Event.Exact (errors : List ParseError) (start : Nat) : Event → Prop
  | .declared node before after => node.kind.declares →
      node.span.stop ≤ start ∧ ∃ during later, after = before ++ during ∧ errors = after ++ later ∧
        (∀ error ∈ during, node.span.contains error.span.start) ∧
          ∀ error ∈ before ++ later, ¬ node.span.contains error.span.start
  | _ => True

namespace State

/-- All that the journal tells is exact. -/
def Attributed (s : State) : Prop :=
  ∀ event ∈ s.journal, event.Exact s.errors s.start

/-- No error is recorded at the next token. -/
def Settled (s : State) : Prop :=
  ∀ error ∈ s.errors, error.span.start < s.start

/-- Each interface and each class among the nodes is in the journal. -/
def Declares (s : State) (nodes : List Node) : Prop :=
  ∀ node ∈ preorder.preorderList nodes, node.kind.declares →
    ∃ before after, .declared node before after ∈ s.journal

end State

section

variable {J : Event → Prop} {s t : State} {b : Nat}

/-- What is exact stays exact, as errors come only behind it. -/
theorem Event.Exact.of_follows {event : Event} (h : event.Exact s.errors s.start)
    (hst : Follows J s t b) : event.Exact t.errors t.start := by
  cases event with
  | refused => trivial
  | gaveBack => trivial
  | declared node before after =>
    intro hkind
    obtain ⟨hstop, during, later, hafter, hall, hin, hout⟩ := h hkind
    obtain ⟨errors, herrors, hspan⟩ := hst.errors
    have hstart := hst.start_le_start
    refine ⟨by omega, during, later ++ errors, hafter, ?_, hin, fun error he => ?_⟩
    · rw [herrors, hall, List.append_assoc]
    · rw [← List.append_assoc, List.mem_append] at he
      rcases he with he | he
      · exact hout error he
      · have := hspan error he
        rw [Span.contains_iff]
        omega

theorem State.Attributed.of_follows (h : s.Attributed) (hst : Follows Quiet s t b) :
    t.Attributed := by
  obtain ⟨events, hevents, hquiet⟩ := hst.journal
  intro event he
  rw [hevents, List.mem_append] at he
  rcases he with he | he
  · exact (h event he).of_follows hst
  · cases event with
    | refused => trivial
    | gaveBack => trivial
    | declared node before after => exact absurd (hquiet _ he) id

theorem State.Settled.of_follows (h : s.Settled) (hst : Follows J s t b) (hb : b ≤ t.start) :
    t.Settled := by
  obtain ⟨errors, herrors, hspan⟩ := hst.errors
  have hstart := hst.start_le_start
  intro error he
  rw [herrors, List.mem_append] at he
  rcases he with he | he
  · have := h error he
    omega
  · have := hspan error he
    omega

/-- After a failure an error may be at the next token, but not behind it. -/
theorem State.Settled.errors_le (h : s.Settled) (hst : Follows J s t (t.start + 1)) :
    ∀ error ∈ t.errors, error.span.start < t.start + 1 := by
  obtain ⟨errors, herrors, hspan⟩ := hst.errors
  have hstart := hst.start_le_start
  intro error he
  rw [herrors, List.mem_append] at he
  rcases he with he | he
  · have := h error he
    omega
  · exact (hspan error he).2

theorem State.Declares.of_follows {nodes : List Node} (h : s.Declares nodes)
    (hst : Follows J s t b) : t.Declares nodes := by
  obtain ⟨events, hevents, -⟩ := hst.journal
  intro node hnode hkind
  obtain ⟨before, after, he⟩ := h node hnode hkind
  exact ⟨before, after, by rw [hevents]; exact List.mem_append_left _ he⟩

theorem State.declares_of_allPlain {nodes : List Node} (h : AllPlain nodes) :
    s.Declares nodes := by
  intro node hnode hkind
  obtain ⟨root, hroot, hmem⟩ := mem_preorderList.mp hnode
  exact absurd hkind (by rw [h root hroot node hmem]; decide)

theorem State.declares_append {first second : List Node} :
    s.Declares (first ++ second) ↔ s.Declares first ∧ s.Declares second := by
  simp only [State.Declares, preorderList_append, List.mem_append]
  grind

theorem State.declares_singleton {node : Node} :
    s.Declares [node] ↔
      (node.kind.declares → ∃ before after, .declared node before after ∈ s.journal) ∧
        s.Declares node.children := by
  simp only [State.Declares, preorder.preorderList, List.append_nil, preorder_eq, List.mem_cons,
    forall_eq_or_imp]

theorem State.declares_cons {node : Node} {nodes : List Node} :
    s.Declares (node :: nodes) ↔ s.Declares [node] ∧ s.Declares nodes := by
  rw [← List.singleton_append, State.declares_append]

end

/-- Run where no error is recorded at the next token, the parser keeps all that the
journal tells exact, and tells of every interface and class it gives. -/
def Attributes (p : Parser α) (nodes : α → List Node) : Prop :=
  ∀ s : State, s.Ordered → s.Settled → s.Attributed →
    (p s).2.Attributed ∧ ∀ a, (p s).1 = .ok a → (p s).2.Declares (nodes a)

section

variable {p : Parser α} {f : α → Parser β} {P : α → Prop} {N : α → List Node}
  {M : β → List Node} {block : Parser (List Node)}

theorem Orderly.attributes (h : Orderly Quiet p P) (hP : ∀ a, P a → AllPlain (N a)) :
    Attributes p N := by
  intro s hs _ ha
  have hstep := h s hs
  rcases hp : p s with ⟨error | a, t⟩ <;> rw [hp] at hstep
  · exact ⟨ha.of_follows hstep.1, fun _ h => by cases h⟩
  · refine ⟨ha.of_follows hstep.1, fun _ h => ?_⟩
    cases h
    exact State.declares_of_allPlain (hP a hstep.2)

theorem Attributes.bind_quiet (hp : Orderly Quiet p P) (hf : ∀ a, P a → Attributes (f a) M) :
    Attributes (p >>= f) M := by
  intro s hs hsettled ha
  rcases h : p s with ⟨error | a, t⟩
  · rw [bind_apply_error h]
    exact ⟨ha.of_follows (hp.of_error hs h).1, fun _ h => by cases h⟩
  · rw [bind_apply_ok h]
    obtain ⟨hst, hP⟩ := hp.of_ok hs h
    exact hf a hP t hst.ordered (hsettled.of_follows hst hst.ordered.prevEnd_le_start)
      (ha.of_follows hst)

/-- What is read quietly behind a parser may make new nodes around those of the parser. -/
theorem Attributes.bind (ht : Trailing Any p fun _ => True) (hp : Attributes p N)
    (hf : ∀ a, Orderly Quiet (f a) fun b =>
      ∀ u : State, u.Declares (N a) → u.Declares (M b)) :
    Attributes (p >>= f) M := by
  intro s hs hsettled ha
  have hgo := ht s hs
  obtain ⟨htold, hdeclared⟩ := hp s hs hsettled ha
  rcases h : p s with ⟨error | a, t⟩ <;> rw [h] at hgo htold hdeclared
  · rw [bind_apply_error h]
    exact ⟨htold, fun _ h => by cases h⟩
  · rw [bind_apply_ok h]
    rcases hrun : f a t with ⟨error | b, u⟩
    · exact ⟨htold.of_follows ((hf a).of_error hgo.1.ordered hrun).1, fun _ h => by cases h⟩
    · obtain ⟨htu, hresult⟩ := (hf a).of_ok hgo.1.ordered hrun
      refine ⟨htold.of_follows htu, fun _ h => ?_⟩
      cases h
      exact hresult u ((hdeclared a rfl).of_follows htu)

theorem Attributes.nested (h : Attributes p N) : Attributes (nested p) N := by
  intro s hs hsettled ha
  unfold Parser.nested
  split
  · exact (orderly_refuse (P := fun _ => False) quiet_refused).attributes
      (fun _ hfalse => hfalse.elim) s hs hsettled ha
  · exact h { s with depth := s.depth + 1 } hs hsettled ha

theorem Attributes.look {f : State → Parser β} (hf : ∀ s, Attributes (f s) M) :
    Attributes (Parser.look >>= f) M :=
  fun s hs => hf s s hs

theorem Attributes.ite {c : Prop} [Decidable c] {q : Parser α} (hp : Attributes p N)
    (hq : Attributes q N) : Attributes (if c then p else q) N := by
  split
  · exact hp
  · exact hq

theorem attributes_moduleParts (ht : Trailing Any block fun _ => True)
    (hblock : Attributes block id) : Attributes (moduleParts block) id := by
  refine .bind_quiet orderly_moduleName fun name hname => .look fun s => .ite ?_ ?_
  · refine .bind (orderly_braced ht).trailing (N := id) ?_ fun statements =>
      .look fun last => .pure fun u hu => ?_
    · refine .bind_quiet (orderly_expect _) fun _ _ => .bind ht hblock fun nodes => ?_
      exact .bind (orderly_expect _) fun _ _ => .pure fun _ h => h
    · have hplain : AllPlain [name] := by simpa using hname
      refine State.declares_cons.mpr ⟨State.declares_of_allPlain hplain, ?_⟩
      exact State.declares_singleton.mpr ⟨fun h => absurd h Bool.false_ne_true, hu⟩
  · refine Orderly.attributes (P := AllPlain) ?_ fun _ h => h
    exact .bind (orderly_accept _) fun _ _ => .pure (by simpa using hname)

theorem attributes_parts (ht : Trailing Any block fun _ => True)
    (hblock : Attributes block id) (heading : Heading) :
    Attributes (heading.parts block) id := by
  cases heading with
  | ofInterface => exact orderly_interfaceParts.attributes fun _ h => h
  | ofClass => exact orderly_classParts.attributes fun _ h => h
  | ofTypeAlias => exact orderly_typeAliasParts.attributes fun _ h => h
  | ofEnum => exact orderly_enumParts.attributes fun _ h => h
  | ofModule => exact attributes_moduleParts ht hblock

/-- The node that ends in `t` and was begun in `s` has exactly the errors in its span
that were recorded in between. -/
theorem exact_declared {s t : State} (hsettled : s.Settled) (hst : Follows Any s t t.prevEnd)
    {node : Node} (hspan : node.span = Span.ofBounds s.start t.prevEnd) :
    (Event.declared node s.errors t.errors).Exact t.errors t.start := by
  intro _
  obtain ⟨during, hduring, hbetween⟩ := hst.errors
  have hstart := hst.start_le_start
  have hprev := hst.ordered.prevEnd_le_start
  rw [hspan]
  refine ⟨Nat.max_le.mpr ⟨hprev, hstart⟩, during, [], hduring, (List.append_nil _).symm, ?_, ?_⟩
  · intro error he
    obtain ⟨hle, hlt⟩ := hbetween error he
    exact Span.contains_iff.mpr ⟨hle, Nat.lt_of_lt_of_le hlt (Nat.le_max_left _ _)⟩
  · intro error he hcontains
    have hlt := hsettled error (by simpa using he)
    have hle := (Span.contains_iff.mp hcontains).1
    exact absurd hle (Nat.not_le_of_lt hlt)

theorem attributes_statement (ht : Trailing Any block fun _ => True)
    (hblock : Attributes block id) : Attributes (statement block) Option.toList := by
  intro s hs hsettled ha
  rcases statement_cases block hs with
    ⟨t, hrun, hst⟩ | ⟨u, tags, words, heading, hrun, hsu, hwords⟩
  · rw [hrun]
    refine ⟨ha.of_follows hst, fun _ h => ?_⟩
    cases h
    exact State.declares_of_allPlain (by simp)
  · have hsettled' := hsettled.of_follows hsu hsu.ordered.prevEnd_le_start
    obtain ⟨htold, hdeclared⟩ := attributes_parts ht hblock heading u hsu.ordered hsettled'
      (ha.of_follows hsu)
    rcases hparts : heading.parts block u with ⟨error | parts, t⟩ <;>
      rw [hparts] at htold hdeclared
    · rw [hrun, declaration_of_error hparts]
      exact ⟨htold, fun _ h => by cases h⟩
    · rw [hrun, declaration_of_parts hparts]
      obtain ⟨hut, -⟩ := (orderly_parts ht heading).of_ok hsu.ordered hparts
      have hst := hsu.any.andThen hut
      generalize hnode : heading.node s t tags (words ++ parts) = node
      generalize hevent : Event.declared node s.errors t.errors = event
      refine ⟨fun e he => ?_, fun _ h => ?_⟩
      · rcases List.mem_append.mp he with he | he
        · exact htold e he
        · rw [List.mem_singleton.mp he, ← hevent]
          exact exact_declared hsettled hst (by rw [← hnode]; rfl)
      · cases h
        have hnote : Follows Any t (t.note event) 0 := .note hst.ordered trivial 0
        have hchildren : (t.note event).Declares (words ++ parts) :=
          State.declares_append.mpr
            ⟨State.declares_of_allPlain hwords, (hdeclared parts rfl).of_follows hnote⟩
        refine State.declares_singleton.mpr ⟨fun _ => ?_, by rw [← hnode]; exact hchildren⟩
        exact ⟨_, _, List.mem_append_right _ (List.mem_singleton.mpr hevent)⟩

end

theorem start_lt_start_advance {s : State} (hs : s.Ordered) {count : Nat} (hcount : 0 < count)
    (hrest : s.rest ≠ []) : s.start < (s.advance count).start := by
  have hto := Follows.advance (J := Quiet) hs count 0
  have hprev := hto.ordered.prevEnd_le_start
  rcases hto.moved with ⟨heq, -⟩ | hmoved
  · have hdrop : (s.rest.drop count).length = s.rest.length := congrArg List.length heq
    have hpos := List.length_pos_iff.mpr hrest
    rw [List.length_drop] at hdrop
    omega
  · omega

theorem recovers_statementLength : Recovers (statementLength true 0) := by
  intro tokens h
  cases tokens with
  | nil => simp
  | cons token rest =>
    intro first hfirst
    cases hfirst
    unfold statementLength at h
    grind

/-- Behind a malformed statement no error is at the next token, or the statements end. -/
theorem settled_or_ends_recover {s : State} (hs : s.Ordered) {error : ParseError}
    (herror : error.span.start = s.start) (hbound : ∀ e ∈ s.errors, e.span.start < s.start + 1) :
    (s.recover (statementLength true 0) error).Settled ∨
      (s.recover (statementLength true 0) error).endsMembers := by
  by_cases hzero : statementLength true 0 s.rest = 0
  · refine .inr (endsMembers_iff.mpr ?_)
    rw [State.recover, hzero, State.advance_zero]
    exact recovers_statementLength _ hzero
  · by_cases hrest : s.rest = []
    · exact absurd (by rw [hrest]; rfl) hzero
    · have hlt := start_lt_start_advance hs (Nat.pos_of_ne_zero hzero) hrest
      refine .inl fun e he => ?_
      rcases List.mem_append.mp he with he | he
      · have := hbound e he
        exact Nat.lt_of_le_of_lt (Nat.le_of_lt_succ this) hlt
      · rw [List.mem_singleton.mp he, herror]
        exact hlt

section

variable {block : Parser (List Node)}

/-- The invariant of the loop over statements is that no error is at the next token,
unless the loop ends there. -/
theorem attributes_statements (ht : Trailing Any block fun _ => True)
    (hblock : Attributes block id) : Attributes (statements block) id := by
  intro s hs hsettled ha
  obtain ⟨nodes, t, hrun, hmotive⟩ := membersUpTo_induction separatesStatements
    (statementLength true 0) (statement block)
    (motive := fun s nodes t => s.Ordered →
      (∃ b, Follows Any s t b) ∧
        (s.Settled ∨ s.endsMembers → s.Attributed → t.Attributed ∧ t.Declares nodes))
    (fun s hs => ⟨⟨0, .refl hs 0⟩, fun _ ha =>
      ⟨ha, State.declares_of_allPlain allPlain_nil⟩⟩)
    (fun s _ hs => ⟨⟨0, .skipSeparators _ hs 0⟩, fun _ ha =>
      ⟨ha.of_follows (.skipSeparators _ hs 0), State.declares_of_allPlain allPlain_nil⟩⟩)
    (by
      intro s node? t nodes u hmore hread ih hs
      have hskip := Follows.skipSeparators (J := Quiet) separatesStatements hs 0
      obtain ⟨hst, -⟩ := (orderly_statement ht).of_ok hskip.ordered hread
      obtain ⟨⟨b, htu⟩, hrest⟩ := ih hst.ordered
      refine ⟨⟨_, (hskip.any.trans_max hst).trans_max htu⟩, fun hstart ha => ?_⟩
      rcases hstart with hsettled | hend
      · have hsettled := hsettled.of_follows hskip (Nat.zero_le _)
        obtain ⟨htold, hnode⟩ := attributes_statement ht hblock _ hskip.ordered hsettled
          (ha.of_follows hskip)
        rw [hread] at htold hnode
        obtain ⟨hresult, hnodes⟩ := hrest
          (.inl (hsettled.of_follows hst hst.ordered.prevEnd_le_start)) htold
        exact ⟨hresult, State.declares_append.mpr ⟨(hnode _ rfl).of_follows htu, hnodes⟩⟩
      · exact absurd (by rwa [skipSeparators_of_endsMembers Bool.false_ne_true hend]) hmore)
    (by
      intro s error t nodes u hmore hread ih hs
      have hskip := Follows.skipSeparators (J := Quiet) separatesStatements hs 0
      obtain ⟨hst, herror⟩ := (orderly_statement ht).of_error hskip.ordered hread
      have hrecover := Follows.recover (J := Quiet) (statementLength true 0) hst.ordered herror
      obtain ⟨⟨b, htu⟩, hrest⟩ := ih hrecover.ordered
      refine ⟨⟨_, ((hskip.any.trans_max hst).trans_max hrecover.any).trans_max htu⟩,
        fun hstart ha => ?_⟩
      rcases hstart with hsettled | hend
      · have hsettled := hsettled.of_follows hskip (Nat.zero_le _)
        obtain ⟨htold, -⟩ := attributes_statement ht hblock _ hskip.ordered hsettled
          (ha.of_follows hskip)
        rw [hread] at htold
        exact hrest (settled_or_ends_recover hst.ordered herror (hsettled.errors_le hst))
          (htold.of_follows hrecover)
      · exact absurd (by rwa [skipSeparators_of_endsMembers Bool.false_ne_true hend]) hmore)
    s.rest.length s
  obtain ⟨-, hresult⟩ := hmotive hs
  obtain ⟨htold, hdeclared⟩ := hresult (.inl hsettled) ha
  rw [statements, members, hrun]
  exact ⟨htold, fun _ h => by cases h; exact hdeclared⟩

theorem attributes_blockWithin (levels : Nat) : Attributes (blockWithin levels) id := by
  induction levels with
  | zero =>
    exact (orderly_refuse (P := fun _ => False) quiet_refused).attributes
      fun _ hfalse => hfalse.elim
  | succ levels ih => exact (attributes_statements (trailing_blockWithin levels) ih).nested

end

/-- The state behind a brace that closes nothing, which is recorded. -/
def State.passStrayBrace (s : State) : State :=
  s.recover (fun _ => 1) (s.errorHere .strayBrace)

theorem runsUpTo_of_isAt (count : Nat) {s t : State} {nodes : List Node}
    (h : statements (blockWithin maxDepth) s = (.ok nodes, t)) (hbrace : t.isAt .rBrace) :
    runsUpTo (count + 1) s = ((nodes ++ ·) <$> runsUpTo count) t.passStrayBrace := by
  rw [runsUpTo, bind_apply_ok h, look_bind_apply, if_pos hbrace]
  rfl

theorem runsUpTo_of_not_isAt (count : Nat) {s t : State} {nodes : List Node}
    (h : statements (blockWithin maxDepth) s = (.ok nodes, t)) (hbrace : ¬ t.isAt .rBrace) :
    runsUpTo (count + 1) s = (.ok nodes, t) := by
  rw [runsUpTo, bind_apply_ok h, look_bind_apply, if_neg hbrace]
  rfl

theorem ne_nil_of_isAt {s : State} {kind : TokenKind} (h : s.isAt kind) : s.rest ≠ [] :=
  fun hrest => not_isAt_of_rest_eq_nil hrest h

/-- A stray brace is recorded where it stands, and read. -/
theorem settled_passStrayBrace {s : State} (hs : s.Ordered) (hbrace : s.isAt .rBrace)
    (hbound : ∀ error ∈ s.errors, error.span.start < s.start + 1) :
    s.passStrayBrace.Settled := by
  have hlt := start_lt_start_advance hs Nat.one_pos (ne_nil_of_isAt hbrace)
  intro error he
  rcases List.mem_append.mp he with he | he
  · exact Nat.lt_of_le_of_lt (Nat.le_of_lt_succ (hbound error he)) hlt
  · rw [List.mem_singleton.mp he, start_errorHere]
    exact hlt

/-- Runs of statements are always read, and attributed. -/
theorem runsUpTo_eq_ok (count : Nat) {s : State} (hs : s.Ordered) (hsettled : s.Settled)
    (ha : s.Attributed) :
    ∃ nodes t, runsUpTo count s = (.ok nodes, t) ∧ (∃ b, Follows Any s t b) ∧ t.Attributed ∧
      t.Declares nodes := by
  induction count generalizing s with
  | zero =>
    exact ⟨[], s, rfl, ⟨0, .refl hs 0⟩, ha, State.declares_of_allPlain allPlain_nil⟩
  | succ count ih =>
    obtain ⟨nodes, t, hrun⟩ : ∃ nodes t, statements (blockWithin maxDepth) s = (.ok nodes, t) :=
      members_eq_ok _ _ _ s
    have hst := trailing_statements (trailing_blockWithin maxDepth) s hs
    obtain ⟨htold, hdeclared⟩ := attributes_statements (trailing_blockWithin maxDepth)
      (attributes_blockWithin maxDepth) s hs hsettled ha
    rw [hrun] at hst htold hdeclared
    obtain ⟨hst, -⟩ := hst
    by_cases hbrace : t.isAt .rBrace
    · have hpass : Follows Quiet t t.passStrayBrace (t.start + 1) :=
        .recover _ hst.ordered (start_errorHere t _)
      obtain ⟨others, u, hrest, ⟨b, htu⟩, htold', hdeclared'⟩ := ih hpass.ordered
        (settled_passStrayBrace hst.ordered hbrace (hsettled.errors_le hst))
        (htold.of_follows hpass)
      have hto := hpass.any.trans_max htu
      refine ⟨nodes ++ others, u, ?_, ⟨_, hst.trans_max hto⟩, htold', ?_⟩
      · rw [runsUpTo_of_isAt count hrun hbrace]
        exact bind_apply_ok hrest
      · exact State.declares_append.mpr ⟨(hdeclared nodes rfl).of_follows hto, hdeclared'⟩
    · exact ⟨nodes, t, runsUpTo_of_not_isAt count hrun hbrace, ⟨_, hst⟩, htold, hdeclared nodes rfl⟩

end Parser

namespace Parse

open DeclSchema.Parser

/-- What happened while a source was read. -/
def journal (source : String) : List Event :=
  (sourceFile (.ofSource source)).2.journal

theorem ofSource_attributed (source : String) :
    ∃ t : State, t.Attributed ∧ t.Declares (ofSource source).root.children ∧
      t.journal = journal source ∧ t.errors = (ofSource source).errors := by
  obtain ⟨nodes, t, hrun, -, htold, hdeclared⟩ := runsUpTo_eq_ok
    ((State.ofSource source).rest.length + 1) (State.ordered_ofSource source)
    (fun _ he => absurd he List.not_mem_nil) (fun _ he => absurd he List.not_mem_nil)
  have hfile : sourceFile (.ofSource source) = (.ok nodes, t) := hrun
  refine ⟨t, htold, ?_, ?_, ?_⟩
  · simpa only [ofSource, hfile, Except.toOption, Option.getD_some] using hdeclared
  · rw [journal, hfile]
  · rw [ofSource, hfile]

/-- An error starts in the span of an interface or a class exactly if it was recorded
while the statement was read that became the node. There is such a statement, and the
errors of the source are those from before it, those from during it, which lie in the
span, and those from after it. The node is extracted as it stands if there are none from
during its statement, and dropped for the first of them otherwise. -/
theorem attribution (source : String) {node : Node}
    (hnode : node ∈ (ofSource source).root.descendants) (hkind : node.kind.declares) :
    (∃ before after, .declared node before after ∈ journal source) ∧
      ∀ before after, .declared node before after ∈ journal source →
        ∃ during later, after = before ++ during ∧ (ofSource source).errors = after ++ later ∧
          (∀ error ∈ during, node.span.contains error.span.start) ∧
          (∀ error ∈ before ++ later, ¬ node.span.contains error.span.start) ∧
          Extraction.outcome (ofSource source) node =
            match during with
            | [] => Extraction.element node
            | error :: _ => .error (.malformed error) := by
  obtain ⟨t, htold, hdeclared, hjournal, herrors⟩ := ofSource_attributed source
  rw [← hjournal]
  constructor
  · rw [Node.descendants_eq, Node.preorder_eq, List.mem_cons] at hnode
    rcases hnode with rfl | hnode
    · exact absurd hkind Bool.false_ne_true
    · exact hdeclared node hnode hkind
  · intro before after hevent
    obtain ⟨-, during, later, hafter, hall, hin, hout⟩ := htold _ hevent hkind
    refine ⟨during, later, hafter, herrors ▸ hall, hin, hout, ?_⟩
    have hwithin : (ofSource source).errorsWithin node.span = during := by
      have hnone : ∀ errors : List ParseError, (∀ error ∈ errors, error ∈ before ++ later) →
          errors.filter (node.span.contains ·.span.start) = [] := fun errors hsub =>
        List.filter_eq_nil_iff.mpr fun error he => hout error (hsub error he)
      rw [errorsWithin, ← herrors, hall, hafter, List.filter_append, List.filter_append,
        hnone before fun _ he => List.mem_append_left _ he,
        hnone later fun _ he => List.mem_append_right _ he, List.filter_eq_self.mpr hin]
      simp
    rw [Extraction.outcome, hwithin]
    cases during <;> rfl

/-- The interface of a text with an error in it is attributed what was recorded. -/
theorem attribution_malformed_interface :
    ∃ node ∈ (ofSource "interface A { b: }").root.descendants, node.kind.declares ∧
      ∃ before after, .declared node before after ∈ journal "interface A { b: }" := by
  have hsecond : ((ofSource "interface A { b: }").root.descendants[1]?).any
      (·.kind.declares) := by decide +kernel
  obtain ⟨node, hnode, hkind⟩ := (Option.any_eq_true _ _).mp hsecond
  have hmem := List.mem_of_getElem? hnode
  exact ⟨node, hmem, hkind, (attribution _ hmem hkind).1⟩

end Parse

end DeclSchema
