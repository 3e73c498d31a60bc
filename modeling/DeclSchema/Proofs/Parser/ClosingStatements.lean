import DeclSchema.Proofs.Parser.Sparing

/-!
# Statements up to the end of a stretch

The last statement of a loose stretch is the same in the larger source: a declaration ends
with its closing brace, its type or its semicolon, and every other statement is passed
over up to where its brackets end.
-/

/- The longest parsers have more parts than instance search allows by default. -/
set_option synthInstance.maxSize 1024

namespace DeclSchema.Parser

variable {c : Context} {level : Nat} {s : State}

theorem closes_measured {measure : List Token → Nat}
    (hshift : ∀ offset tokens, measure (shift offset tokens) = measure tokens)
    (hle : measure s.rest ≤ s.rest.length)
    (hsame : Fits c level s → measure (shift c.offset s.rest ++ c.tail) =
      measure (shift c.offset s.rest)) :
    Closes c level s (do advance (measure (← look).rest))
      (do advance (measure (← look).rest)) := by
  intro hs _ a t hrun _
  cases hrun
  show (Except.ok (), (c.embed s).advance (measure (c.embed s).rest)) = _
  rw [Context.embed_rest, hsame hs, hshift, c.embed_advance (.inl hle)]

theorem closes_skipGroup (hc : c.Precedes) {token : Token} {rest : List Token}
    (hrest : s.rest = token :: rest) (hopen : token.kind.opens) :
    Closes c level s skipGroup skipGroup := by
  refine closes_measured (groupLength_shift · 0 ·) (groupLength_le 0 _) fun hs => ?_
  have hloose := hc.loose_shift hs
  rw [hrest] at hloose ⊢
  exact groupLength_append_of_loose hloose hopen _

theorem closes_statementLength (hc : c.Precedes) :
    Closes c level s (do advance (statementLength true 0 (← look).rest))
      (do advance (statementLength true 0 (← look).rest)) :=
  closes_measured (statementLength_shift · true 0 ·) (statementLength_le true 0 _) fun hs =>
    statementLength_append_of_loose hc.starts (hc.loose_shift hs)

theorem consumes_braced {inside : Parser (List Node)} [Forward inside] :
    Consumes (braced inside) :=
  .bind (consumes_expect .lBrace)

section

variable (hc : c.Precedes)

include hc

theorem closes_braced {inside : Parser (List Node)} [Forward inside] (h : Carried c inside) :
    Closes c level s (braced inside) (braced inside) := by
  refine .bindConsumes hc.bounds (.token_of_unsealed hc.bounds.unsealed _ _)
    (fun _ => .after fun _ => .bind (consumes_expect _)) fun _ t _ => ?_
  refine .bindConsumes hc.bounds (h level t) (fun _ => .bind (consumes_expect _))
    fun nodes t _ => ?_
  exact .map hc.bounds (.token_of_unsealed hc.bounds.unsealed _ _) (.expect _) fun _ => rfl

theorem closes_interfaceParts : Closes c level s interfaceParts interfaceParts := by
  refine .bindSpares hc (carried_identifier _ level s) (spares_identifier _) fun name t _ => ?_
  refine .bindConsumes hc.bounds (carried_typeParametersIfAny carried_type level t)
    (fun _ => .after fun _ => .bind consumes_braced) fun generics t _ => ?_
  refine .bindConsumes hc.bounds (carried_heritageClauses hc.bounds.unsealed _ level t)
    (fun _ => .bind consumes_braced) fun clauses t _ => ?_
  have hmembers := carried_typeMembers (carried_type (c := c))
  exact .map hc.bounds (carried_braced hc.bounds.unsealed hmembers level t)
    (closes_braced hc hmembers) fun inside => by simp

theorem closes_classParts : Closes c level s classParts classParts := by
  refine .bindConsumes hc.bounds (carried_className level s)
    (fun _ => .after fun _ => .after fun _ => .bind consumes_braced) fun name t _ => ?_
  refine .bindConsumes hc.bounds (carried_typeParametersIfAny carried_type level t)
    (fun _ => .after fun _ => .bind consumes_braced) fun generics t _ => ?_
  refine .bindConsumes hc.bounds (carried_heritageClauses hc.bounds.unsealed _ level t)
    (fun _ => .bind consumes_braced) fun clauses t _ => ?_
  have hmembers := carried_classMembers hc.bounds.unsealed (carried_type (c := c))
  exact .map hc.bounds (carried_braced hc.bounds.unsealed hmembers level t)
    (closes_braced hc hmembers) fun inside => by simp

/-- A semicolon may follow the type, but not a word. -/
theorem closes_typeAliasParts : Closes c level s typeAliasParts typeAliasParts := by
  refine .bindSpares hc (carried_identifier _ level s) (spares_identifier _) fun name t _ => ?_
  refine .bindConsumes hc.bounds (carried_typeParametersIfAny carried_type level t)
    (fun _ => .bind (consumes_expect _)) fun generics t _ => ?_
  refine .bindSpares hc (carried_expect (by decide) (by decide) level t) (.expect (by decide))
    fun _ t _ => ?_
  refine .bindEnd hc.bounds (carried_type level t) (closes_type hc.bounds)
    (fun meaning u hnil => ?_) fun meaning u _ => ?_
  · have hnot : accept .semicolon (c.embed u) = (.ok false, c.embed u) := by
      rw [accept, hc.isAt_embed hnil (by decide)]
      rfl
    have hnot' : accept .semicolon u = (.ok false, u) := if_neg (not_isAt_of_rest_eq_nil hnil)
    rw [bind_apply_ok hnot, bind_apply_ok hnot']
    show (Except.ok _, c.embed u) = _
    simp
  · exact .map hc.bounds (carried_accept (by decide) (by decide) level u) (.accept _)
      fun _ => by simp

theorem closes_enumParts : Closes c level s enumParts enumParts := by
  refine .bindSpares hc (carried_identifier _ level s) (spares_identifier _) fun name t _ => ?_
  refine .look fun ht => .ite (by rw [ht.isAt]) (fun hopen => ?_) fun _ => .of_spares hc (.fail _)
  obtain ⟨token, rest, hrest, hkind⟩ := rest_of_isAt hopen
  have hopens : token.kind.opens := by simp [hkind, TokenKind.opens]
  exact .map hc.bounds (.skipGroup_of_unsealed hc.bounds.unsealed)
    (closes_skipGroup hc hrest hopens) fun _ => rfl

end

theorem spares_moduleName : Spares s moduleName := by
  refine .look ?_
  cases hrest : s.rest with
  | nil => exact spares_entityName
  | cons token rest =>
    refine .ite (fun hkind => ?_) fun _ => spares_entityName
    exact (Spares.advance_one hrest (by simp [hkind])).bind fun _ _ => .pure _

theorem consumes_moduleName : Consumes moduleName := by
  refine .look fun s t node hrun => ?_
  cases hrest : s.rest with
  | nil =>
    rw [hrest] at hrun
    rw [← hrest]
    exact consumes_entityName s t node hrun
  | cons token rest =>
    rw [hrest] at hrun
    dsimp only at hrun
    split at hrun
    · cases hrun
      rw [← hrest]
      exact length_advance_lt Nat.one_pos (by simp [hrest])
    · rw [← hrest]
      exact consumes_entityName s t node hrun

section

variable (hc : c.Precedes) {block : Parser (List Node)} [Forward block]

theorem consumes_parts (heading : Heading) : Consumes (heading.parts block) := by
  cases heading with
  | ofInterface => exact .bind (consumes_identifier _)
  | ofClass => exact .after fun _ => .after fun _ => .after fun _ => .bind consumes_braced
  | ofTypeAlias => exact .bind (consumes_identifier _)
  | ofEnum => exact .bind (consumes_identifier _)
  | ofModule => exact .bind consumes_moduleName

include hc

theorem closes_moduleParts (h : Carried c block) :
    Closes c level s (moduleParts block) (moduleParts block) := by
  refine .bindSpares hc (carried_moduleName hc.bounds.unsealed level s) spares_moduleName
    fun name t _ => .look fun ht => ?_
  refine .ite (by rw [ht.isAt]) (fun _ => ?_) fun _ => ?_
  · exact .finish hc.bounds (carried_braced hc.bounds.unsealed h level t) (closes_braced hc h)
      fun nodes u => by simp [ht.start]
  · exact .map hc.bounds (carried_accept (by decide) (by decide) level t) (.accept _) fun _ => rfl

theorem closes_parts (h : Carried c block) (heading : Heading) :
    Closes c level s (heading.parts block) (heading.parts block) := by
  cases heading with
  | ofInterface => exact closes_interfaceParts hc
  | ofClass => exact closes_classParts hc
  | ofTypeAlias => exact closes_typeAliasParts hc
  | ofEnum => exact closes_enumParts hc
  | ofModule => exact closes_moduleParts hc h

theorem closes_declaration (h : Carried c block) {first : State} (hfirst : Fits c level first)
    (tags : List DocTag) (words : List Node) (heading : Heading) :
    Closes c level s
      (declaration block (c.embed first) tags (shift c.offset words) heading)
      (declaration block first tags words heading) := by
  unfold declaration
  dsimp only
  refine .bindEnd hc.bounds (carried_parts hc.bounds.unsealed h heading level s)
    (closes_parts hc h heading) (fun parts t hnil => ?_) fun parts t _ => ?_
  · show (Except.ok _, (c.embed t).note _) = (Except.ok _, c.embed (t.note _))
    rw [← shift_append, hfirst.shift_node, c.embed_note]
    rfl
  · exact .of_spares hc (.look ((Spares.note _).bind fun _ _ => .pure _))

end

/-- Modifiers are words, so that something is left of what ends as a statement does. -/
theorem leadingModifiers_lt {step : Bool → Token → List Token → ModifierStep}
    (hstep : LooksAhead step) {tokens : List Token} (h : Ended tokens) (kept : Bool) :
    (leadingModifiers step kept tokens).2 < tokens.length := by
  induction tokens generalizing kept with
  | nil => exact absurd rfl h.ne_nil
  | cons token rest ih =>
    by_cases hword : token.word? = none
    · rw [leadingModifiers_of_stop (hstep.stop _ _ _ hword)]
      exact Nat.succ_pos _
    have hkind : token.kind = .word := by
      simpa [Token.word?_eq_none_iff] using hword
    have hrest := h.of_cons (by simp [hkind]) (by simp [hkind])
    rw [leadingModifiers]
    cases step kept token rest with
    | stop => exact Nat.succ_pos _
    | pass => exact Nat.succ_lt_succ (ih hrest kept)
    | keep kind => exact Nat.succ_lt_succ (ih hrest true)

theorem spares_modifiers {step : Bool → Token → List Token → ModifierStep}
    (hstep : LooksAhead step) : Spares s (modifiers step) := by
  intro h words t hrun
  cases hrun
  have hlt := leadingModifiers_lt hstep h false
  rw [State.rest_advance, ← List.length_pos_iff, List.length_drop]
  omega

theorem spares_takeDocs : Spares s takeDocs := by
  intro h tags t hrun
  unfold takeDocs at hrun
  split at hrun <;> cases hrun <;> exact h.ne_nil

section

variable (hc : c.Precedes) {block : Parser (List Node)} [Forward block]

include hc

theorem closes_statement (h : Carried c block) :
    Closes c level s (statement block) (statement block) := by
  unfold statement
  refine .look fun hs => .bindSpares hc .takeDocs spares_takeDocs fun before t _ => ?_
  refine .bindLeaves hc.bounds (carried_skipDecorators level t) (fun ht _ u hrun hnil => ?_)
    fun _ u _ => ?_
  · cases hrun
    have hlt := decoratorsUpTo_lt t.rest.length (hc.loose_rest ht)
    rw [State.rest_advance, ← List.length_eq_zero_iff, List.length_drop] at hnil
    unfold decoratorsLength at hnil
    omega
  refine .bindSpares hc .takeDocs spares_takeDocs fun behind t _ => ?_
  refine .bindSpares hc (carried_modifiers looksAhead_statementModifier level t)
    (spares_modifiers looksAhead_statementModifier) fun words t _ => ?_
  refine .look fun ht => ?_
  rw [ht.heading?]
  cases t.heading? with
  | none =>
    have hagrees : Agrees c level t (do advance (statementLength true 0 (← look).rest))
        (do advance (statementLength true 0 (← look).rest)) :=
      .measured_of_unsealed hc.bounds.unsealed (statementLength_shift · true 0 ·)
        fun _ tail _ => statementLength_append_of_lt tail
    exact .map hc.bounds hagrees (closes_statementLength hc) fun _ => rfl
  | some found =>
    refine .bindConsumes hc.bounds (.advance_of_unsealed hc.bounds.unsealed _)
      (fun _ => .bind (consumes_parts _)) fun _ u _ => ?_
    rw [shift_tags, shift_tags]
    exact closes_declaration hc h hs _ words _

end

end DeclSchema.Parser
