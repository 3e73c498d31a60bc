import DeclSchema.Proofs.Parser.Closing

/-!
# Types up to the end of a stretch

A type that is all of a loose stretch is read in the larger source as by itself. Each
production comes to the end with its last part, and nothing that goes on with it is behind
the stretch.
-/

/- The longest parsers have more parts than instance search allows by default. -/
set_option synthInstance.maxSize 8192

namespace DeclSchema.Parser

variable {c : Context} {level : Nat} {s : State}

theorem consumes_identifier (what : Wanted) : Consumes (identifier what) :=
  .bind (consumes_token _ _)

theorem consumes_entityName : Consumes entityName :=
  .bind (consumes_identifier .name)

theorem closes_identifier (hc : c.Bounds) (what : Wanted) :
    Closes c level s (identifier what) (identifier what) :=
  .map hc (carried_token _ (by decide) (by decide) level s) (.token _ _) fun _ => by simp

theorem closes_entityName (hc : c.Bounds) : Closes c level s entityName entityName := by
  have hstop : ∀ t : State, t.rest = [] → ¬ t.atSegment ∧ ¬ (c.embed t).atSegment := by
    intro t hnil
    have hdot : (c.embed t).isAt .dot = false := hc.isAt_embed hnil (by decide) rfl
    simp [State.atSegment, not_isAt_of_rest_eq_nil hnil, hdot]
  have hdot : ∀ t : State, t.atSegment → ∃ token rest, t.rest = token :: rest ∧
      token.kind = .dot := fun t ht => rest_of_isAt (Bool.and_eq_true_iff.mp ht).1
  have hone : ∀ t : State, t.atSegment → Agrees c level t (advance 1) (advance 1) := by
    intro t ht
    obtain ⟨token, rest, hrest, hkind⟩ := hdot t ht
    exact .advance_one hrest (by simp [hkind]) (by simp [hkind])
  have hsegment : ∀ t : State, t.atSegment →
      Agrees c level t (do advance 1; identifier .name) (do advance 1; identifier .name) :=
    fun t ht => (hone t ht).go fun _ u _ => carried_identifier .name level u
  have hconsumes : ∀ (t u : State) (name : Node), t.atSegment →
      (do advance 1; identifier .name) t = (.ok name, u) → u.rest.length < t.rest.length := by
    intro t u name ht hrun
    obtain ⟨token, rest, hrest, -⟩ := hdot t ht
    exact length_lt_of_advance_one (by simp [hrest]) hrun
  refine .bindEnd hc (carried_identifier .name level s) (closes_identifier hc .name)
    (fun first t hnil => ?_) fun first t _ => ?_
  · obtain ⟨hnot, hnot'⟩ := hstop t hnil
    rw [bind_apply_ok (repeatWhile_of_not hnot'), bind_apply_ok (repeatWhile_of_not hnot)]
    rfl
  refine .bindEnd hc (.repeatWhile (fun u hu => (hstop u hu).1) (fun u hu => hu.atSegment) hsegment
    hconsumes) ?_ (fun segments u _ => ?_) fun segments u _ => ?_
  · refine .repeatWhile hc hstop (fun u hu => hu.atSegment) hsegment (fun u hu => ?_) hconsumes
    exact .bind hc (hone u hu) (fun _ => (consumes_identifier .name).failsAtEnd)
      fun _ v _ => closes_identifier hc .name
  · cases segments with
    | nil => rfl
    | cons segment segments =>
      show (Except.ok _, c.embed u) = (Except.ok _, c.embed u)
      simp
  · refine .idle hc ?_
    cases segments <;> rfl

theorem failsAtEnd_operands {operator : TokenKind} {kind : NodeKind} {operand : Parser Node}
    [Forward operand] (h : FailsAtEnd operand) : FailsAtEnd (operands operator kind operand) :=
  .after fun _ => .after fun _ => (failsAtEnd_separated h).bind

/-- An operator does not come next behind the stretch. -/
theorem closes_operands {operator : TokenKind} {kind : NodeKind} {operand : Parser Node}
    [Forward operand] (hc : c.Bounds) (hword : operator ≠ .word)
    (hstop : operator.stopsType = false) (hopen : operator ≠ .lBrace) (hclose : operator ≠ .rBrace)
    (hfails : FailsAtEnd operand) (hagrees : Carried c operand)
    (hcloses : ∀ level s, Closes c level s operand operand) :
    Closes c level s (operands operator kind operand) (operands operator kind operand) := by
  unfold operands
  dsimp only
  refine .look fun hs => .bind hc (carried_accept hopen hclose level s)
    (fun _ => (failsAtEnd_separated hfails).bind) fun _ t _ => ?_
  exact .finish hc (.separated hopen hclose (hagrees level))
    (.separated hc hword hstop hopen hclose hfails (hagrees level) (hcloses level))
    fun nodes u => by simp [hs.start]

/-- Behind the stretch no square bracket comes next. -/
theorem same_suffixesUpTo_of_rest_eq_nil {type : Parser Node} (hc : c.Bounds)
    (hnil : s.rest = []) (start m n : Nat) (target : Node) :
    suffixesUpTo type (start + c.offset) m (shift c.offset target) (c.embed s) =
      (shift c.offset (suffixesUpTo type start n target s).1,
        c.embed (suffixesUpTo type start n target s).2) := by
  have hnot : ¬ (c.embed s).atSuffix := by
    rw [State.atSuffix, hc.isAt_embed hnil (by decide) rfl]
    exact Bool.false_ne_true
  rw [suffixesUpTo_of_not _ hnot, suffixesUpTo_of_not _ (not_atSuffix_of_rest_eq_nil hnil)]
  rfl

section

variable {type : Parser Node} [Forward type] (hc : c.Bounds) (h : Carried c type)
  (hend : ∀ level s, Closes c level s type type) (hfails : FailsAtEnd type)

include hc h

theorem closes_typeArguments : Closes c level s (typeArguments type) (typeArguments type) := by
  refine .bindConsumes hc (carried_expect (by decide) (by decide) level s)
    (fun _ => .after fun _ => .bind (consumes_expect _)) fun _ t _ => ?_
  refine .bindConsumes hc (.separated (by decide) (by decide) (h level))
    (fun _ => .bind (consumes_expect _)) fun nodes t _ => ?_
  exact .map hc (carried_expect (by decide) (by decide) level t) (.expect _) fun _ => rfl

/-- A name and the type arguments behind it, if they go on with it. -/
theorem closes_named (continues : State → Bool) (node node' : Node → List Node → Nat → Node)
    (hat : ∀ t : State, t.isAt .lt = false → continues t = false)
    (hcontinues : ∀ t, Fits c level t → continues (c.embed t) = continues t)
    (hnode : ∀ name arguments stop, node' (shift c.offset name) (shift c.offset arguments)
      (stop + c.offset) = shift c.offset (node name arguments stop)) :
    Closes c level s
      (do
        let name ← entityName
        let arguments ← if continues (← look) then typeArguments type else pure []
        return node' name arguments (← look).prevEnd)
      (do
        let name ← entityName
        let arguments ← if continues (← look) then typeArguments type else pure []
        return node name arguments (← look).prevEnd) := by
  refine .bindEnd hc (carried_entityName level s) (closes_entityName hc)
    (fun name t hnil => ?_) fun name t _ => ?_
  · have hnot : continues t = false := hat t (by simp [not_isAt_of_rest_eq_nil hnil])
    have hnot' : continues (c.embed t) = false := hat _ (hc.isAt_embed hnil (by decide) rfl)
    rw [look_bind_apply, look_bind_apply, hnot, hnot']
    show (Except.ok (node' _ (shift c.offset []) (t.prevEnd + c.offset)), c.embed t) = _
    rw [hnode]
    rfl
  refine .look fun ht => .ite (by rw [hcontinues t ht]) (fun _ => ?_) fun _ => .idle hc rfl
  exact .finish hc (carried_typeArguments h level t) (closes_typeArguments hc h)
    fun arguments u => hnode name arguments u.prevEnd

theorem closes_typeReference : Closes c level s (typeReference type) (typeReference type) :=
  .look fun hs => closes_named hc h (fun t => t.isAt .lt && !t.atNewline)
    (fun name arguments stop => Node.inner .typeReference s.start stop (name :: arguments))
    (fun name arguments stop =>
      Node.inner .typeReference (c.embed s).start stop (name :: arguments))
    (fun t ht => by rw [ht]; rfl) (fun t ht => by rw [ht.isAt, ht.atNewline])
    fun name arguments stop => by simp [hs.start]

theorem closes_typeQuery {token : Token} {rest : List Token} (hrest : s.rest = token :: rest)
    (hkind : token.kind = .word) : Closes c level s (typeQuery type) (typeQuery type) := by
  refine .look fun hs => .bindConsumes hc
    (.advance_one hrest (by simp [hkind]) (by simp [hkind])) (fun _ => .after fun _ => ?_)
    fun _ t _ => ?_
  · exact .ite (.bind consumes_entityName) (consumes_fail _)
  refine .look fun ht => .ite (by rw [ht.nthIsWord_zero]) (fun _ => ?_) fun _ => .fail _
  exact closes_named hc h (·.isAt .lt)
    (fun name arguments stop => Node.inner .typeQuery s.start stop (name :: arguments))
    (fun name arguments stop => Node.inner .typeQuery (c.embed s).start stop (name :: arguments))
    (fun _ ht => ht) (fun t ht => ht.isAt _) fun name arguments stop => by simp [hs.start]

include hfails

theorem closes_tupleType : Closes c level s (tupleType type) (tupleType type) := by
  have helement : FailsAtEnd (tupleElement type) :=
    .after fun _ => .after fun _ => .after fun _ => .after fun _ => hfails.bind
  unfold tupleType
  dsimp only
  refine .look fun hs => .bind hc (carried_expect (by decide) (by decide) level s)
    (fun _ => FailsAtEnd.bind fun t => failsAtEnd_listUpTo helement t.rest.length t)
    fun _ t _ => ?_
  exact .finish hc (.commaList (by decide) (by decide) (carried_tupleElement h level))
    (.commaList hc (by decide) (by decide) helement (carried_tupleElement h level))
    fun elements u => by simp [hs.start]

omit hfails

theorem closes_parenthesizedType :
    Closes c level s (parenthesizedType type) (parenthesizedType type) := by
  unfold parenthesizedType
  dsimp only
  refine .look fun hs => .bindConsumes hc (carried_expect (by decide) (by decide) level s)
    (fun _ => .after fun _ => .bind (consumes_expect _)) fun _ t _ => ?_
  refine .bindConsumes hc (h level t) (fun _ => .bind (consumes_expect _)) fun inside t _ => ?_
  exact .finish hc (carried_expect (by decide) (by decide) level t) (.expect _)
    fun _ u => by simp [hs.start]

include hend hfails

theorem closes_functionType : Closes c level s (functionType type) (functionType type) := by
  unfold functionType
  dsimp only
  refine .look fun hs => .bindConsumes hc (carried_typeParametersIfAny h level s)
    (fun _ => .bind consumes_parameters) fun generics t _ => ?_
  refine .bindConsumes hc (carried_parameters h level t) (fun _ => .bind (consumes_expect _))
    fun arguments t _ => ?_
  refine .bind hc (carried_expect (by decide) (by decide) level t) (fun _ => hfails.bind)
    fun _ t _ => ?_
  exact .finish hc (h level t) (hend level t) fun returned u => by simp [hs.start]

omit hend hfails in
theorem closes_objectType : Closes c level s (objectType type) (objectType type) := by
  unfold objectType
  dsimp only
  refine .look fun hs => .bindConsumes hc (.token_of_unsealed hc.unsealed _ _)
    (fun _ => .after fun _ => .bind (consumes_expect _)) fun _ t _ => ?_
  refine .bindConsumes hc (.nested (carried_typeMembers h _ _)) (fun _ => .bind (consumes_expect _))
    fun inside t _ => ?_
  exact .finish hc (.token_of_unsealed hc.unsealed _ _) (.expect _) fun _ u => by simp [hs.start]

theorem closes_wordType {token : Token} {rest : List Token} (hrest : s.rest = token :: rest)
    (hkind : token.kind = .word) :
    Closes c level s (wordType type (shift c.offset token)) (wordType type token) := by
  have hone : Agrees c level s (advance 1) (advance 1) :=
    .advance_one hrest (by simp [hkind]) (by simp [hkind])
  have hclose : Closes c level s (advance 1) (advance 1) := .advance_one hrest
  have hzero : s.rest[0]? = some token := by rw [hrest]; rfl
  refine .look fun hs => ?_
  have hnth : ∀ kind : TokenKind, kind.stopsType = false →
      (c.embed s).nthIs 1 kind = s.nthIs 1 kind := hs.nthIs_succ hzero (by simp [hkind])
  have hword : (c.embed s).nthIsWord 1 = s.nthIsWord 1 := hs.nthIsWord_succ hzero (by simp [hkind])
  refine .ite Iff.rfl (fun _ => closes_typeQuery hc h hrest hkind) fun _ => ?_
  refine .ite Iff.rfl (fun _ => .map hc hone hclose fun _ => by simp) fun _ => ?_
  refine .ite Iff.rfl (fun _ => .map hc hone hclose fun _ => by simp) fun _ => ?_
  refine .ite (by rw [hnth .lParen rfl, hnth .lt rfl]; rfl) (fun _ => ?_) fun _ => ?_
  · exact .bindConsumes hc hone (fun _ => .after fun _ => .after fun _ => .bind consumes_parameters)
      fun _ t _ => closes_functionType hc h hend hfails
  refine .ite (by rw [hword]; rfl) (fun _ => .fail _) fun _ => ?_
  rw [text_shift]
  cases NodeKind.keywordType? token.text with
  | none => exact closes_typeReference hc h
  | some kind =>
    refine .ite (by rw [hnth .dot rfl]) (fun _ => closes_typeReference hc h) fun _ => ?_
    exact .map hc hone hclose fun _ => by simp

omit [Forward type] h hend hfails in
theorem closes_negativeType {sign : Token} {rest : List Token} (hrest : s.rest = sign :: rest)
    (hkind : sign.kind = .minus) :
    Closes c level s (negativeType (shift c.offset sign)) (negativeType sign) := by
  refine .bindConsumes hc (.advance_one hrest (by simp [hkind]) (by simp [hkind]))
    (fun _ => .bind (consumes_token _ _)) fun _ t _ => ?_
  refine .map hc (carried_token _ (by decide) (by decide) level t) (.token _ _) fun number => ?_
  rw [shift_literalType, shift_leaf]
  rfl

theorem closes_primaryType : Closes c level s (primaryType type) (primaryType type) := by
  refine .look fun hs => ?_
  cases hrest : s.rest with
  | nil => exact absurd hrest (hs.ne_nil hc.loose)
  | cons token rest =>
    have hstarts := hs.startsFunctionType hrest
    rw [hrest] at hstarts
    rw [Fits.rest_eq_cons hrest] at hstarts ⊢
    dsimp only
    rw [kind_shift]
    cases hkind : token.kind with
    | lParen =>
      refine .ite (by rw [hstarts hkind]) (fun _ => ?_) fun _ => ?_
      · exact closes_functionType hc h hend hfails
      · exact closes_parenthesizedType hc h
    | lt => exact closes_functionType hc h hend hfails
    | lBrace => exact closes_objectType hc h
    | lBracket => exact closes_tupleType hc h hfails
    | string | number =>
      exact .map hc (.advance_one hrest (by simp [hkind]) (by simp [hkind])) (.advance_one hrest)
        fun _ => by simp
    | minus =>
      have hzero : s.rest[0]? = some token := by rw [hrest]; rfl
      refine .ite (by rw [hs.nthIs_succ hzero (by simp [hkind]) .number rfl]) (fun _ => ?_)
        fun _ => .fail _
      exact closes_negativeType hc hrest hkind
    | word => exact closes_wordType hc h hend hfails hrest hkind
    | _ => exact .fail _

omit [Forward type] hc h hend hfails in
theorem failsAtEnd_primaryType : FailsAtEnd (primaryType type) := by
  intro s hrest a t hrun
  unfold primaryType at hrun
  rw [look_bind_apply, hrest] at hrun
  cases hrun

omit hend in
theorem closes_suffix (start : Nat) (target : Node) :
    Closes c level s (suffix type (start + c.offset) (shift c.offset target))
      (suffix type start target) := by
  refine .bind hc (carried_expect (by decide) (by decide) level s) (fun _ => ?_) fun _ t _ => ?_
  · intro t hnil
    rw [bind_apply_ok (accept_of_rest_eq_nil hnil _)]
    exact FailsAtEnd.bind hfails t hnil
  refine .iteAccept hc (by decide) (by decide) (fun u _ b v hrun => ?_) (fun _ => .idle hc rfl) ?_
  · cases hrun
    show (Except.ok _, c.embed u) = _
    simp
  · refine .bindConsumes hc (h level t) (fun _ => .bind (consumes_expect _)) fun index t _ => ?_
    exact .finish hc (carried_expect (by decide) (by decide) level t) (.expect _)
      fun _ u => by simp

omit hend in
/-- Behind the stretch there are no more suffixes. -/
theorem closes_suffixesUpTo (start : Nat) (m n : Nat) (target : Node) (s : State)
    (hm : s.rest.length ≤ m) (hn : s.rest.length ≤ n) :
    Closes c level s (suffixesUpTo type (start + c.offset) m (shift c.offset target))
      (suffixesUpTo type start n target) := by
  induction n generalizing s m target with
  | zero =>
    intro hs
    exact absurd (List.eq_nil_of_length_eq_zero (Nat.le_zero.mp hn)) (hs.ne_nil hc.loose)
  | succ n ih =>
    by_cases hsuffix : s.atSuffix
    · have hpos := List.length_pos_iff.mpr fun hrest =>
        not_atSuffix_of_rest_eq_nil hrest hsuffix
      obtain ⟨m, rfl⟩ := Nat.exists_eq_add_one_of_ne_zero
        (Nat.ne_of_gt (Nat.lt_of_lt_of_le hpos hm))
      refine .look fun hs => .ite (by rw [hs.atSuffix]) (fun _ => ?_) fun h => absurd hsuffix h
      refine .bindEnd hc (agrees_suffix h start target) (closes_suffix hc h hfails start target)
        (fun outer t hnil => ?_) fun outer t hrun => ?_
      · exact same_suffixesUpTo_of_rest_eq_nil hc hnil start m n outer
      · have hlt := consumes_suffix start target _ _ _ hrun
        exact ih m outer t (by omega) (by omega)
    · refine .idle hc ?_
      rw [suffixesUpTo_of_not _ hsuffix]

theorem closes_postfixType : Closes c level s (postfixType type) (postfixType type) := by
  have hsplit : postfixType type = (do advance (readonlyLength (← look).rest)) >>= fun _ => (do
      let s ← look
      let target ← primaryType type
      suffixesUpTo type s.start s.rest.length target) := by
    rw [bind_assoc]
    rfl
  rw [hsplit]
  refine .bind hc (.measured local_readonlyLength fun _ _ => trivial)
    (fun _ => .after fun _ => failsAtEnd_primaryType.bind) fun _ t _ => ?_
  refine .look fun ht => .bindEnd hc (carried_primaryType h level t)
    (closes_primaryType hc h hend hfails) (fun target u hnil => ?_) fun target u hrun => ?_
  · rw [ht.start]
    exact same_suffixesUpTo_of_rest_eq_nil hc hnil t.start _ _ target
  · have hle := (Forward.of_run hrun).rest.length_le
    rw [ht.start]
    exact closes_suffixesUpTo hc h hfails t.start _ _ target u
      (Nat.le_trans hle (length_le_embed t)) hle

omit [Forward type] hc h hend hfails in
theorem failsAtEnd_postfixType : FailsAtEnd (postfixType type) :=
  .after fun _ => .after fun _ => .after fun _ => failsAtEnd_primaryType.bind

omit hc h hend hfails in
theorem failsAtEnd_unionType : FailsAtEnd (unionType type) :=
  failsAtEnd_operands (failsAtEnd_operands failsAtEnd_postfixType)

theorem closes_unionType : Closes c level s (unionType type) (unionType type) := by
  refine closes_operands hc (by decide) rfl (by decide) (by decide)
    (failsAtEnd_operands failsAtEnd_postfixType)
    (carried_operands (by decide) (by decide) (carried_postfixType h)) fun level s => ?_
  exact closes_operands hc (by decide) rfl (by decide) (by decide) failsAtEnd_postfixType
    (carried_postfixType h) fun level s => closes_postfixType hc h hend hfails

end

theorem failsAtEnd_typeWithin (levels : Nat) : FailsAtEnd (typeWithin levels) := by
  cases levels with
  | zero =>
    intro s _ a t hrun
    cases hrun
  | succ levels => exact failsAtEnd_nested failsAtEnd_unionType

theorem closes_typeWithin (hc : c.Bounds) (levels : Nat) :
    Closes c level s (typeWithin levels) (typeWithin levels) := by
  induction levels generalizing level s with
  | zero => exact .refuse
  | succ levels ih =>
    exact .nested (closes_unionType hc (carried_typeWithin levels) (fun _ _ => ih)
      (failsAtEnd_typeWithin levels))

theorem closes_type (hc : c.Bounds) : Closes c level s type type :=
  closes_typeWithin hc maxDepth

end DeclSchema.Parser
