import DeclSchema.Proofs.Parser.CarriedTypes

/-!
# What every step keeps

A property of states that every step keeps holds of whatever state reading leads to.
`Steady` lists the steps there are, and `Keeps` says of a parser that it keeps such a
property and that what it gives satisfies another one. Where a parser fails, the property
is to hold when the error is recorded, as its caller does. The rules below derive it for a
composed parser from its parts.
-/

namespace DeclSchema

namespace Parser

/-- A run ends with a result that satisfies `Q`, and with `I`; where it fails, `I` holds
again when the error is recorded. -/
def Left (I : State → Prop) (Q : α → Prop) : Except ParseError α × State → Prop
  | (.ok a, t) => I t ∧ Q a
  | (.error error, t) => I (t.record error)

/-- The parser keeps `I`, and what it gives satisfies `Q`. -/
def Keeps (I : State → Prop) (p : Parser α) (Q : α → Prop) : Prop :=
  ∀ s, I s → Left I Q (p s)

/-- Every step keeps the property. A return type stands behind a closing bracket and a
colon; what is recorded while it is read does not matter to it. -/
structure Steady (I : State → Prop) : Prop where
  advance : ∀ s count, I s → I (s.advance count)
  document : ∀ (s : State) docs, I s → I { s with docs := docs }
  deepen : ∀ (s : State) depth, I s → I { s with depth := depth }
  declared : ∀ (s : State) node before after, I s → I (s.note (.declared node before after))
  failed : ∀ (s : State) fault, I s → I (s.record (s.errorHere fault))
  refused : ∀ (s : State), I s → I ((s.note .refused).record (s.errorHere .nestingTooDeep))
  returned : ∀ (s : State) levels withBody, I s → s.isAt .rParen → (s.advance 1).isAt .colon →
    Keeps I (typeWithin levels) (fun _ => True) →
    I (returnType (typeWithin levels) withBody ((s.advance 1).advance 1)).2

namespace Keeps

variable {α β : Type} {I : State → Prop} {p q : Parser α} {f : α → Parser β} {P : α → Prop}
  {Q : β → Prop}

theorem of_ok (h : Keeps I p P) {s t : State} {a : α} (hs : I s) (hp : p s = (.ok a, t)) :
    I t ∧ P a := by
  have hleft := h s hs
  rwa [hp] at hleft

theorem of_error (h : Keeps I p P) {s t : State} {error : ParseError} (hs : I s)
    (hp : p s = (.error error, t)) : I (t.record error) := by
  have hleft := h s hs
  rwa [hp] at hleft

theorem mono (h : Keeps I p P) {P' : α → Prop} (hP : ∀ a, P a → P' a) : Keeps I p P' := by
  intro s hs
  have hleft := h s hs
  rcases hp : p s with ⟨error | a, t⟩ <;> rw [hp] at hleft
  · exact hleft
  · exact ⟨hleft.1, hP a hleft.2⟩

theorem pure {a : α} (h : P a) : Keeps I (pure a) P :=
  fun _ hs => ⟨hs, h⟩

theorem bind (hp : Keeps I p P) (hf : ∀ a, P a → Keeps I (f a) Q) : Keeps I (p >>= f) Q := by
  intro s hs
  have hleft := hp s hs
  rcases hrun : p s with ⟨error | a, t⟩ <;> rw [hrun] at hleft
  · rw [bind_apply_error hrun]
    exact hleft
  · rw [bind_apply_ok hrun]
    exact hf a hleft.2 t hleft.1

/-- What follows may depend on the run before it. -/
theorem bindRun (hp : Keeps I p P)
    (hf : ∀ s a t, I s → p s = (.ok a, t) → I t → P a → Left I Q (f a t)) :
    Keeps I (p >>= f) Q := by
  intro s hs
  have hleft := hp s hs
  rcases hrun : p s with ⟨error | a, t⟩ <;> rw [hrun] at hleft
  · rw [bind_apply_error hrun]
    exact hleft
  · rw [bind_apply_ok hrun]
    exact hf s a t hs hrun hleft.1 hleft.2

theorem look {f : State → Parser β} (hf : ∀ s, I s → Keeps I (f s) Q) :
    Keeps I (look >>= f) Q :=
  fun s hs => hf s hs s hs

/-- What is done with the state that is seen may depend on that state. -/
theorem lookAt {f : State → Parser β} (hf : ∀ s, I s → Left I Q (f s s)) :
    Keeps I (Parser.look >>= f) Q :=
  hf

theorem ite {c : Prop} [Decidable c] (hp : Keeps I p P) (hq : Keeps I q P) :
    Keeps I (if c then p else q) P := by
  split
  · exact hp
  · exact hq

/-- A step that is taken only under a condition, with what comes behind it. -/
theorem when {c : Prop} [Decidable c] {p : Parser Unit} {f : Unit → Parser β}
    (hp : Keeps I p fun _ => True) (hf : ∀ u, Keeps I (f u) Q) :
    Keeps I (if c then p >>= f else f ()) Q :=
  .ite (.bind hp fun u _ => hf u) (hf ())

/-- One of two steps, with what comes behind it in both cases. -/
theorem either {c : Prop} [Decidable c] (hp : Keeps I p P) (hq : Keeps I q P)
    (hf : ∀ a, P a → Keeps I (f a) Q) : Keeps I (if c then p >>= f else q >>= f) Q :=
  .ite (.bind hp hf) (.bind hq hf)

variable (hI : Steady I)

include hI

theorem fail (fault : Fault) : Keeps I (fail fault : Parser α) P :=
  fun s hs => hI.failed s fault hs

theorem refuse : Keeps I (refuse : Parser α) P :=
  fun s hs => hI.refused s hs

theorem advance (count : Nat) : Keeps I (advance count) fun _ => True :=
  fun s hs => ⟨hI.advance s count hs, trivial⟩

theorem takeDocs : Keeps I takeDocs fun _ => True := by
  intro s hs
  unfold Parser.takeDocs
  cases s.docs.lookup s.start with
  | none => exact ⟨hs, trivial⟩
  | some tags => exact ⟨hI.document s _ hs, trivial⟩

theorem token (kind : TokenKind) (what : Wanted) : Keeps I (token kind what) fun _ => True := by
  intro s hs
  unfold Parser.token
  split
  · exact hI.failed s _ hs
  · split
    · exact ⟨hI.advance s 1 hs, trivial⟩
    · exact hI.failed s _ hs

theorem expect (kind : TokenKind) : Keeps I (expect kind) fun _ => True :=
  token hI kind _

theorem accept (kind : TokenKind) : Keeps I (accept kind) fun _ => True := by
  intro s hs
  unfold Parser.accept
  split
  · exact ⟨hI.advance s 1 hs, trivial⟩
  · exact ⟨hs, trivial⟩

theorem acceptWord (word : String) : Keeps I (acceptWord word) fun _ => True := by
  intro s hs
  unfold Parser.acceptWord
  split
  · exact ⟨hI.advance s 1 hs, trivial⟩
  · exact ⟨hs, trivial⟩

theorem nested (h : Keeps I p P) : Keeps I (nested p) P := by
  intro s hs
  unfold Parser.nested
  split
  · exact hI.refused s hs
  · have hleft := h _ (hI.deepen s (s.depth + 1) hs)
    rcases hp : p { s with depth := s.depth + 1 } with ⟨error | a, t⟩ <;> rw [hp] at hleft
    · exact hI.deepen (t.record error) (t.depth - 1) hleft
    · exact ⟨hI.deepen t (t.depth - 1) hleft.1, hleft.2⟩

omit hI in
theorem optional {test : Parser Bool} (htest : Keeps I test fun _ => True) (hp : Keeps I p P) :
    Keeps I (optional test p) fun as => ∀ a ∈ as, P a :=
  .bind htest fun _ _ => .ite (.bind hp fun _ ha => .pure (by simpa using ha)) (.pure (by simp))

omit hI in
theorem upTo {continues : State → Bool} (hp : Keeps I p P) (count : Nat) :
    Keeps I (upTo continues p count) fun as => ∀ a ∈ as, P a := by
  induction count with
  | zero => exact .pure (by simp)
  | succ count ih =>
    refine .look fun s _ => .ite ?_ (.pure (by simp))
    exact .bind hp fun a ha => .bind ih fun as has => .pure (by simpa [ha] using has)

omit hI in
theorem repeatWhile {continues : State → Bool} (hp : Keeps I p P) :
    Keeps I (repeatWhile continues p) fun as => ∀ a ∈ as, P a :=
  fun s hs => upTo hp s.rest.length s hs

theorem separated {separator : TokenKind} (hp : Keeps I p P) :
    Keeps I (separated separator p) fun as => ∀ a ∈ as, P a := by
  refine .bind hp fun first hfirst => ?_
  refine .bind (.repeatWhile (.bind (advance hI 1) fun _ _ => hp)) fun others hothers => ?_
  exact .pure (by simpa [hfirst] using hothers)

theorem listUpTo {close : TokenKind} (hp : Keeps I p P) (count : Nat) :
    Keeps I (listUpTo close p count) fun as => ∀ a ∈ as, P a := by
  induction count with
  | zero => exact .pure (by simp)
  | succ count ih =>
    refine .bind (accept hI close) fun _ _ => .ite (.pure (by simp)) (.bind hp fun a ha => ?_)
    refine .bind (accept hI .comma) fun _ _ => .ite ?_ ?_
    · exact .bind ih fun as has => .pure (by simpa [ha] using has)
    · exact .bind (expect hI close) fun _ _ => .pure (by simpa using ha)

theorem commaList {close : TokenKind} (hp : Keeps I p P) :
    Keeps I (commaList close p) fun as => ∀ a ∈ as, P a :=
  fun s hs => listUpTo hI hp (s.rest.length + 1) s hs

theorem members {separates : TokenKind → Bool} {recovery : List Token → Nat}
    {member : Parser (Option Node)} {P : Node → Prop}
    (hm : Keeps I member fun node? => ∀ node ∈ node?, P node) :
    Keeps I (members separates recovery member) fun nodes => ∀ node ∈ nodes, P node := by
  intro s hs
  obtain ⟨nodes, t, hrun, hmotive⟩ := membersUpTo_induction separates recovery member
    (motive := fun s nodes t => I s → I t ∧ ∀ node ∈ nodes, P node)
    (fun s hs => ⟨hs, by simp⟩)
    (fun s _ hs => ⟨hI.advance s _ hs, by simp⟩)
    (by
      intro s node? t nodes u _ hread ih hs
      obtain ⟨ht, hnode⟩ := hm.of_ok (hI.advance s _ hs) hread
      obtain ⟨hu, hnodes⟩ := ih ht
      exact ⟨hu, List.forall_mem_append.mpr ⟨by simpa using hnode, hnodes⟩⟩)
    (by
      intro s error t nodes u _ hread ih hs
      exact ih (hI.advance _ _ (hm.of_error (hI.advance s _ hs) hread)))
    s.rest.length s
  rw [Parser.members, hrun]
  exact hmotive hs

end Keeps

section

variable {α β : Type} {I : State → Prop} {p : Parser α} {f : α → Parser β} {P : α → Prop}
  {s t : State}

/-- A parser that goes on behind another succeeds only behind its success. -/
theorem exists_of_bind_ok {b : β} (h : (p >>= f) s = (.ok b, t)) :
    ∃ a u, p s = (.ok a, u) ∧ f a u = (.ok b, t) := by
  rcases hrun : p s with ⟨error | a, u⟩
  · rw [bind_apply_error hrun] at h
    cases h
  · rw [bind_apply_ok hrun] at h
    exact ⟨a, u, rfl, h⟩

theorem accept_of_isAt {kind : TokenKind} (h : s.isAt kind) :
    accept kind s = (.ok true, s.advance 1) :=
  if_pos h

theorem accept_of_not_isAt {kind : TokenKind} (h : ¬ s.isAt kind) :
    accept kind s = (.ok false, s) :=
  if_neg h

theorem isAt_of_expect {kind : TokenKind} {mark : Token} (h : expect kind s = (.ok mark, t)) :
    s.isAt kind ∧ t = s.advance 1 := by
  cases hrest : s.rest with
  | nil =>
    rw [expect_of_nil hrest] at h
    cases h
  | cons first rest =>
    by_cases hkind : first.kind = kind
    · rw [expect_of_eq hrest hkind] at h
      cases h
      exact ⟨(isAt_iff hrest).mpr hkind, rfl⟩
    · rw [expect_of_ne hrest hkind] at h
      cases h

/-- A list that is read ends with its closing mark. Every comma shortens what is left, so
the bound on the items is not reached. -/
theorem exists_isAt_of_listUpTo (hI : Steady I) {close : TokenKind} [Forward p]
    (hp : Keeps I p P) (count : Nat) {as : List α} (hcount : s.rest.length < count)
    (hs : I s) (hrun : listUpTo close p count s = (.ok as, t)) :
    ∃ u, I u ∧ u.isAt close ∧ t = u.advance 1 := by
  induction count generalizing s as with
  | zero => exact absurd hcount (Nat.not_lt_zero _)
  | succ count ih =>
    rw [listUpTo] at hrun
    by_cases hclose : s.isAt close
    · rw [bind_apply_ok (accept_of_isAt hclose)] at hrun
      cases hrun
      exact ⟨s, hs, hclose, rfl⟩
    rw [bind_apply_ok (accept_of_not_isAt hclose)] at hrun
    obtain ⟨a, u, hitem, hrun⟩ := exists_of_bind_ok hrun
    have hu := (hp.of_ok hs hitem).1
    by_cases hcomma : u.isAt .comma
    · rw [bind_apply_ok (accept_of_isAt hcomma)] at hrun
      obtain ⟨others, v, hothers, hlast⟩ := exists_of_bind_ok hrun
      cases hlast
      have hle := (Forward.of_run hitem).rest.length_le
      have hlt := length_lt_of_accept (accept_of_isAt hcomma)
      exact ih (by omega) (hI.advance u 1 hu) hothers
    · rw [bind_apply_ok (accept_of_not_isAt hcomma)] at hrun
      obtain ⟨mark, v, hmark, hlast⟩ := exists_of_bind_ok hrun
      cases hlast
      obtain ⟨hat, rfl⟩ := isAt_of_expect hmark
      exact ⟨u, hu, hat, rfl⟩

end

/-- The property together with what is left being an end of what was there. -/
def Within (I : State → Prop) (s t : State) : Prop :=
  I t ∧ t.rest <:+ s.rest

theorem Within.refl {I : State → Prop} {s : State} (h : I s) : Within I s s :=
  ⟨h, List.suffix_refl _⟩

section

variable {α β : Type} {I : State → Prop} {p : Parser α} {f : α → Parser β} {P : α → Prop}
  {Q : β → Prop} {s : State}

/-- What reads on stays within the tokens. -/
theorem Keeps.within [Forward p] (h : Keeps I p P) (s : State) : Keeps (Within I s) p P := by
  intro t ht
  have hleft := h t ht.1
  have hrest := Forward.rest (p := p) t
  rcases hp : p t with ⟨error | a, u⟩ <;> rw [hp] at hleft hrest
  · exact ⟨hleft, hrest.trans ht.2⟩
  · exact ⟨⟨hleft.1, hrest.trans ht.2⟩, hleft.2⟩

theorem Left.of_within {result : Except ParseError α × State} (h : Left (Within I s) P result) :
    Left I P result := by
  rcases result with ⟨error | a, t⟩
  · exact h.1
  · exact ⟨h.1.1, h.2⟩

theorem Left.within {result : Except ParseError α × State} {v : State}
    (h : Left (Within I v) P result) (hv : v.rest <:+ s.rest) : Left (Within I s) P result := by
  rcases result with ⟨error | a, t⟩
  · exact ⟨h.1, h.2.trans hv⟩
  · exact ⟨⟨h.1.1, h.1.2.trans hv⟩, h.2⟩

/-- The state that is looked at bounds what is read from there on. -/
theorem Keeps.from {f : State → Parser β} (hf : ∀ s, I s → Keeps (Within I s) (f s) Q) :
    Keeps I (Parser.look >>= f) Q :=
  fun s hs => (hf s hs s (.refl hs)).of_within

/-- An annotation is what is read behind a colon, if there is one. -/
theorem Keeps.typeIfAny (hI : Steady I) {type : Parser Node} [Forward type]
    {f : List Node → Parser β} {P : Node → Prop} (htype : Keeps I type P)
    (hf : ∀ w v annotation, Within I s w → (∀ node ∈ annotation, P node) →
      Parser.optional (Parser.accept .colon) type w = (.ok annotation, v) →
      Keeps (Within I v) (f annotation) Q) :
    Keeps (Within I s) (Parser.optional (Parser.accept .colon) type >>= f) Q := by
  intro w hw
  have hoptional : Keeps (Within I s) (Parser.optional (Parser.accept .colon) type)
      fun nodes => ∀ node ∈ nodes, P node :=
    .optional ((Keeps.accept hI .colon).within s) (htype.within s)
  have hleft := hoptional w hw
  rcases hrun : Parser.optional (Parser.accept .colon) type w with ⟨error | annotation, v⟩ <;>
    rw [hrun] at hleft
  · rw [bind_apply_error hrun]
    exact hleft
  · rw [bind_apply_ok hrun]
    obtain ⟨hv, hnodes⟩ := hleft
    exact (hf w v annotation hw hnodes hrun v (.refl hv.1)).within hv.2

theorem optional_of_expect {type : Parser Node} {w u v : State} {colon : Token} {node : Node}
    (hcolon : expect .colon w = (.ok colon, u)) (hnode : type u = (.ok node, v)) :
    optional (accept .colon) type w = (.ok [node], v) := by
  obtain ⟨hat, rfl⟩ := isAt_of_expect hcolon
  rw [optional, bind_apply_ok (accept_of_isAt hat)]
  exact bind_apply_ok hnode

/-- So is a type that has to stand behind a colon. -/
theorem Keeps.expectType (hI : Steady I) {type : Parser Node} [Forward type]
    {f : Node → Parser β} {P : Node → Prop} (htype : Keeps I type P)
    (hf : ∀ w v node, Within I s w → P node →
      Parser.optional (Parser.accept .colon) type w = (.ok [node], v) →
      Keeps (Within I v) (f node) Q) :
    Keeps (Within I s) (do let _ ← Parser.expect .colon; let node ← type; f node) Q := by
  intro w hw
  have hcolon := (Keeps.expect hI .colon).within s w hw
  rcases hfirst : Parser.expect .colon w with ⟨error | colon, u⟩ <;> rw [hfirst] at hcolon
  · rw [bind_apply_error hfirst]
    exact hcolon
  rw [bind_apply_ok hfirst]
  have hleft := htype.within s u hcolon.1
  rcases hrun : type u with ⟨error | node, v⟩ <;> rw [hrun] at hleft
  · rw [bind_apply_error hrun]
    exact hleft
  · rw [bind_apply_ok hrun]
    obtain ⟨hv, hnode⟩ := hleft
    exact (hf w v node hw hnode (optional_of_expect hfirst hrun) v (.refl hv.1)).within hv.2

end

namespace State

/-- The tokens are those that are read on the way from the one state to the other. -/
structure Reads (s : State) (read : List Token) (t : State) : Prop where
  rest : s.rest = read ++ t.rest
  prevEnd : t.prevEnd = (read.getLast?.map (·.span.stop)).getD s.prevEnd
  length : t.length = s.length

/-- Reading on from the one state leads to the other. -/
def Reaches (s t : State) : Prop :=
  ∃ read, s.Reads read t

section

variable {s t u : State} {read more : List Token}

theorem Reads.refl (s : State) : s.Reads [] s :=
  ⟨rfl, rfl, rfl⟩

theorem Reads.trans (h : s.Reads read t) (h' : t.Reads more u) : s.Reads (read ++ more) u where
  rest := by rw [h.rest, h'.rest, List.append_assoc]
  prevEnd := by
    rw [h'.prevEnd, h.prevEnd, List.getLast?_append]
    cases more.getLast? <;> rfl
  length := h'.length.trans h.length

theorem Reads.advance (s : State) (count : Nat) : s.Reads (s.rest.take count) (s.advance count) :=
  ⟨(List.take_append_drop count s.rest).symm, rfl, rfl⟩

/-- Only what is left, where reading stands and the length of the source matter. -/
theorem Reads.congr (h : s.Reads read t) (hrest : u.rest = t.rest)
    (hprevEnd : u.prevEnd = t.prevEnd) (hlength : u.length = t.length) : s.Reads read u :=
  ⟨hrest ▸ h.rest, hprevEnd.trans h.prevEnd, hlength.trans h.length⟩

theorem Reads.ordered (h : s.Reads read t) (hs : s.Ordered) : t.Ordered := by
  unfold Ordered at hs ⊢
  rw [h.prevEnd, h.length]
  exact InOrder.behind (h.rest ▸ hs)

theorem Reads.start_le (h : s.Reads read t) (hs : s.Ordered) : s.start ≤ t.start := by
  cases hrest : t.rest with
  | nil =>
    have hlength : t.start = s.length := by
      rw [start, hrest, h.length]
    exact hlength ▸ hs.start_le
  | cons token rest =>
    have hmem : token ∈ s.rest := by
      rw [h.rest, hrest]
      exact List.mem_append_right _ List.mem_cons_self
    have hstart : t.start = token.span.start := by
      rw [start, hrest]
    exact hstart ▸ (hs.inOrder_start.bounds hmem).1

theorem Reads.ne_nil (h : s.Reads read t) (hlt : t.rest.length < s.rest.length) : read ≠ [] := by
  rintro rfl
  exact Nat.lt_irrefl _ (h.rest ▸ hlt)

theorem Reaches.refl (s : State) : s.Reaches s :=
  ⟨[], .refl s⟩

theorem Reaches.trans (h : s.Reaches t) (h' : t.Reaches u) : s.Reaches u := by
  obtain ⟨read, hread⟩ := h
  obtain ⟨more, hmore⟩ := h'
  exact ⟨read ++ more, hread.trans hmore⟩

theorem Reaches.advance (h : s.Reaches t) (count : Nat) : s.Reaches (t.advance count) :=
  h.trans ⟨_, .advance t count⟩

theorem Reaches.congr (h : s.Reaches t) (hrest : u.rest = t.rest) (hprevEnd : u.prevEnd = t.prevEnd)
    (hlength : u.length = t.length) : s.Reaches u :=
  h.imp fun _ hread => hread.congr hrest hprevEnd hlength

/-- A return type is passed over from behind it or from where it begins. -/
theorem Reaches.returnType {type : Parser Node} (withBody : Bool) (h : s.Reaches t)
    (htype : Keeps s.Reaches type fun _ => True) :
    s.Reaches (returnType type withBody t).2 := by
  have hleft := htype t h
  rcases hrun : type t with ⟨result, u⟩
  have hu : s.Reaches u := by
    rw [hrun] at hleft
    cases result with
    | error error => exact Reaches.congr (t := u.record error) hleft rfl rfl rfl
    | ok node => exact hleft.1
  have hback : s.Reaches (t.giveBack u) := by
    obtain ⟨_, hread⟩ := h
    obtain ⟨_, hread'⟩ := hu
    exact ⟨_, hread.congr rfl rfl (hread'.length.trans hread.length.symm)⟩
  rw [returnType_apply withBody hrun]
  split
  · exact hu.congr rfl rfl rfl
  · exact hback.advance _

/-- No error of a return type is kept. -/
theorem errors_returnType (type : Parser Node) [Forward type] (withBody : Bool) (s : State) :
    (Parser.returnType type withBody s).2.errors = s.errors := by
  rcases hrun : type s with ⟨result, t⟩
  have hkept : t.errors.take s.errors.length = s.errors :=
    (List.prefix_iff_eq_take.mp (Forward.of_run hrun).errors).symm
  rw [returnType_apply withBody hrun]
  split <;> exact hkept

end

end State

theorem steady_reaches (s : State) : Steady s.Reaches where
  advance _ count ht := ht.advance count
  document _ _ ht := ht.congr rfl rfl rfl
  deepen _ _ ht := ht.congr rfl rfl rfl
  declared _ _ _ _ ht := ht.congr rfl rfl rfl
  failed _ _ ht := ht.congr rfl rfl rfl
  refused _ ht := ht.congr rfl rfl rfl
  returned _ _ withBody ht _ _ hkeeps := ((ht.advance 1).advance 1).returnType withBody hkeeps

/-- Some tokens of the source are read, and all the others are left. -/
def State.StandsIn (source : String) (s : State) : Prop :=
  ∃ count, s.rest = ((State.ofSource source).advance count).rest ∧
    s.prevEnd = ((State.ofSource source).advance count).prevEnd ∧
    s.length = (State.ofSource source).length

section

variable {source : String} {s t : State}

/-- What stands in a source is reached from its beginning. -/
theorem State.standsIn_iff : s.StandsIn source ↔ (State.ofSource source).Reaches s := by
  constructor
  · rintro ⟨count, hrest, hprevEnd, hlength⟩
    exact ⟨_, (State.Reads.advance _ count).congr hrest hprevEnd hlength⟩
  · rintro ⟨read, hread⟩
    refine ⟨read.length, ?_, ?_, hread.length⟩
    · rw [State.rest_advance, hread.rest, List.drop_left]
    · rw [hread.prevEnd, State.advance, hread.rest, List.take_left]

theorem State.standsIn_ofSource (source : String) : (State.ofSource source).StandsIn source :=
  State.standsIn_iff.mpr (.refl _)

theorem State.StandsIn.length (h : s.StandsIn source) :
    s.length = (State.ofSource source).length := by
  obtain ⟨_, -, -, hlength⟩ := h
  exact hlength

/-- Only what is left, where reading stands and the length of the source matter. -/
theorem State.StandsIn.congr (h : s.StandsIn source) (hrest : t.rest = s.rest)
    (hprevEnd : t.prevEnd = s.prevEnd) (hlength : t.length = s.length) : t.StandsIn source :=
  State.standsIn_iff.mpr ((State.standsIn_iff.mp h).congr hrest hprevEnd hlength)

theorem State.StandsIn.advance (h : s.StandsIn source) (count : Nat) :
    (s.advance count).StandsIn source :=
  State.standsIn_iff.mpr ((State.standsIn_iff.mp h).advance count)

theorem State.StandsIn.exists_append (h : s.StandsIn source) :
    ∃ before, (TokenStream.ofSource source).tokens = before ++ s.rest :=
  (State.standsIn_iff.mp h).imp fun _ hread => hread.rest

theorem State.StandsIn.ordered (h : s.StandsIn source) : s.Ordered := by
  obtain ⟨_, hread⟩ := State.standsIn_iff.mp h
  exact hread.ordered (State.ordered_ofSource source)

theorem steady_standsIn (source : String) : Steady (State.StandsIn source) := by
  have hsame : State.StandsIn source = (State.ofSource source).Reaches :=
    funext fun _ => propext State.standsIn_iff
  exact hsame ▸ steady_reaches _

end

end Parser

end DeclSchema
