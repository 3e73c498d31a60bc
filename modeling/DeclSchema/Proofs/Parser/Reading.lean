import DeclSchema.Parser.Declaration
import DeclSchema.Proofs.Token.Tiling

/-!
# What every parser keeps

A parser only goes forward: it leaves a suffix of the tokens, keeps the depth of
nesting, and adds errors that start where it has been. `Follows` is this relation
between the state before a parser and the one after it, with a bound on where the new
errors start. `Orderly` is the property of a parser that its runs are of that kind, and
that what it gives satisfies a predicate. The rules below derive it for a composed
parser from its parts.

A parser that succeeds has read every token it recorded an error at. Lists of members
are the exception, as an error may be left at the token they end before; they are
`Trailing` instead, which is enough when a closing brace is read next.
-/

namespace DeclSchema

namespace Parser

theorem not_isAt_of_rest_eq_nil {s : State} {kind : TokenKind} (h : s.rest = []) :
    ¬ s.isAt kind := by
  simp [State.isAt, State.nthIs, h]

theorem isAt_iff {s : State} {token : Token} {rest : List Token} (h : s.rest = token :: rest)
    {kind : TokenKind} : s.isAt kind ↔ token.kind = kind := by
  simp [State.isAt, State.nthIs, h]

theorem rest_of_isAt {s : State} {kind : TokenKind} (h : s.isAt kind) :
    ∃ token rest, s.rest = token :: rest ∧ token.kind = kind := by
  cases hrest : s.rest with
  | nil => exact absurd h (not_isAt_of_rest_eq_nil hrest)
  | cons token rest => exact ⟨token, rest, rfl, (isAt_iff hrest).mp h⟩

/-- The tokens to read follow the last one read, and end by the end of the source. -/
def State.Ordered (s : State) : Prop :=
  InOrder s.length s.prevEnd s.rest

namespace State

theorem ordered_ofSource (source : String) : (ofSource source).Ordered :=
  TokenStream.inOrder_ofSource source

theorem Ordered.prevEnd_le_start {s : State} (h : s.Ordered) : s.prevEnd ≤ s.start := by
  unfold Ordered at h
  unfold start
  split
  · next hrest => rwa [hrest] at h
  · next token rest hrest =>
    rw [hrest] at h
    exact h.1

theorem Ordered.start_le {s : State} (h : s.Ordered) : s.start ≤ s.length := by
  unfold start
  cases hrest : s.rest with
  | nil => exact Nat.le_refl _
  | cons token rest => exact Nat.le_of_lt (h.bounds (hrest ▸ List.mem_cons_self)).2

theorem Ordered.inOrder_start {s : State} (h : s.Ordered) : InOrder s.length s.start s.rest := by
  unfold Ordered at h
  unfold start
  cases hrest : s.rest with
  | nil => exact Nat.le_refl _
  | cons first rest =>
    rw [hrest] at h
    exact ⟨Nat.le_refl _, h.2⟩

/-- A node that is read up to a token ahead ends with the token. -/
theorem Ordered.stop_ofBounds {s : State} (h : s.Ordered) {token : Token}
    (htoken : token ∈ s.rest) :
    (Span.ofBounds s.start token.span.stop).stop = token.span.stop := by
  have hstart := (h.inOrder_start.bounds htoken).1
  have hproper := h.inOrder_start.start_lt_stop htoken
  exact Nat.max_eq_left (by omega)

/-- The state behind the next token. -/
theorem advance_one {s : State} {token : Token} {rest : List Token}
    (h : s.rest = token :: rest) :
    s.advance 1 = { s with rest := rest, prevEnd := token.span.stop } := by
  simp [advance, h]

theorem advance_of_rest_eq_nil {s : State} (h : s.rest = []) (count : Nat) :
    s.advance count = s := by
  obtain ⟨rest, _⟩ := s
  subst h
  simp [advance]

theorem getLast?_take_succ_cons (token : Token) (rest : List Token) (count : Nat) :
    ((token :: rest).take (count + 1)).getLast? =
      some (((rest.take count).getLast?).getD token) := by
  simp [List.getLast?_cons]

/-- Several tokens are read one after the other. -/
theorem advance_succ (s : State) (count : Nat) :
    s.advance (count + 1) = (s.advance 1).advance count := by
  cases hrest : s.rest with
  | nil => simp [advance_of_rest_eq_nil hrest]
  | cons token rest =>
    rw [advance_one hrest]
    simp only [advance, hrest, List.drop_succ_cons, getLast?_take_succ_cons]
    cases (rest.take count).getLast? <;> rfl

theorem advance_advance (s : State) (m n : Nat) :
    (s.advance m).advance n = s.advance (m + n) := by
  induction m generalizing s with
  | zero => simp
  | succ m ih =>
    rw [advance_succ, ih, Nat.add_right_comm, ← advance_succ]

end State

/-- Whether an event concerns types only. -/
def Quiet : Event → Prop
  | .declared .. => False
  | _ => True

theorem quiet_refused : Quiet .refused := trivial

theorem quiet_gaveBack (atEnd : Bool) : Quiet (.gaveBack atEnd) := trivial

/-- `t` is reached from `s` by reading on. The events written in between are all in `J`,
and the errors recorded start before `bound`. -/
structure Follows (J : Event → Prop) (s t : State) (bound : Nat) : Prop where
  rest : t.rest <:+ s.rest
  moved : t.rest = s.rest ∧ t.prevEnd = s.prevEnd ∨ s.start < t.prevEnd
  ordered : t.Ordered
  length : t.length = s.length
  depth : t.depth = s.depth
  docs : t.docs.Sublist s.docs
  journal : ∃ events, t.journal = s.journal ++ events ∧ ∀ event ∈ events, J event
  errors : ∃ errors, t.errors = s.errors ++ errors ∧
    ∀ error ∈ errors, s.start ≤ error.span.start ∧ error.span.start < bound

namespace Follows

variable {J : Event → Prop} {s t u : State} {b c : Nat}

/-- Only the errors matter for the bound. -/
theorem mono (h : Follows J s t b) (hbc : b ≤ c) : Follows J s t c := by
  obtain ⟨errors, herrors, hspan⟩ := h.errors
  refine { h with errors := ⟨errors, herrors, fun error he => ?_⟩ }
  have := hspan error he
  omega

theorem refl (h : s.Ordered) (b : Nat) : Follows J s s b where
  rest := List.suffix_refl _
  moved := .inl ⟨rfl, rfl⟩
  ordered := h
  length := rfl
  depth := rfl
  docs := List.Sublist.refl _
  journal := ⟨[], by simp⟩
  errors := ⟨[], by simp⟩

theorem start_eq (h : t.rest = s.rest) (hlength : t.length = s.length) : t.start = s.start := by
  unfold State.start
  rw [h, hlength]

theorem start_le_start (h : Follows J s t b) : s.start ≤ t.start := by
  have hprev := h.ordered.prevEnd_le_start
  rcases h.moved with ⟨hrest, -⟩ | hmoved
  · exact Nat.le_of_eq (start_eq hrest h.length).symm
  · omega

theorem prevEnd_le_prevEnd (h : Follows J s t b) (hs : s.Ordered) : s.prevEnd ≤ t.prevEnd := by
  have hprev := hs.prevEnd_le_start
  rcases h.moved with ⟨-, heq⟩ | hmoved <;> omega

theorem trans (hst : Follows J s t b) (htu : Follows J t u c) (hbc : b ≤ c) : Follows J s u c where
  rest := htu.rest.trans hst.rest
  moved := by
    have hle := htu.prevEnd_le_prevEnd hst.ordered
    have hstart := hst.start_le_start
    rcases hst.moved with ⟨hrest, hprev⟩ | hmoved
    · rcases htu.moved with ⟨hrest', hprev'⟩ | hmoved'
      · exact .inl ⟨hrest'.trans hrest, hprev'.trans hprev⟩
      · exact .inr (by omega)
    · exact .inr (by omega)
  ordered := htu.ordered
  length := htu.length.trans hst.length
  depth := htu.depth.trans hst.depth
  docs := htu.docs.trans hst.docs
  journal := by
    obtain ⟨first, hfirst, hquiet⟩ := hst.journal
    obtain ⟨second, hsecond, hquiet'⟩ := htu.journal
    refine ⟨first ++ second, by rw [hsecond, hfirst, List.append_assoc], fun event he => ?_⟩
    rcases List.mem_append.mp he with he | he
    · exact hquiet event he
    · exact hquiet' event he
  errors := by
    obtain ⟨first, hfirst, hspan⟩ := hst.errors
    obtain ⟨second, hsecond, hspan'⟩ := htu.errors
    have hstart := hst.start_le_start
    refine ⟨first ++ second, by rw [hsecond, hfirst, List.append_assoc], fun error he => ?_⟩
    rcases List.mem_append.mp he with he | he
    · have := hspan error he
      omega
    · have := hspan' error he
      omega

theorem trans_max (hst : Follows J s t b) (htu : Follows J t u c) : Follows J s u (max b c) :=
  hst.trans (htu.mono (Nat.le_max_right b c)) (Nat.le_max_left b c)

/-- Two runs that each end behind their errors. -/
theorem andThen (hst : Follows J s t t.prevEnd) (htu : Follows J t u u.prevEnd) :
    Follows J s u u.prevEnd :=
  hst.trans htu (htu.prevEnd_le_prevEnd hst.ordered)

/-- Reading one token. -/
theorem advance_one (hs : s.Ordered) {token : Token} {rest : List Token}
    (h : s.rest = token :: rest) (b : Nat) : Follows J s (s.advance 1) b := by
  have horder := hs
  unfold State.Ordered at horder
  rw [h] at horder
  rw [State.advance_one h]
  exact {
    rest := by
      rw [h]
      exact List.suffix_cons _ _
    moved := .inr (by
      unfold State.start
      rw [h]
      exact horder.2.1)
    ordered := horder.2.2
    length := rfl
    depth := rfl
    docs := List.Sublist.refl _
    journal := ⟨[], by simp⟩
    errors := ⟨[], by simp⟩ }

theorem advance (hs : s.Ordered) (count b : Nat) : Follows J s (s.advance count) b := by
  induction count generalizing s with
  | zero => simpa using refl hs b
  | succ count ih =>
    cases h : s.rest with
    | nil =>
      rw [State.advance_of_rest_eq_nil h]
      exact refl hs b
    | cons token rest =>
      have hone := advance_one (J := J) hs h b
      rw [State.advance_succ]
      exact hone.trans (ih hone.ordered) (Nat.le_refl b)

/-- Recording an error at the next token. -/
theorem record (hs : s.Ordered) {error : ParseError} (h : error.span.start = s.start) :
    Follows J s (s.record error) (s.start + 1) :=
  { refl hs (s.start + 1) with errors := ⟨[error], rfl, by simp [h]⟩ }

theorem note (hs : s.Ordered) {event : Event} (h : J event) (b : Nat) :
    Follows J s (s.note event) b :=
  { refl (J := J) hs b with journal := ⟨[event], rfl, by simpa using h⟩ }

end Follows

/-- A run that starts in `s` ends like this: with success, behind all the errors it
recorded as measured by `edge` and with a result that satisfies `Q`, or with failure at
the next token. -/
def Lands (J : Event → Prop) (edge : State → Nat) (s : State) (Q : α → Prop) :
    Except ParseError α × State → Prop
  | (.ok a, t) => Follows J s t (edge t) ∧ Q a
  | (.error error, t) => Follows J s t (t.start + 1) ∧ error.span.start = t.start

/-- Every run of the parser goes forward. Where it succeeds, its result satisfies `Q`
and the errors it recorded start at tokens it has read. -/
def Orderly (J : Event → Prop) (p : Parser α) (Q : α → Prop) : Prop :=
  ∀ s : State, s.Ordered → Lands J State.prevEnd s Q (p s)

/-- As `Orderly`, but an error may be recorded at the token that is next after success. -/
def Trailing (J : Event → Prop) (p : Parser α) (Q : α → Prop) : Prop :=
  ∀ s : State, s.Ordered → Lands J (·.start + 1) s Q (p s)

section

variable {J : Event → Prop} {α β : Type} {p : Parser α} {f : α → Parser β} {P : α → Prop}
  {Q : β → Prop}

theorem Orderly.mono (h : Orderly J p P) {P' : α → Prop} (hP : ∀ a, P a → P' a) :
    Orderly J p P' := by
  intro s hs
  have hstep := h s hs
  rcases hp : p s with ⟨_ | a, t⟩ <;> rw [hp] at hstep
  · exact hstep
  · exact ⟨hstep.1, hP a hstep.2⟩

theorem Trailing.mono (h : Trailing J p P) {P' : α → Prop} (hP : ∀ a, P a → P' a) :
    Trailing J p P' := by
  intro s hs
  have hstep := h s hs
  rcases hp : p s with ⟨_ | a, t⟩ <;> rw [hp] at hstep
  · exact hstep
  · exact ⟨hstep.1, hP a hstep.2⟩

theorem Orderly.of_ok (h : Orderly J p P) {s t : State} {a : α} (hs : s.Ordered)
    (hp : p s = (.ok a, t)) : Follows J s t t.prevEnd ∧ P a := by
  have hstep := h s hs
  rwa [hp] at hstep

theorem Orderly.of_error (h : Orderly J p P) {s t : State} {error : ParseError} (hs : s.Ordered)
    (hp : p s = (.error error, t)) :
    Follows J s t (t.start + 1) ∧ error.span.start = t.start := by
  have hstep := h s hs
  rwa [hp] at hstep

theorem Orderly.trailing (h : Orderly J p P) : Trailing J p P := by
  intro s hs
  have hstep := h s hs
  rcases hp : p s with ⟨_ | a, t⟩ <;> rw [hp] at hstep
  · exact hstep
  · have hprev := hstep.1.ordered.prevEnd_le_start
    exact ⟨hstep.1.mono (Nat.le_succ_of_le hprev), hstep.2⟩

theorem Orderly.pure {a : α} (h : P a) : Orderly J (pure a) P :=
  fun _ hs => ⟨.refl hs _, h⟩

theorem Orderly.bind (hp : Orderly J p P) (hf : ∀ a, P a → Orderly J (f a) Q) :
    Orderly J (p >>= f) Q := by
  intro s hs
  have hstep := hp s hs
  rcases h : p s with ⟨error | a, t⟩ <;> rw [h] at hstep
  · rw [bind_apply_error h]
    exact hstep
  · rw [bind_apply_ok h]
    obtain ⟨hst, ha⟩ := hstep
    have hrest := hf a ha t hst.ordered
    rcases h' : f a t with ⟨error | b, u⟩ <;> rw [h'] at hrest
    · have hle := hrest.1.prevEnd_le_prevEnd hst.ordered
      have hprev := hrest.1.ordered.prevEnd_le_start
      exact ⟨hst.trans hrest.1 (by omega), hrest.2⟩
    · exact ⟨hst.andThen hrest.1, hrest.2⟩

/-- Looking at the state is never out of order, whatever is done with what is seen. -/
theorem Orderly.look {f : State → Parser β} (hf : ∀ s, Orderly J (f s) Q) :
    Orderly J (look >>= f) Q :=
  fun s hs => hf s s hs

theorem start_errorHere (s : State) (fault : Fault) : (s.errorHere fault).span.start = s.start := by
  unfold State.errorHere State.start
  split <;> rfl

theorem orderly_fail (fault : Fault) : Orderly J (fail fault : Parser α) P :=
  fun s hs => ⟨.refl hs _, start_errorHere s fault⟩

theorem orderly_note {event : Event} (h : J event) :
    Orderly J (note event) fun _ => True :=
  fun _ hs => ⟨.note hs h _, trivial⟩

theorem orderly_refuse (hJ : J .refused) : Orderly J (refuse : Parser α) P :=
  .bind (orderly_note hJ) fun _ _ => orderly_fail _

theorem orderly_advance (count : Nat) : Orderly J (advance count) fun _ => True :=
  fun _ hs => ⟨.advance hs count _, trivial⟩

theorem orderly_takeDocs : Orderly J takeDocs fun _ => True := by
  intro s hs
  unfold takeDocs
  split
  · exact ⟨.refl hs _, trivial⟩
  · exact ⟨{ Follows.refl hs _ with docs := List.filter_sublist }, trivial⟩

theorem expect_of_nil {kind : TokenKind} {s : State} (hrest : s.rest = []) :
    expect kind s = (.error (s.errorHere (.expected (.mark kind))), s) := by
  unfold expect token
  rw [hrest]
  rfl

theorem expect_of_eq {kind : TokenKind} {s : State} {first : Token} {rest : List Token}
    (hrest : s.rest = first :: rest) (hkind : first.kind = kind) :
    expect kind s = (.ok first, s.advance 1) := by
  unfold expect token
  rw [hrest]
  exact if_pos hkind

theorem expect_of_ne {kind : TokenKind} {s : State} {first : Token} {rest : List Token}
    (hrest : s.rest = first :: rest) (hkind : first.kind ≠ kind) :
    expect kind s = (.error (s.errorHere (.expected (.mark kind))), s) := by
  unfold expect token
  rw [hrest]
  exact if_neg hkind

theorem orderly_token (kind : TokenKind) (what : Wanted) :
    Orderly J (token kind what) fun token => token.kind = kind := by
  intro s hs
  unfold token
  split
  · exact orderly_fail _ s hs
  · next first rest h =>
    split
    · next hkind => exact ⟨.advance_one hs h _, hkind⟩
    · exact orderly_fail _ s hs

theorem orderly_expect (kind : TokenKind) :
    Orderly J (expect kind) fun token => token.kind = kind :=
  orderly_token kind _

theorem orderly_accept (kind : TokenKind) : Orderly J (accept kind) fun _ => True := by
  intro s hs
  unfold accept
  split
  · exact ⟨.advance hs 1 _, trivial⟩
  · exact ⟨.refl hs _, trivial⟩

theorem orderly_acceptWord (word : String) : Orderly J (acceptWord word) fun _ => True := by
  intro s hs
  unfold acceptWord
  split
  · exact ⟨.advance hs 1 _, trivial⟩
  · exact ⟨.refl hs _, trivial⟩

end

section

variable {J : Event → Prop} {α β : Type} {p : Parser α} {P : α → Prop} {Q : β → Prop}

theorem Orderly.ite {c : Prop} [Decidable c] {p q : Parser α} (hp : Orderly J p P)
    (hq : Orderly J q P) : Orderly J (if c then p else q) P := by
  split
  · exact hp
  · exact hq

/-- A step that is taken only under a condition, with what comes behind it. -/
theorem Orderly.when {c : Prop} [Decidable c] {p : Parser Unit} {f : Unit → Parser β}
    (hp : Orderly J p fun _ => True) (hf : ∀ u, Orderly J (f u) Q) :
    Orderly J (if c then p >>= f else f ()) Q :=
  .ite (.bind hp fun u _ => hf u) (hf ())

/-- One of two steps, with what comes behind it in both cases. -/
theorem Orderly.either {c : Prop} [Decidable c] {p q : Parser α} {f : α → Parser β}
    (hp : Orderly J p P) (hq : Orderly J q P) (hf : ∀ a, P a → Orderly J (f a) Q) :
    Orderly J (if c then p >>= f else q >>= f) Q :=
  .ite (.bind hp hf) (.bind hq hf)

/-- Deeper levels keep the outer depth. -/
theorem lands_nested {edge : State → Nat} (hJ : J .refused) (hedge : ∀ (s : State) (depth : Nat),
    edge { s with depth := depth } = edge s) {s : State} (hs : s.Ordered)
    (h : Lands J edge { s with depth := s.depth + 1 } P (p { s with depth := s.depth + 1 })) :
    Lands J edge s P (nested p s) := by
  unfold nested
  split
  · have hrefuse := orderly_refuse (P := P) hJ s hs
    rcases hr : (refuse s : Except ParseError α × State) with ⟨error | a, t⟩ <;> rw [hr] at hrefuse
    · exact hrefuse
    · exact absurd (congrArg Prod.fst hr) (by simp [refuse, bind_apply, note, fail])
  · rcases hp : p { s with depth := s.depth + 1 } with ⟨error | a, t⟩ <;> rw [hp] at h
    · refine ⟨{ h.1 with depth := ?_ }, h.2⟩
      simp [h.1.depth]
    · refine ⟨?_, h.2⟩
      rw [hedge]
      refine { h.1 with depth := ?_ }
      simp [h.1.depth]

theorem Orderly.nested (h : Orderly J p P) (hJ : J .refused) : Orderly J (nested p) P :=
  fun _ hs => lands_nested hJ (fun _ _ => rfl) hs (h _ hs)

theorem Trailing.nested (h : Trailing J p P) (hJ : J .refused) : Trailing J (nested p) P :=
  fun _ hs => lands_nested hJ (fun _ _ => rfl) hs (h _ hs)

/-- A mark read behind a parser puts the errors that it left behind what is read. -/
theorem Trailing.expect (hp : Trailing J p P) {kind : TokenKind}
    {f : α → Parser β} (hf : ∀ a, P a → Orderly J (f a) Q) :
    Orderly J (do let a ← p; let _ ← expect kind; f a) Q := by
  intro s hs
  have hstep := hp s hs
  rcases h : p s with ⟨error | a, t⟩ <;> rw [h] at hstep
  · rw [bind_apply_error h]
    exact hstep
  · rw [bind_apply_ok h]
    obtain ⟨hst, ha⟩ := hstep
    cases hrest : t.rest with
    | nil =>
      rw [bind_apply_error (expect_of_nil hrest)]
      exact ⟨hst, start_errorHere t _⟩
    | cons token rest =>
      by_cases hkind : token.kind = kind
      · rw [bind_apply_ok (expect_of_eq hrest hkind)]
        have hone := Follows.advance_one (J := J) hst.ordered hrest (t.start + 1)
        have hlast := hf a ha (t.advance 1) hone.ordered
        have hbehind : t.start < (t.advance 1).prevEnd := by
          rcases hone.moved with ⟨heq, -⟩ | hmoved
          · rw [State.rest_advance, hrest] at heq
            exact absurd (congrArg List.length heq) (by simp)
          · exact hmoved
        have hstep := hst.trans hone (Nat.le_refl _)
        rcases h' : f a (t.advance 1) with ⟨error | b, u⟩ <;> rw [h'] at hlast
        · have hle := hlast.1.start_le_start
          have hprev := hone.ordered.prevEnd_le_start
          exact ⟨hstep.trans hlast.1 (by omega), hlast.2⟩
        · have hle := hlast.1.prevEnd_le_prevEnd hone.ordered
          exact ⟨hstep.trans hlast.1 (by omega), hlast.2⟩
      · rw [bind_apply_error (expect_of_ne hrest hkind)]
        exact ⟨hst, start_errorHere t _⟩

theorem Orderly.optional {test : Parser Bool} (ht : Orderly J test fun _ => True)
    (hp : Orderly J p P) : Orderly J (optional test p) fun as => ∀ a ∈ as, P a :=
  .bind ht fun _ _ => .ite
    (.bind hp fun _ ha => .pure (by simpa using ha))
    (.pure (by simp))

theorem Orderly.upTo {continues : State → Bool} (hp : Orderly J p P) (count : Nat) :
    Orderly J (upTo continues p count) fun as => ∀ a ∈ as, P a := by
  induction count with
  | zero => exact .pure (by simp)
  | succ count ih =>
    refine .look fun s => .ite ?_ (.pure (by simp))
    refine .bind hp fun a ha => .bind ih fun as has => .pure ?_
    simpa [ha] using has

theorem Orderly.repeatWhile {continues : State → Bool} (hp : Orderly J p P) :
    Orderly J (repeatWhile continues p) fun as => ∀ a ∈ as, P a :=
  fun s hs => hp.upTo s.rest.length s hs

theorem Orderly.separated {separator : TokenKind} (hp : Orderly J p P) :
    Orderly J (separated separator p) fun as => ∀ a ∈ as, P a := by
  refine .bind hp fun first hfirst => .bind (P := fun as => ∀ a ∈ as, P a) ?_ fun others ho => .pure ?_
  · exact .repeatWhile (.bind (orderly_advance 1) fun _ _ => hp)
  · simpa [hfirst] using ho

theorem Orderly.listUpTo {close : TokenKind} (hp : Orderly J p P) (count : Nat) :
    Orderly J (listUpTo close p count) fun as => ∀ a ∈ as, P a := by
  induction count with
  | zero => exact .pure (by simp)
  | succ count ih =>
    refine .bind (orderly_accept close) fun _ _ => .ite (.pure (by simp)) ?_
    refine .bind hp fun a ha => .bind (orderly_accept .comma) fun _ _ => .ite ?_ ?_
    · exact .bind ih fun as has => .pure (by simpa [ha] using has)
    · exact .bind (orderly_expect close) fun _ _ => .pure (by simpa using ha)

theorem Orderly.commaList {close : TokenKind} (hp : Orderly J p P) :
    Orderly J (commaList close p) fun as => ∀ a ∈ as, P a :=
  fun s hs => hp.listUpTo (s.rest.length + 1) s hs

end

section

variable {separates : TokenKind → Bool} {recovery : List Token → Nat}
  {member : Parser (Option Node)} {s : State}

/-- The state behind the separators ahead. -/
def State.skipSeparators (separates : TokenKind → Bool) (s : State) : State :=
  s.advance (s.rest.takeWhile (separates ·.kind)).length

/-- The state in which reading goes on behind a malformed member. -/
def State.recover (recovery : List Token → Nat) (s : State) (error : ParseError) : State :=
  (s.record error).advance (recovery s.rest)

/-- Whether the list of members ends at the next token. -/
def State.endsMembers (s : State) : Bool :=
  s.atEnd || s.isAt .rBrace

private theorem membersUpTo_succ (count : Nat) (s : State) :
    membersUpTo separates recovery member (count + 1) s =
      (if (s.skipSeparators separates).endsMembers then pure [] else do
        match ← attempt member with
        | .ok node? => return node?.toList ++ (← membersUpTo separates recovery member count)
        | .error error =>
          report error
          advance (recovery (← look).rest)
          membersUpTo separates recovery member count : Parser (List Node))
        (s.skipSeparators separates) := rfl

theorem membersUpTo_of_ends (count : Nat) {s : State}
    (h : (s.skipSeparators separates).endsMembers) :
    membersUpTo separates recovery member (count + 1) s =
      (.ok [], s.skipSeparators separates) := by
  rw [membersUpTo_succ, if_pos h]
  rfl

theorem membersUpTo_of_ok (count : Nat) {s t : State} {node? : Option Node}
    (h : ¬ (s.skipSeparators separates).endsMembers)
    (hm : member (s.skipSeparators separates) = (.ok node?, t)) :
    membersUpTo separates recovery member (count + 1) s =
      ((node?.toList ++ ·) <$> membersUpTo separates recovery member count) t := by
  rw [membersUpTo_succ, if_neg h, bind_apply_ok (a := .ok node?) (t := t) (by simp [attempt, hm])]
  rfl

theorem membersUpTo_of_error (count : Nat) {s t : State} {error : ParseError}
    (h : ¬ (s.skipSeparators separates).endsMembers)
    (hm : member (s.skipSeparators separates) = (.error error, t)) :
    membersUpTo separates recovery member (count + 1) s =
      membersUpTo separates recovery member count (t.recover recovery error) := by
  rw [membersUpTo_succ, if_neg h,
    bind_apply_ok (a := .error error) (t := t) (by simp [attempt, hm])]
  rfl

theorem endsMembers_iff : s.endsMembers ↔ ∀ token ∈ s.rest.head?, token.kind = .rBrace := by
  cases h : s.rest <;> simp [State.endsMembers, State.atEnd, State.isAt, State.nthIs, h]

/-- No separator comes before the end of a list of members. -/
theorem skipSeparators_of_endsMembers (hclose : ¬ separates .rBrace) (h : s.endsMembers) :
    s.skipSeparators separates = s := by
  cases hrest : s.rest with
  | nil => exact State.advance_of_rest_eq_nil hrest _
  | cons token rest =>
    have hbrace : token.kind = .rBrace := endsMembers_iff.mp h token (by simp [hrest])
    simp [State.skipSeparators, hrest, hbrace, hclose]

theorem membersUpTo_of_endsMembers (hclose : ¬ separates .rBrace) (h : s.endsMembers)
    (count : Nat) : membersUpTo separates recovery member count s = (.ok [], s) := by
  cases count with
  | zero => rfl
  | succ count =>
    have hskip := skipSeparators_of_endsMembers hclose h
    rw [membersUpTo_of_ends count (by rwa [hskip]), hskip]

/-- Recovery stops without reading anything only where the members end. -/
def Recovers (recovery : List Token → Nat) : Prop :=
  ∀ tokens, recovery tokens = 0 → ∀ token ∈ tokens.head?, token.kind = .rBrace

/-- A loop over members never fails, and what holds of its start and its end follows
from what holds of one round. -/
theorem membersUpTo_induction (separates : TokenKind → Bool) (recovery : List Token → Nat)
    (member : Parser (Option Node)) {motive : State → List Node → State → Prop}
    (stop : ∀ s, motive s [] s)
    (done : ∀ s, (s.skipSeparators separates).endsMembers →
      motive s [] (s.skipSeparators separates))
    (read : ∀ s node? t nodes u, ¬ (s.skipSeparators separates).endsMembers →
      member (s.skipSeparators separates) = (.ok node?, t) → motive t nodes u →
      motive s (node?.toList ++ nodes) u)
    (recover : ∀ s error t nodes u, ¬ (s.skipSeparators separates).endsMembers →
      member (s.skipSeparators separates) = (.error error, t) →
      motive (t.recover recovery error) nodes u → motive s nodes u)
    (count : Nat) (s : State) :
    ∃ nodes t, membersUpTo separates recovery member count s = (.ok nodes, t) ∧
      motive s nodes t := by
  induction count generalizing s with
  | zero => exact ⟨[], s, rfl, stop s⟩
  | succ count ih =>
    by_cases hend : (s.skipSeparators separates).endsMembers
    · exact ⟨[], _, membersUpTo_of_ends count hend, done s hend⟩
    · rcases hm : member (s.skipSeparators separates) with ⟨error | node?, t⟩
      · obtain ⟨nodes, u, hrun, hmotive⟩ := ih (t.recover recovery error)
        exact ⟨nodes, u, (membersUpTo_of_error count hend hm).trans hrun,
          recover s error t nodes u hend hm hmotive⟩
      · obtain ⟨nodes, u, hrun, hmotive⟩ := ih t
        refine ⟨node?.toList ++ nodes, u, ?_, read s node? t nodes u hend hm hmotive⟩
        rw [membersUpTo_of_ok count hend hm]
        exact bind_apply_ok hrun

/-- Lists of members are always read. -/
theorem members_eq_ok (separates : TokenKind → Bool) (recovery : List Token → Nat)
    (member : Parser (Option Node)) (s : State) :
    ∃ nodes t, members separates recovery member s = (.ok nodes, t) := by
  obtain ⟨nodes, t, hrun, -⟩ := membersUpTo_induction separates recovery member
    (motive := fun _ _ _ => True) (fun _ => trivial) (fun _ _ => trivial)
    (fun _ _ _ _ _ _ _ _ => trivial) (fun _ _ _ _ _ _ _ _ => trivial) s.rest.length s
  exact ⟨nodes, t, hrun⟩

theorem Follows.skipSeparators (separates : TokenKind → Bool) {s : State} (hs : s.Ordered)
    (b : Nat) :
    Follows J s (s.skipSeparators separates) b :=
  .advance hs _ b

/-- Going on behind a malformed member leaves its error behind. -/
theorem Follows.recover (recovery : List Token → Nat) {s : State} (hs : s.Ordered)
    {error : ParseError} (h : error.span.start = s.start) :
    Follows J s (s.recover recovery error) (s.start + 1) :=
  have hrecord := Follows.record hs h
  hrecord.trans (.advance hrecord.ordered _ _) (Nat.le_refl _)

/-- Members are read to the end of their list whatever errors they have. -/
theorem Trailing.members {P : Node → Prop}
    (hm : Orderly J member fun node? => ∀ node ∈ node?, P node) :
    Trailing J (members separates recovery member) fun nodes => ∀ node ∈ nodes, P node := by
  intro s hs
  obtain ⟨nodes, t, hrun, hmotive⟩ := membersUpTo_induction separates recovery member
    (motive := fun s nodes t =>
      s.Ordered → Follows J s t (t.start + 1) ∧ ∀ node ∈ nodes, P node)
    (fun s hs => ⟨.refl hs _, by simp⟩)
    (fun s _ hs => ⟨.skipSeparators separates hs _, by simp⟩)
    (by
      intro s node? t nodes u _ hread ih hs
      have hskip := Follows.skipSeparators (J := J) separates hs 0
      have hstep := hm _ hskip.ordered
      rw [hread] at hstep
      obtain ⟨hst, hnode⟩ := hstep
      obtain ⟨htu, hnodes⟩ := ih hst.ordered
      have hle := htu.start_le_start
      have hprev := hst.ordered.prevEnd_le_start
      refine ⟨(hskip.trans hst (Nat.zero_le _)).trans htu (by omega), ?_⟩
      intro node h
      rcases List.mem_append.mp h with h | h
      · exact hnode node (by simpa using h)
      · exact hnodes node h)
    (by
      intro s error t nodes u _ hread ih hs
      have hskip := Follows.skipSeparators (J := J) separates hs 0
      have hstep := hm _ hskip.ordered
      rw [hread] at hstep
      obtain ⟨hst, herror⟩ := hstep
      have hrecover := Follows.recover (J := J) recovery hst.ordered herror
      obtain ⟨htu, hnodes⟩ := ih hrecover.ordered
      have hle := htu.start_le_start
      have hgo := hrecover.start_le_start
      have hto := (hskip.trans hst (Nat.zero_le _)).trans hrecover (Nat.le_refl _)
      exact ⟨hto.trans htu (by omega), hnodes⟩)
    s.rest.length s
  rw [Parser.members, hrun]
  exact hmotive hs

end

end Parser

end DeclSchema
