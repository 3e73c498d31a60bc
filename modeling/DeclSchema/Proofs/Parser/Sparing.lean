import DeclSchema.Proofs.Parser.ClosingTypes

/-!
# Parsers that leave the last token

A stretch before a word ends as a statement does, with a closing brace or a semicolon. A
parser that reads another token last therefore does not read all of it.
-/

namespace DeclSchema.Parser

/-- Where it succeeds, the parser leaves something of tokens that end as a statement
does. -/
def Spares (s : State) (p : Parser α) : Prop :=
  Ended s.rest → ∀ (a : α) (t : State), p s = (.ok a, t) → t.rest ≠ []

namespace Spares

variable {α β : Type} {s : State} {p q : Parser α} {f : α → Parser β}

theorem pure (a : α) : Spares s (Pure.pure a : Parser α) := by
  intro h _ _ hrun
  cases hrun
  exact h.ne_nil

theorem fail (fault : Fault) : Spares s (Parser.fail fault : Parser α) := by
  intro _ _ _ hrun
  cases hrun

theorem note (event : Event) : Spares s (Parser.note event) := by
  intro h _ _ hrun
  cases hrun
  exact h.ne_nil

theorem look {f : State → Parser β} (h : Spares s (f s)) : Spares s (Parser.look >>= f) :=
  h

theorem ite {P : Prop} [Decidable P] (hp : P → Spares s p) (hq : ¬ P → Spares s q) :
    Spares s (if P then p else q) := by
  split
  · next h => exact hp h
  · next h => exact hq h

theorem bind [Forward p] (hp : Spares s p) (hf : ∀ a t, Spares t (f a)) :
    Spares s (p >>= f) := by
  intro h b u hrun
  rcases hfirst : p s with ⟨error | a, t⟩
  · rw [bind_apply_error hfirst] at hrun
    cases hrun
  · rw [bind_apply_ok hfirst] at hrun
    have hsuffix := (Forward.of_run hfirst).rest
    exact hf a t (h.of_suffix hsuffix (hp h a t hfirst)) b u hrun

/-- It is enough that what comes last reads something and does so sparingly. -/
theorem last [Forward p] (hconsumes : ∀ a, Consumes (f a)) (hf : ∀ a t, Spares t (f a)) :
    Spares s (p >>= f) := by
  intro h b u hrun
  rcases hfirst : p s with ⟨error | a, t⟩
  · rw [bind_apply_error hfirst] at hrun
    cases hrun
  · rw [bind_apply_ok hfirst] at hrun
    have hsuffix := (Forward.of_run hfirst).rest
    have hpos := Nat.zero_lt_of_lt (hconsumes a t u b hrun)
    exact hf a t (h.of_suffix hsuffix (List.length_pos_iff.mp hpos)) b u hrun

theorem advance_one {token : Token} {rest : List Token} (hrest : s.rest = token :: rest)
    (hkind : token.kind ≠ .rBrace ∧ token.kind ≠ .semicolon) : Spares s (advance 1) := by
  intro h _ _ hrun
  cases hrun
  rw [hrest] at h
  rw [State.rest_advance, hrest]
  exact (h.of_cons hkind.1 hkind.2).ne_nil

theorem token {kind : TokenKind} (what : Wanted) (hkind : kind ≠ .rBrace ∧ kind ≠ .semicolon) :
    Spares s (token kind what) := by
  intro h first t hrun
  unfold Parser.token at hrun
  split at hrun
  · cases hrun
  · next rest hrest =>
    split at hrun
    · next hfirst =>
      cases hrun
      exact advance_one hrest (hfirst ▸ hkind) h () _ rfl
    · cases hrun

theorem expect {kind : TokenKind} (hkind : kind ≠ .rBrace ∧ kind ≠ .semicolon) :
    Spares s (expect kind) :=
  .token _ hkind

theorem upTo {continues : State → Bool} [Forward p] (hp : ∀ s, Spares s p) (count : Nat) :
    Spares s (upTo continues p count) := by
  induction count generalizing s with
  | zero => exact .pure []
  | succ count ih =>
    refine .look (.ite (fun _ => ?_) fun _ => .pure [])
    exact (hp s).bind fun a t => ih.bind fun others u => .pure _

theorem repeatWhile {continues : State → Bool} [Forward p] (hp : ∀ s, Spares s p) :
    Spares s (repeatWhile continues p) :=
  upTo hp s.rest.length

end Spares

variable {s : State}

theorem spares_identifier (what : Wanted) : Spares s (identifier what) :=
  (Spares.token _ (by decide)).bind fun _ _ => .pure _

theorem spares_entityName : Spares s entityName := by
  refine (spares_identifier .name).bind fun first t => ?_
  refine Spares.bind (.repeatWhile fun u => ?_) fun segments u => ?_
  · exact .last (fun _ => consumes_identifier .name) fun _ v => spares_identifier .name
  · exact .ite (fun _ => .pure _) fun _ => .look (.pure _)

/-- Other tokens follow the stretch, and the first of them is a word. -/
structure Context.Precedes (c : Context) : Prop where
  loose : c.ending = .loose
  starts : StartsWithWord c.tail

variable {c : Context} {level : Nat}

namespace Context.Precedes

variable (h : c.Precedes)

include h

theorem bounds : c.Bounds where
  loose := h.loose
  starts := .inl h.starts

theorem loose_rest (hs : Fits c level s) : Loose s.rest := by
  refine (hs.parted h.loose).loose ?_
  rintro ⟨stop, hstop, hstops⟩
  obtain ⟨first, hfirst, hkind⟩ := h.starts
  obtain rfl : first = stop := Option.mem_unique hfirst hstop
  rw [hkind] at hstops
  cases hstops

theorem loose_shift (hs : Fits c level s) : Loose (shift c.offset s.rest) where
  ended := ended_shift c.offset (h.loose_rest hs).ended
  bracketed := (parted_shift c.offset (hs.parted h.loose)).bracketed

theorem ended (hs : Fits c level s) : Ended s.rest :=
  (h.loose_rest hs).ended

/-- Only a word comes next behind the stretch. -/
theorem isAt_embed (hrest : s.rest = []) {kind : TokenKind} (hkind : kind ≠ .word) :
    (c.embed s).isAt kind = false := by
  obtain ⟨first, hfirst, hword⟩ := h.starts
  exact c.isAt_embed_of_head? hrest hfirst (hword ▸ hkind.symm)

end Context.Precedes

namespace Closes

variable {α β : Type} [Shift α] [Shift β] {p p' : Parser α} {f f' : α → Parser β}

theorem of_spares (hc : c.Precedes) (h : Spares s p) : Closes c level s p' p :=
  fun hs _ a t hrun hrest => absurd hrest (h (hc.ended hs) a t hrun)

/-- As `bind`, where the first parser spares the last token. -/
theorem bindSpares [∀ a, Forward (f a)] (hc : c.Precedes) (hp : Agrees c level s p' p)
    (hspares : Spares s p)
    (hf : ∀ a t, p s = (.ok a, t) → Closes c level t (f' (shift c.offset a)) (f a)) :
    Closes c level s (p' >>= f') (p >>= f) :=
  bindLeaves hc.bounds hp
    (fun hs a t hrun hnil => absurd hnil (hspares (hc.ended hs) a t hrun)) hf

end Closes

end DeclSchema.Parser
