import DeclSchema.Proofs.Parser.CarriedStatements

/-!
# Reading up to the end of a stretch

A loose stretch that is read to its end by itself is read to its end in the larger source,
too, if a word comes next or a token that types end before: none of the tokens that may go
on with a type follows, and what is passed over ends with its brackets.
-/

/- The longest parsers have more parts than instance search allows by default. -/
set_option synthInstance.maxSize 8192

namespace DeclSchema.Parser

/-- Other tokens follow the stretch, and no type goes on with the first of them. -/
structure Context.Bounds (c : Context) : Prop where
  loose : c.ending = .loose
  starts : StartsWithWord c.tail ∨ StartsWithStop c.tail

/-- A run from the embedded state does what a run does that succeeds and reads all of the
stretch. -/
def Closes [Shift α] (c : Context) (level : Nat) (s : State) (p' p : Parser α) : Prop :=
  Fits c level s → .gaveBack true ∉ (p s).2.journal → ∀ (a : α) (t : State),
    p s = (.ok a, t) → t.rest = [] → p' (c.embed s) = (.ok (shift c.offset a), c.embed t)

/-- At the end the parser fails. -/
def FailsAtEnd (p : Parser α) : Prop :=
  ∀ s : State, s.rest = [] → ∀ (a : α) (t : State), p s ≠ (.ok a, t)

section

variable {α β : Type} {p : Parser α} {f : α → Parser β} {s : State}

theorem Consumes.failsAtEnd (h : Consumes p) : FailsAtEnd p := by
  intro s hrest a t hrun
  have hlt := h s t a hrun
  rw [hrest] at hlt
  exact Nat.not_lt_zero _ hlt

theorem FailsAtEnd.bind (h : FailsAtEnd p) : FailsAtEnd (p >>= f) := by
  intro s hrest b u hrun
  rcases hfirst : p s with ⟨error | a, t⟩
  · rw [bind_apply_error hfirst] at hrun
    cases hrun
  · exact h s hrest a t hfirst

theorem FailsAtEnd.after [Forward p] (h : ∀ a, FailsAtEnd (f a)) : FailsAtEnd (p >>= f) := by
  intro s hrest b u hrun
  rcases hfirst : p s with ⟨error | a, t⟩
  · rw [bind_apply_error hfirst] at hrun
    cases hrun
  · rw [bind_apply_ok hfirst] at hrun
    have hsuffix := (Forward.of_run hfirst).rest
    rw [hrest] at hsuffix
    exact h a t (List.suffix_nil.mp hsuffix) b u hrun

theorem accept_of_rest_eq_nil (h : s.rest = []) (kind : TokenKind) :
    accept kind s = (.ok false, s) :=
  if_neg (not_isAt_of_rest_eq_nil h)

theorem failsAtEnd_nested (h : FailsAtEnd p) : FailsAtEnd (nested p) := by
  intro s hrest a t hrun
  unfold nested at hrun
  split at hrun
  · cases hrun
  · rcases hinside : p { s with depth := s.depth + 1 } with ⟨result, u⟩
    rw [hinside] at hrun
    cases hrun
    exact h { s with depth := s.depth + 1 } hrest a u hinside

/-- Behind an item of a list a comma or the closing mark is read. -/
theorem consumes_listEnd {close : TokenKind} {more last : Parser β} [Forward more] [Forward last] :
    Consumes (do
      if ← Parser.accept .comma then
        more
      else
        let _ ← Parser.expect close
        last) := by
  intro s u b h
  by_cases hcomma : s.isAt .comma
  · have haccept : Parser.accept .comma s = (.ok true, s.advance 1) := if_pos hcomma
    rw [bind_apply_ok haccept, if_pos rfl] at h
    have hle := (Forward.of_run h).rest.length_le
    exact Nat.lt_of_le_of_lt hle (length_advance_lt Nat.one_pos
      (List.ne_nil_of_length_pos (by
        obtain ⟨token, rest, hrest, -⟩ := rest_of_isAt hcomma
        simp [hrest])))
  · have haccept : Parser.accept .comma s = (.ok false, s) := if_neg hcomma
    rw [bind_apply_ok haccept, if_neg Bool.false_ne_true] at h
    exact Consumes.bind (consumes_expect close) s u b h

theorem failsAtEnd_separated {separator : TokenKind} [Forward p] (h : FailsAtEnd p) :
    FailsAtEnd (separated separator p) :=
  h.bind

theorem failsAtEnd_listUpTo {close : TokenKind} (h : FailsAtEnd p) (count : Nat) :
    FailsAtEnd (listUpTo close p (count + 1)) := by
  intro s hrest items t hrun
  have hlist : listUpTo close p (count + 1) s = (p >>= fun a => do
      if ← accept .comma then
        return a :: (← listUpTo close p count)
      else
        let _ ← expect close
        return [a]) s :=
    bind_apply_ok (accept_of_rest_eq_nil hrest close)
  rw [hlist] at hrun
  exact FailsAtEnd.bind h s hrest items t hrun

end

section

variable {c : Context} {level : Nat} {s : State} {α β : Type} [Shift α] [Shift β]

theorem Fits.ne_nil (hs : Fits c level s) (hloose : c.ending = .loose) : s.rest ≠ [] :=
  (hs.parted hloose).ne_nil

/-- Behind the stretch the first token of the tail comes next. -/
theorem Context.isAt_embed_of_head? (c : Context) (hrest : s.rest = []) {first : Token}
    (hfirst : first ∈ c.tail.head?) {kind : TokenKind} (hkind : first.kind ≠ kind) :
    (c.embed s).isAt kind = false := by
  have htail : (c.embed s).rest.head? = some first := by
    rw [Context.embed_rest, hrest]
    exact hfirst
  rw [State.isAt, State.nthIs, ← List.head?_eq_getElem?, htail]
  exact beq_eq_false_iff_ne.mpr hkind

namespace Context.Bounds

variable (h : c.Bounds)

include h

theorem unsealed : c.ending ≠ .sealed := by
  rw [h.loose]
  decide

theorem calm {t : State} (hrest : t.rest ≠ []) (hkeeps : .gaveBack true ∉ t.journal) :
    c.Calm t where
  accepts hsealed := absurd hsealed h.unsealed
  leaves _ := hrest
  keeps _ := hkeeps

/-- Neither an operator nor a bracket that goes on with a type comes next behind the stretch. -/
theorem isAt_embed (hrest : s.rest = []) {kind : TokenKind} (hword : kind ≠ .word)
    (hstop : kind.stopsType = false) : (c.embed s).isAt kind = false := by
  rcases h.starts with ⟨first, hfirst, hkind⟩ | ⟨first, hfirst, hkind⟩
  · exact c.isAt_embed_of_head? hrest hfirst (hkind ▸ hword.symm)
  · refine c.isAt_embed_of_head? hrest hfirst ?_
    rintro rfl
    rw [hstop] at hkind
    cases hkind

end Context.Bounds

namespace Closes

variable {p p' q q' : Parser α} {f f' : α → Parser β}

theorem fail (fault : Fault) : Closes c level s p' (Parser.fail fault) := by
  intro _ _ _ _ hrun
  cases hrun

theorem refuse : Closes c level s p' Parser.refuse := by
  intro _ _ _ _ hrun
  cases hrun

/-- What reads nothing does not come to the end. -/
theorem idle (hc : c.Bounds) (h : (p s).2.rest = s.rest) : Closes c level s p' p := by
  intro hs _ a t hrun hrest
  rw [hrun] at h
  exact absurd (h.symm.trans hrest) (hs.ne_nil hc.loose)

theorem pure (hc : c.Bounds) (a : α) : Closes c level s p' (Pure.pure a) :=
  idle hc rfl

theorem look {f f' : State → Parser β}
    (h : Fits c level s → Closes c level s (f' (c.embed s)) (f s)) :
    Closes c level s (Parser.look >>= f') (Parser.look >>= f) :=
  fun hs hkeeps => h hs hs hkeeps

theorem ite {P P' : Prop} [Decidable P] [Decidable P'] (hP : P' ↔ P)
    (hp : P → Closes c level s p' p) (hq : ¬ P → Closes c level s q' q) :
    Closes c level s (if P' then p' else q') (if P then p else q) := by
  by_cases h : P
  · rw [if_pos h, if_pos (hP.mpr h)]
    exact hp h
  · rw [if_neg h, if_neg (fun h' => h (hP.mp h'))]
    exact hq h

/-- What the first parser leaves is not nothing, so that it agrees. -/
theorem bindLeaves [∀ a, Forward (f a)] (hc : c.Bounds) (hp : Agrees c level s p' p)
    (hleaves : Fits c level s → ∀ a t, p s = (.ok a, t) → t.rest = [] → ∀ b u, f a t ≠ (.ok b, u))
    (hf : ∀ a t, p s = (.ok a, t) → Closes c level t (f' (shift c.offset a)) (f a)) :
    Closes c level s (p' >>= f') (p >>= f) := by
  intro hs hkeeps b u hrun hrest
  rcases hfirst : p s with ⟨error | a, t⟩
  · rw [bind_apply_error hfirst] at hrun
    cases hrun
  · rw [bind_apply_ok hfirst] at hrun hkeeps
    have hleft : t.rest ≠ [] := fun hnil => hleaves hs a t hfirst hnil b u hrun
    have hcalm := hc.calm hleft fun hmem =>
      hkeeps ((Forward.journal (p := f a) t).subset hmem)
    obtain ⟨hsame, ht⟩ := hp.of_run hs hfirst hcalm
    rw [bind_apply_ok hsame]
    exact hf a t hfirst ht hkeeps b u hrun hrest

/-- As `bindLeaves`, where what follows the first parser needs something to read. -/
theorem bind [∀ a, Forward (f a)] (hc : c.Bounds) (hp : Agrees c level s p' p)
    (hends : ∀ a, FailsAtEnd (f a))
    (hf : ∀ a t, p s = (.ok a, t) → Closes c level t (f' (shift c.offset a)) (f a)) :
    Closes c level s (p' >>= f') (p >>= f) :=
  bindLeaves hc hp (fun _ a t _ => hends a t) hf

/-- As `bind`, where something is read behind the first parser. -/
theorem bindConsumes [∀ a, Forward (f a)] (hc : c.Bounds) (hp : Agrees c level s p' p)
    (hconsumes : ∀ a, Consumes (f a))
    (hf : ∀ a t, p s = (.ok a, t) → Closes c level t (f' (shift c.offset a)) (f a)) :
    Closes c level s (p' >>= f') (p >>= f) :=
  bind hc hp (fun a => (hconsumes a).failsAtEnd) hf

/-- The first parser may come to the end, where the second one does nothing. -/
theorem bindEnd [∀ a, Forward (f a)] (hc : c.Bounds) (hp : Agrees c level s p' p)
    (hend : Closes c level s p' p)
    (hidle : ∀ a t, t.rest = [] → f' (shift c.offset a) (c.embed t) =
      (shift c.offset (f a t).1, c.embed (f a t).2))
    (hf : ∀ a t, p s = (.ok a, t) → Closes c level t (f' (shift c.offset a)) (f a)) :
    Closes c level s (p' >>= f') (p >>= f) := by
  intro hs hkeeps b u hrun hrest
  rcases hfirst : p s with ⟨error | a, t⟩
  · rw [bind_apply_error hfirst] at hrun
    cases hrun
  · rw [bind_apply_ok hfirst] at hrun hkeeps
    have hkeeps' : .gaveBack true ∉ t.journal := fun hmem =>
      hkeeps ((Forward.journal (p := f a) t).subset hmem)
    by_cases hnil : t.rest = []
    · have hsame := hend hs (by rwa [hfirst]) a t hfirst hnil
      rw [bind_apply_ok hsame, hidle a t hnil, hrun]
      rfl
    · obtain ⟨hsame, ht⟩ := hp.of_run hs hfirst (hc.calm hnil hkeeps')
      rw [bind_apply_ok hsame]
      exact hf a t hfirst ht hkeeps b u hrun hrest

/-- As `bindEnd`, where nothing is read behind the first parser. -/
theorem finish {g g' : α → State → β} (hc : c.Bounds) (hp : Agrees c level s p' p)
    (hend : Closes c level s p' p)
    (hg : ∀ a t, g' (shift c.offset a) (c.embed t) = shift c.offset (g a t)) :
    Closes c level s (p' >>= fun a => Parser.look >>= fun t => Pure.pure (g' a t))
      (p >>= fun a => Parser.look >>= fun t => Pure.pure (g a t)) := by
  refine bindEnd hc hp hend (fun a t _ => ?_) fun a t _ => .look fun _ => .pure hc _
  show (Except.ok (g' (shift c.offset a) (c.embed t)), c.embed t) = _
  rw [hg]
  rfl

/-- As `bindEnd`, where nothing follows the first parser. -/
theorem map {g g' : α → β} (hc : c.Bounds) (hp : Agrees c level s p' p)
    (hend : Closes c level s p' p) (hg : ∀ a, g' (shift c.offset a) = shift c.offset (g a)) :
    Closes c level s (p' >>= fun a => Pure.pure (g' a)) (p >>= fun a => Pure.pure (g a)) := by
  refine bindEnd hc hp hend (fun a t _ => ?_) fun a t _ => .pure hc _
  show (Except.ok (g' (shift c.offset a)), c.embed t) = _
  rw [hg]
  rfl

theorem nested (h : Closes c level { s with depth := s.depth + 1 } p' p) :
    Closes c level s (Parser.nested p') (Parser.nested p) := by
  intro hs hkeeps a t hrun hrest
  by_cases hdepth : maxDepth ≤ s.depth
  · have hrefuse : Parser.nested p s = Parser.refuse s := if_pos hdepth
    rw [hrefuse] at hrun
    cases hrun
  have hdeeper : ∀ (q : Parser α) (t : State), t.depth = s.depth →
      Parser.nested q t = ((q { t with depth := t.depth + 1 }).1,
        { (q { t with depth := t.depth + 1 }).2 with
          depth := (q { t with depth := t.depth + 1 }).2.depth - 1 }) :=
    fun q t ht => if_neg (ht ▸ hdepth)
  rw [hdeeper p s rfl] at hrun hkeeps
  rcases hinside : p { s with depth := s.depth + 1 } with ⟨result, u⟩
  rw [hinside] at hrun hkeeps
  cases hrun
  have hsame := h ⟨hs.before, hs.after, hs.stretch⟩ (by rwa [hinside]) a u hinside hrest
  rw [hdeeper p' _ (c.depth_embed s)]
  have hsame' : p' { c.embed s with depth := (c.embed s).depth + 1 } = _ := hsame
  rw [hsame']
  rfl

theorem advance_one {token : Token} {rest : List Token} (hrest : s.rest = token :: rest) :
    Closes c level s (advance 1) (advance 1) := by
  intro _ _ _ _ hrun _
  cases hrun
  exact congrArg (Prod.mk _) (embed_advance_one hrest)

/-- Reading the last token. -/
theorem token (kind : TokenKind) (what : Wanted) :
    Closes c level s (Parser.token kind what) (Parser.token kind what) := by
  intro hs _ first t hrun _
  unfold Parser.token at hrun ⊢
  cases hrest : s.rest with
  | nil =>
    rw [hrest] at hrun
    cases hrun
  | cons last rest =>
    rw [hrest] at hrun
    rw [Fits.rest_eq_cons hrest]
    dsimp only at hrun ⊢
    by_cases hkind : last.kind = kind
    · rw [if_pos hkind] at hrun
      rw [if_pos (show (shift c.offset last).kind = kind from hkind), embed_advance_one hrest]
      cases hrun
      rfl
    · rw [if_neg hkind] at hrun
      cases hrun

theorem expect (kind : TokenKind) :
    Closes c level s (Parser.expect kind) (Parser.expect kind) :=
  .token kind _

theorem accept (kind : TokenKind) :
    Closes c level s (Parser.accept kind) (Parser.accept kind) := by
  intro hs _ found t hrun _
  unfold Parser.accept at hrun ⊢
  rw [hs.isAt]
  by_cases hkind : s.isAt kind
  · obtain ⟨token, rest, hrest, -⟩ := rest_of_isAt hkind
    rw [if_pos hkind] at hrun ⊢
    cases hrun
    rw [embed_advance_one hrest]
    rfl
  · rw [if_neg hkind] at hrun ⊢
    cases hrun
    rfl

/-- A mark that may be the last token. -/
theorem iteAccept {kind : TokenKind} [Forward p] (hc : c.Bounds) (hopen : kind ≠ .lBrace)
    (hclose : kind ≠ .rBrace)
    (hend : ∀ t, t.rest = [] → ∀ b u, p t = (.ok b, u) →
      p' (c.embed t) = (.ok (shift c.offset b), c.embed u))
    (hp : s.isAt kind → Closes c level (s.advance 1) p' p) (hq : Closes c level s q' q) :
    Closes c level s (Parser.accept kind >>= fun found => if found then p' else q')
      (Parser.accept kind >>= fun found => if found then p else q) := by
  intro hs hkeeps b u hrun hrest
  by_cases hat : s.isAt kind
  · obtain ⟨token, rest, hcons, hkind⟩ := rest_of_isAt hat
    have haccept : Parser.accept kind s = (.ok true, s.advance 1) := if_pos hat
    have haccept' : Parser.accept kind (c.embed s) = (.ok true, c.embed (s.advance 1)) := by
      rw [Parser.accept, hs.isAt, if_pos hat, embed_advance_one hcons]
    rw [bind_apply_ok haccept, if_pos rfl] at hrun hkeeps
    rw [bind_apply_ok haccept', if_pos rfl]
    by_cases hnil : (s.advance 1).rest = []
    · exact hend _ hnil b u hrun
    · have hcalm : c.Calm (s.advance 1) := hc.calm hnil fun hmem =>
        hkeeps ((Forward.journal (p := p) _).subset hmem)
      have hfits := hs.advance_one hcons (hkind ▸ hopen) (hkind ▸ hclose) hcalm
      exact hp hat hfits hkeeps b u hrun hrest
  · have haccept : Parser.accept kind s = (.ok false, s) := if_neg hat
    have haccept' : Parser.accept kind (c.embed s) = (.ok false, c.embed s) := by
      rw [Parser.accept, hs.isAt, if_neg hat]
    rw [bind_apply_ok haccept, if_neg Bool.false_ne_true] at hrun hkeeps
    rw [bind_apply_ok haccept', if_neg Bool.false_ne_true]
    exact hq hs hkeeps b u hrun hrest

end Closes

/-- As for `Agrees.upTo`; behind the stretch the repetition does not go on. -/
theorem Closes.upTo {continues : State → Bool} {item item' : Parser α} [Forward item]
    (hc : c.Bounds) (hstop : ∀ t : State, t.rest = [] → ¬ continues t ∧ ¬ continues (c.embed t))
    (hcontinues : ∀ t, Fits c level t → continues (c.embed t) = continues t)
    (hitem : ∀ t, continues t → Agrees c level t item' item)
    (hcloses : ∀ t, continues t → Closes c level t item' item)
    (hconsumes : ∀ (t u : State) (a : α), continues t → item t = (.ok a, u) →
      u.rest.length < t.rest.length)
    (m n : Nat) (s : State) (hm : s.rest.length ≤ m) (hn : s.rest.length ≤ n) :
    Closes c level s (upTo continues item' m) (upTo continues item n) := by
  induction n generalizing s m with
  | zero =>
    intro hs
    exact absurd (List.eq_nil_of_length_eq_zero (Nat.le_zero.mp hn)) (hs.ne_nil hc.loose)
  | succ n ih =>
    by_cases hcont : continues s
    · have hpos := List.length_pos_iff.mpr fun hrest => (hstop s hrest).1 hcont
      obtain ⟨m, rfl⟩ := Nat.exists_eq_add_one_of_ne_zero
        (Nat.ne_of_gt (Nat.lt_of_lt_of_le hpos hm))
      refine .look fun hs => .ite (by rw [hcontinues s hs]) (fun _ => ?_) fun h => absurd hcont h
      refine .bindEnd hc (hitem s hcont) (hcloses s hcont) (fun a t hnil => ?_) fun a t hrun => ?_
      · obtain ⟨hnot, hnot'⟩ := hstop t hnil
        rw [bind_apply_ok (upTo_of_not hnot' m), bind_apply_ok (upTo_of_not hnot n)]
        rfl
      · have hlt := hconsumes s t a hcont hrun
        exact .map hc (Agrees.upTo (fun t h => (hstop t h).1) hcontinues hitem hconsumes m n t
          (by omega) (by omega)) (ih m t (by omega) (by omega)) fun others => rfl
    · refine .idle hc ?_
      rw [upTo_of_not hcont]

theorem Closes.repeatWhile {continues : State → Bool} {item item' : Parser α} [Forward item]
    (hc : c.Bounds) (hstop : ∀ t : State, t.rest = [] → ¬ continues t ∧ ¬ continues (c.embed t))
    (hcontinues : ∀ t, Fits c level t → continues (c.embed t) = continues t)
    (hitem : ∀ t, continues t → Agrees c level t item' item)
    (hcloses : ∀ t, continues t → Closes c level t item' item)
    (hconsumes : ∀ (t u : State) (a : α), continues t → item t = (.ok a, u) →
      u.rest.length < t.rest.length) :
    Closes c level s (repeatWhile continues item') (repeatWhile continues item) :=
  Closes.upTo hc hstop hcontinues hitem hcloses hconsumes _ _ s (length_le_embed s) (Nat.le_refl _)

theorem Closes.separated {separator : TokenKind} {item item' : Parser α} [Forward item]
    (hc : c.Bounds) (hword : separator ≠ .word) (hstops : separator.stopsType = false)
    (hopen : separator ≠ .lBrace) (hclose : separator ≠ .rBrace) (hends : FailsAtEnd item)
    (hitem : ∀ t, Agrees c level t item' item) (hcloses : ∀ t, Closes c level t item' item) :
    Closes c level s (separated separator item') (separated separator item) := by
  have hstop : ∀ t : State, t.rest = [] →
      ¬ t.isAt separator ∧ ¬ (c.embed t).isAt separator := fun t hnil =>
    ⟨not_isAt_of_rest_eq_nil hnil, by
      rw [hc.isAt_embed hnil hword hstops]
      exact Bool.false_ne_true⟩
  have hbehind : ∀ t : State, t.isAt separator →
      Agrees c level t (do advance 1; item') (do advance 1; item) ∧
        Closes c level t (do advance 1; item') (do advance 1; item) := by
    intro t ht
    obtain ⟨token, rest, hrest, hkind⟩ := rest_of_isAt ht
    have hone : Agrees c level t (advance 1) (advance 1) :=
      .advance_one hrest (hkind ▸ hopen) (hkind ▸ hclose)
    exact ⟨hone.go fun _ u _ => hitem u, .bind hc hone (fun _ => hends) fun _ u _ => hcloses u⟩
  have hconsumes : ∀ (t u : State) (a : α), t.isAt separator →
      (do advance 1; item) t = (.ok a, u) → u.rest.length < t.rest.length := by
    intro t u a ht hrun
    obtain ⟨token, rest, hrest, -⟩ := rest_of_isAt ht
    exact length_lt_of_advance_one (by simp [hrest]) hrun
  refine .bindEnd hc (hitem s) (hcloses s) (fun first t hnil => ?_) fun first t _ => ?_
  · obtain ⟨hnot, hnot'⟩ := hstop t hnil
    rw [bind_apply_ok (repeatWhile_of_not hnot'), bind_apply_ok (repeatWhile_of_not hnot)]
    rfl
  · refine .map hc (.repeatWhile (fun u hu => (hstop u hu).1) (fun u hu => hu.isAt _)
      (fun u hu => (hbehind u hu).1) hconsumes) ?_ fun others => rfl
    exact .repeatWhile hc hstop (fun u hu => hu.isAt _) (fun u hu => (hbehind u hu).1)
      (fun u hu => (hbehind u hu).2) hconsumes

theorem Closes.listUpTo {close : TokenKind} {item item' : Parser α} [Forward item]
    (hc : c.Bounds) (hopen : close ≠ .lBrace) (hclose : close ≠ .rBrace)
    (hends : FailsAtEnd item) (hitem : ∀ t, Agrees c level t item' item)
    (m n : Nat) (s : State) (hm : s.rest.length < m) (hn : s.rest.length < n) :
    Closes c level s (listUpTo close item' m) (listUpTo close item n) := by
  induction n generalizing s m with
  | zero => exact absurd hn (Nat.not_lt_zero _)
  | succ n ih =>
    obtain ⟨m, rfl⟩ := Nat.exists_eq_add_one_of_ne_zero (Nat.ne_of_gt (Nat.zero_lt_of_lt hm))
    refine .iteAccept hc hopen hclose (fun t _ _ _ hrun => ?_) (fun _ => .pure hc _) ?_
    · cases hrun
      rfl
    refine .bind hc (hitem s) (fun a => consumes_listEnd.failsAtEnd) fun a t hrun => ?_
    intro ht
    have hle := (Forward.of_run hrun).rest.length_le
    have hpos := List.length_pos_iff.mpr (ht.ne_nil hc.loose)
    obtain ⟨n, rfl⟩ := Nat.exists_eq_add_one_of_ne_zero (Nat.ne_of_gt
      (Nat.lt_of_lt_of_le hpos (Nat.le_trans hle (Nat.le_of_lt_succ hn))))
    refine Closes.iteAccept hc (by decide) (by decide) (fun u hnil b v hmore => ?_) (fun hcomma => ?_)
      ?_ ht
    · exact absurd hmore (FailsAtEnd.bind (failsAtEnd_listUpTo hends n) u hnil b v)
    · have hlt := length_advance_lt Nat.one_pos (ht.ne_nil hc.loose)
      exact .map hc (.listUpTo hopen hclose hitem m (n + 1) _ (by omega) (by omega))
        (ih m _ (by omega) (by omega)) fun others => rfl
    · exact .map hc (carried_expect hopen hclose level t) (.expect close) fun _ => rfl

theorem Closes.commaList {close : TokenKind} {item item' : Parser α} [Forward item]
    (hc : c.Bounds) (hopen : close ≠ .lBrace) (hclose : close ≠ .rBrace)
    (hends : FailsAtEnd item) (hitem : ∀ t, Agrees c level t item' item) :
    Closes c level s (commaList close item') (commaList close item) :=
  Closes.listUpTo hc hopen hclose hends hitem _ _ s (Nat.lt_succ_of_le (length_le_embed s))
    (Nat.lt_succ_self _)

end

end DeclSchema.Parser
