import DeclSchema.Proofs.Parser.Measures
import DeclSchema.Proofs.Parser.Progress
import DeclSchema.Proofs.Parser.Shift

/-!
# Reading inside a larger source

A stretch of a source is read in a larger source as it is read by itself, moved along to
where it stands. `Context` is what surrounds the stretch, `Context.embed` the state in
the larger source for a state in the stretch, and `Agrees` says that a run is the same in
both.

If tokens follow the stretch, this needs care. Either the stretch is sealed, and must
remain so. A refused level of nesting is the one thing that would break the seal, since
it gives up at an opening brace without reading up to its closing one, so `Agrees` speaks
of runs without refusals. Or the stretch is loose, and `Agrees` speaks of runs that end
before it does. What was read in them and given back must have ended before it, too. The
tokens behind a loose stretch are seen only by who looks one token ahead from its last one.
-/

namespace DeclSchema.Parser

/-- How a stretch of a source ends. -/
inductive Ending where
  /-- The source ends with it. -/
  | final
  /-- Other tokens follow, and its last brace closes what is open before it. -/
  | sealed
  /-- Other tokens follow, and it is seen that it ends before them. -/
  | loose
deriving DecidableEq

/-- What surrounds a stretch of a source: how it ends, its offset, the documentation
before and behind it, what was recorded before it, the tokens behind it, and the length
of the whole. -/
structure Context where
  ending : Ending
  offset : Nat
  docsBefore : List (Nat × List DocTag)
  docsAfter : List (Nat × List DocTag)
  errors : List ParseError
  journal : List Event
  tail : List Token
  length : Nat

namespace Context

variable (c : Context)

/-- An event of the stretch as it is written in the larger source. -/
def event : Event → Event
  | .declared node before after =>
    .declared (shift c.offset node) (c.errors ++ shift c.offset before)
      (c.errors ++ shift c.offset after)
  | event => event

/-- Documentation of the stretch at its place in the larger source. -/
def doc (entry : Nat × List DocTag) : Nat × List DocTag :=
  (entry.1 + c.offset, entry.2)

/-- A state in the stretch as a state in the larger source. -/
def embed (s : State) : State where
  rest := shift c.offset s.rest ++ c.tail
  prevEnd := s.prevEnd + c.offset
  length := c.length
  docs := c.docsBefore ++ s.docs.map c.doc ++ c.docsAfter
  depth := s.depth
  errors := c.errors ++ shift c.offset s.errors
  journal := c.journal ++ s.journal.map c.event

@[simp] theorem prevEnd_embed (s : State) : (c.embed s).prevEnd = s.prevEnd + c.offset := rfl

@[simp] theorem depth_embed (s : State) : (c.embed s).depth = s.depth := rfl

theorem embed_rest (s : State) : (c.embed s).rest = shift c.offset s.rest ++ c.tail := rfl

theorem embed_record (s : State) (error : ParseError) :
    c.embed (s.record error) = (c.embed s).record (shift c.offset error) := by
  simp [embed, State.record]

theorem embed_note (s : State) (event : Event) :
    c.embed (s.note event) = (c.embed s).note (c.event event) := by
  simp [embed, State.note]

theorem embed_advance {s : State} {count : Nat} (h : count ≤ s.rest.length ∨ c.tail = []) :
    (c.embed s).advance count = c.embed (s.advance count) := by
  have hdrop : (c.embed s).rest.drop count = (c.embed (s.advance count)).rest := by
    rw [embed_rest, embed_rest, State.rest_advance, ← drop_shift]
    rcases h with hcount | hend
    · exact List.drop_append_of_le_length (by simpa using hcount)
    · rw [hend, List.append_nil, List.append_nil]
  have htake : (c.embed s).rest.take count = shift c.offset (s.rest.take count) := by
    rw [embed_rest, ← take_shift]
    rcases h with hcount | hend
    · exact List.take_append_of_le_length (by simpa using hcount)
    · rw [hend, List.append_nil]
  have hlast : (((c.embed s).rest.take count).getLast?.map (·.span.stop)).getD
      (s.prevEnd + c.offset) = (s.advance count).prevEnd + c.offset := by
    rw [htake]
    unfold State.advance
    show (((s.rest.take count).map (shift c.offset)).getLast?.map _).getD _ = _
    rw [List.getLast?_map]
    cases (s.rest.take count).getLast? <;> rfl
  unfold State.advance at hdrop hlast ⊢
  rw [hdrop]
  unfold embed at hlast ⊢
  rw [hlast]

/-- The stretch is the end of the source. -/
def final : Prop :=
  c.ending = .final

/-- What a run must have been like to be the same in the larger source, seen from the state
in which it ends. In a sealed stretch it refused no level of nesting. Of a loose stretch it
left something to read, also wherever it read a return type that it gave back. -/
structure Calm (t : State) : Prop where
  accepts : c.ending = .sealed → .refused ∉ t.journal
  leaves : c.ending = .loose → t.rest ≠ []
  keeps : c.ending = .loose → .gaveBack true ∉ t.journal

namespace Calm

variable {c} {s t : State} {count : Nat}

theorem of_final (h : c.final) : c.Calm t where
  accepts hsealed := absurd (Eq.trans (Eq.symm h) hsealed) (by decide)
  leaves hloose := absurd (Eq.trans (Eq.symm h) hloose) (by decide)
  keeps hloose := absurd (Eq.trans (Eq.symm h) hloose) (by decide)

/-- What is not in the journal and is left to read in the end was so before. -/
theorem of_leadsTo (h : c.Calm t) (hto : s.LeadsTo t) : c.Calm s where
  accepts hsealed hmem := h.accepts hsealed (hto.journal.subset hmem)
  leaves hloose hrest := h.leaves hloose (List.suffix_nil.mp (hrest ▸ hto.rest))
  keeps hloose hmem := h.keeps hloose (hto.journal.subset hmem)

theorem lt_length (h : c.Calm (s.advance count)) (hloose : c.ending = .loose) :
    count < s.rest.length := by
  have hpos := List.length_pos_iff.mpr (h.leaves hloose)
  rw [State.rest_advance, List.length_drop] at hpos
  omega

end Calm

end Context

/-- The state belongs to a stretch that the context surrounds. -/
structure Fits (c : Context) (level : Nat) (s : State) : Prop where
  before : ∀ doc ∈ c.docsBefore, doc.1 < c.offset
  after : ∀ doc ∈ c.docsAfter, ∀ token ∈ s.rest, doc.1 ≠ token.span.start + c.offset
  stretch : (c.final ∧ c.tail = [] ∧ c.docsAfter = [] ∧ c.length = s.length + c.offset) ∨
    (c.ending = .sealed ∧ SealedAt level s.rest) ∨ (c.ending = .loose ∧ Parted c.tail s.rest)

/-- What is ahead in the larger source is what is ahead in the stretch; or nothing is ahead in
the stretch, and in the larger source a token that a type ends before. -/
def Meets (offset : Nat) (ahead' ahead : Option Token) : Prop :=
  ahead' = shift offset ahead ∨ ahead = none ∧ ∃ stop ∈ ahead', stop.kind.stopsType

namespace Meets

variable {offset : Nat} {ahead' ahead : Option Token}

/-- What is looked for is not found in a token that a type ends before. -/
theorem any {found : Token → Bool} (h : Meets offset ahead' ahead)
    (hshift : ∀ token, found (shift offset token) = found token)
    (hstop : ∀ token, token.kind.stopsType → found token = false) :
    ahead'.any found = ahead.any found := by
  rcases h with rfl | ⟨rfl, stop, hahead, hkind⟩
  · cases ahead with
    | none => rfl
    | some token => exact hshift token
  · rw [Option.mem_def.mp hahead]
    exact hstop stop hkind

theorem bind_word? (h : Meets offset ahead' ahead) :
    ahead'.bind Token.word? = ahead.bind Token.word? := by
  rcases h with rfl | ⟨rfl, stop, hahead, hkind⟩
  · cases ahead with
    | none => rfl
    | some token => exact word?_shift offset token
  · have hword : stop.word? = none := Token.word?_eq_none_iff.mpr (by
      intro hword
      rw [hword] at hkind
      cases hkind)
    rw [Option.mem_def.mp hahead]
    exact hword

end Meets

namespace Fits

variable {c : Context} {level : Nat} {s : State} {token : Token} {rest : List Token}

theorem tail_eq_nil (h : Fits c level s) (hrest : s.rest = []) :
    c.final ∧ c.tail = [] ∧ c.docsAfter = [] ∧ c.length = s.length + c.offset := by
  rcases h.stretch with hend | ⟨-, hsealed⟩ | ⟨-, hloose⟩
  · exact hend
  · exact absurd hrest hsealed.ne_nil
  · exact absurd hrest hloose.ne_nil

theorem nothing_behind (h : Fits c level s) (hfinal : c.final) :
    c.tail = [] ∧ c.docsAfter = [] ∧ c.length = s.length + c.offset := by
  rcases h.stretch with ⟨-, hend⟩ | ⟨hsealed, -⟩ | ⟨hloose, -⟩
  · exact hend
  · exact absurd (Eq.trans (Eq.symm hfinal) hsealed) (by decide)
  · exact absurd (Eq.trans (Eq.symm hfinal) hloose) (by decide)

theorem sealedAt (h : Fits c level s) (hsealed : c.ending = .sealed) :
    SealedAt level s.rest := by
  rcases h.stretch with ⟨hfinal, -⟩ | ⟨-, hseal⟩ | ⟨hloose, -⟩
  · exact absurd (Eq.trans (Eq.symm hfinal) hsealed) (by decide)
  · exact hseal
  · exact absurd (Eq.trans (Eq.symm hloose) hsealed) (by decide)

theorem parted (h : Fits c level s) (hloose : c.ending = .loose) : Parted c.tail s.rest := by
  rcases h.stretch with ⟨hfinal, -⟩ | ⟨hsealed, -⟩ | ⟨-, hrest⟩
  · exact absurd (Eq.trans (Eq.symm hfinal) hloose) (by decide)
  · exact absurd (Eq.trans (Eq.symm hsealed) hloose) (by decide)
  · exact hrest

/-- If tokens follow, the stretch ends as a statement does, or a type ends before them. -/
theorem ends (h : Fits c level s) : c.tail = [] ∨ Ended s.rest ∨ StartsWithStop c.tail := by
  rcases h.stretch with ⟨-, htail, -⟩ | ⟨-, hsealed⟩ | ⟨-, hparted⟩
  · exact .inl htail
  · exact .inr (.inl hsealed.ended)
  · exact .inr (hparted.ends.imp id And.left)

theorem rest_eq_nil (h : Fits c level s) (hrest : s.rest = []) : (c.embed s).rest = [] := by
  rw [Context.embed_rest, hrest, (h.tail_eq_nil hrest).2.1]
  rfl

theorem rest_eq_cons (hrest : s.rest = token :: rest) :
    (c.embed s).rest = shift c.offset token :: (shift c.offset rest ++ c.tail) := by
  rw [Context.embed_rest, hrest]
  rfl

theorem start (h : Fits c level s) : (c.embed s).start = s.start + c.offset := by
  unfold State.start
  cases hrest : s.rest with
  | nil =>
    rw [h.rest_eq_nil hrest]
    exact (h.tail_eq_nil hrest).2.2.2
  | cons token rest =>
    rw [rest_eq_cons hrest]
    rfl

theorem errorHere (h : Fits c level s) (fault : Fault) :
    (c.embed s).errorHere fault = shift c.offset (s.errorHere fault) := by
  unfold State.errorHere
  cases hrest : s.rest with
  | nil =>
    rw [h.rest_eq_nil hrest]
    dsimp only
    rw [Context.embed, (h.tail_eq_nil hrest).2.2.2]
    rfl
  | cons token rest =>
    rw [rest_eq_cons hrest]
    rfl

/-- No documentation around the stretch belongs to its next token. -/
theorem ne_start (h : Fits c level s) :
    (∀ doc ∈ c.docsBefore, doc.1 ≠ s.start + c.offset) ∧
      ∀ doc ∈ c.docsAfter, doc.1 ≠ s.start + c.offset := by
  constructor
  · intro doc hdoc
    have := h.before doc hdoc
    omega
  · intro doc hdoc
    cases hrest : s.rest with
    | nil =>
      rw [(h.tail_eq_nil hrest).2.2.1] at hdoc
      exact absurd hdoc List.not_mem_nil
    | cons token rest =>
      have hne := h.after doc hdoc token (by simp [hrest])
      rwa [State.start, hrest]

theorem lookup_docs (h : Fits c level s) :
    (c.embed s).docs.lookup (c.embed s).start = s.docs.lookup s.start := by
  obtain ⟨hbefore, hafter⟩ := h.ne_start
  have hnone : ∀ docs : List (Nat × List DocTag), (∀ doc ∈ docs, doc.1 ≠ s.start + c.offset) →
      docs.lookup (s.start + c.offset) = none := fun docs hdocs =>
    List.lookup_eq_none_iff.mpr fun doc hdoc => by
      rw [bne_iff_ne]
      exact (hdocs doc hdoc).symm
  have hmap : ∀ docs : List (Nat × List DocTag),
      (docs.map c.doc).lookup (s.start + c.offset) = docs.lookup s.start := by
    intro docs
    induction docs with
    | nil => rfl
    | cons doc docs ih =>
      obtain ⟨key, tags⟩ := doc
      rw [List.map_cons, Context.doc, List.lookup_cons, List.lookup_cons, ih]
      by_cases hkey : s.start = key
      · simp [hkey]
      · have hkey' : (s.start + c.offset == key + c.offset) = false := by simpa using hkey
        rw [hkey', beq_eq_false_iff_ne.mpr hkey]
  rw [h.start]
  show (c.docsBefore ++ s.docs.map c.doc ++ c.docsAfter).lookup _ = _
  rw [List.lookup_append, List.lookup_append, hnone _ hbefore, hnone _ hafter, hmap]
  simp

theorem filter_docs (h : Fits c level s) :
    (c.embed s).docs.filter (·.1 != (c.embed s).start) =
      c.docsBefore ++ (s.docs.filter (·.1 != s.start)).map c.doc ++ c.docsAfter := by
  obtain ⟨hbefore, hafter⟩ := h.ne_start
  rw [h.start]
  show (c.docsBefore ++ s.docs.map c.doc ++ c.docsAfter).filter _ = _
  have hbefore' : c.docsBefore.filter (·.1 != s.start + c.offset) = c.docsBefore :=
    List.filter_eq_self.mpr fun doc hdoc => by simpa using hbefore doc hdoc
  have hafter' : c.docsAfter.filter (·.1 != s.start + c.offset) = c.docsAfter :=
    List.filter_eq_self.mpr fun doc hdoc => by simpa using hafter doc hdoc
  rw [List.filter_append, List.filter_append, List.filter_map, hbefore', hafter']
  congr 3
  refine List.filter_congr fun doc _ => ?_
  rw [Bool.eq_iff_iff]
  simp [Context.doc]

theorem getElem?_zero (h : Fits c level s) :
    (c.embed s).rest[0]? = shift c.offset s.rest[0]? := by
  cases hrest : s.rest with
  | nil => simp [h.rest_eq_nil hrest]
  | cons token rest => simp [rest_eq_cons hrest]

/-- A token that ends no statement is not the last one of the stretch if others follow, so
that what stands behind it belongs to the stretch too, or a type ends before it. -/
theorem getElem?_succ (h : Fits c level s) {i : Nat} (hi : s.rest[i]? = some token)
    (hkind : token.kind ≠ .rBrace ∧ token.kind ≠ .semicolon) :
    Meets c.offset (c.embed s).rest[i + 1]? s.rest[i + 1]? := by
  have hmap : ∀ j : Nat, (shift c.offset s.rest)[j]? = shift c.offset s.rest[j]? := fun j =>
    List.getElem?_map ..
  have hinside : i + 1 < s.rest.length →
      Meets c.offset (shift c.offset s.rest ++ c.tail)[i + 1]? s.rest[i + 1]? := fun hlt =>
    .inl (by rw [List.getElem?_append_left (by simpa using hlt), hmap])
  rw [Context.embed_rest]
  rcases h.ends with hend | hended | ⟨stop, hstop, hstops⟩
  · exact .inl (by rw [hend, List.append_nil, hmap])
  · exact hinside (hended.succ_lt_length hi hkind.1 hkind.2)
  · by_cases hlt : i + 1 < s.rest.length
    · exact hinside hlt
    · have hle := (List.getElem?_eq_some_iff.mp hi).1
      refine .inr ⟨List.getElem?_eq_none (by omega), stop, ?_, hstops⟩
      have hzero : i + 1 - (shift c.offset s.rest).length = 0 := by
        rw [length_shift]
        omega
      rw [List.getElem?_append_right (by rw [length_shift]; omega), hzero,
        ← List.head?_eq_getElem?]
      exact hstop

/-- The same with the next token taken apart. -/
theorem head?_rest (h : Fits c level s) (hrest : s.rest = token :: rest)
    (hkind : token.kind ≠ .rBrace ∧ token.kind ≠ .semicolon) :
    Meets c.offset (shift c.offset rest ++ c.tail).head? rest.head? := by
  have hone := h.getElem?_succ (show s.rest[0]? = some token by rw [hrest]; rfl) hkind
  rw [rest_eq_cons hrest, hrest, List.getElem?_cons_succ, List.getElem?_cons_succ] at hone
  rwa [List.head?_eq_getElem?, List.head?_eq_getElem?]

theorem isAt (h : Fits c level s) (kind : TokenKind) : (c.embed s).isAt kind = s.isAt kind := by
  unfold State.isAt State.nthIs
  rw [h.getElem?_zero]
  cases s.rest[0]? <;> rfl

theorem nthWord?_zero (h : Fits c level s) : (c.embed s).nthWord? 0 = s.nthWord? 0 := by
  unfold State.nthWord?
  rw [h.getElem?_zero]
  cases s.rest[0]? <;> rfl

theorem atWord (h : Fits c level s) (word : String) : (c.embed s).atWord word = s.atWord word := by
  unfold State.atWord
  rw [h.nthWord?_zero]

theorem nthIsWord_zero (h : Fits c level s) : (c.embed s).nthIsWord 0 = s.nthIsWord 0 := by
  unfold State.nthIsWord
  rw [h.nthWord?_zero]

theorem atNewline (h : Fits c level s) : (c.embed s).atNewline = s.atNewline := by
  unfold State.atNewline
  rw [List.head?_eq_getElem?, List.head?_eq_getElem?, h.getElem?_zero]
  cases s.rest[0]? <;> rfl

theorem atEnd (h : Fits c level s) : (c.embed s).atEnd = s.atEnd := by
  unfold State.atEnd
  cases hrest : s.rest with
  | nil => rw [h.rest_eq_nil hrest]
  | cons token rest => rw [rest_eq_cons hrest]; rfl

theorem endsMembers (h : Fits c level s) : (c.embed s).endsMembers = s.endsMembers := by
  unfold State.endsMembers
  rw [h.atEnd, h.isAt]

theorem atSignature (h : Fits c level s) : (c.embed s).atSignature = s.atSignature := by
  unfold State.atSignature
  rw [h.isAt, h.isAt]

theorem atSuffix (h : Fits c level s) : (c.embed s).atSuffix = s.atSuffix := by
  unfold State.atSuffix
  rw [h.isAt, h.atNewline]

theorem atHeritage (h : Fits c level s) (words : List String) :
    (c.embed s).atHeritage words = s.atHeritage words := by
  unfold State.atHeritage
  rw [h.nthWord?_zero]

theorem endsReturnType (h : Fits c level s) (withBody : Bool) :
    (c.embed s).endsReturnType withBody = s.endsReturnType withBody := by
  unfold State.endsReturnType
  cases hrest : s.rest with
  | nil => rw [h.rest_eq_nil hrest]
  | cons token rest => rw [rest_eq_cons hrest]; rfl

theorem nthIs_succ (h : Fits c level s) {i : Nat} (hi : s.rest[i]? = some token)
    (hkind : token.kind ≠ .rBrace ∧ token.kind ≠ .semicolon) (kind : TokenKind)
    (hstop : kind.stopsType = false) : (c.embed s).nthIs (i + 1) kind = s.nthIs (i + 1) kind := by
  refine (h.getElem?_succ hi hkind).any (fun _ => rfl) fun stop hstops => ?_
  rw [beq_eq_false_iff_ne]
  rintro rfl
  rw [hstop] at hstops
  cases hstops

theorem nthWord?_succ (h : Fits c level s) {i : Nat} (hi : s.rest[i]? = some token)
    (hkind : token.kind ≠ .rBrace ∧ token.kind ≠ .semicolon) :
    (c.embed s).nthWord? (i + 1) = s.nthWord? (i + 1) :=
  (h.getElem?_succ hi hkind).bind_word?

theorem nthIsWord_succ (h : Fits c level s) {i : Nat} (hi : s.rest[i]? = some token)
    (hkind : token.kind ≠ .rBrace ∧ token.kind ≠ .semicolon) :
    (c.embed s).nthIsWord (i + 1) = s.nthIsWord (i + 1) := by
  unfold State.nthIsWord
  rw [h.nthWord?_succ hi hkind]

theorem nthStartsName_succ (h : Fits c level s) {i : Nat} (hi : s.rest[i]? = some token)
    (hkind : token.kind ≠ .rBrace ∧ token.kind ≠ .semicolon) :
    (c.embed s).nthStartsName (i + 1) = s.nthStartsName (i + 1) := by
  refine (h.getElem?_succ hi hkind).any (fun _ => rfl) fun stop hstops => ?_
  cases hkind : stop.kind <;> simp_all [TokenKind.stopsType]

end Fits

section

variable {s : State} {i : Nat}

theorem exists_of_nthIs {kind : TokenKind} (h : s.nthIs i kind) :
    ∃ token, s.rest[i]? = some token ∧ token.kind = kind := by
  simpa [State.nthIs, Option.any_eq_true] using h

theorem exists_of_nthIsWord (h : s.nthIsWord i) :
    ∃ token, s.rest[i]? = some token ∧ token.kind = .word := by
  unfold State.nthIsWord State.nthWord? at h
  cases htoken : s.rest[i]? with
  | none => simp [htoken] at h
  | some token =>
    refine ⟨token, rfl, ?_⟩
    by_cases hkind : token.kind = .word
    · exact hkind
    · simp [htoken, Token.word?, hkind] at h

theorem exists_of_atWord {word : String} (h : s.atWord word) :
    ∃ token, s.rest[0]? = some token ∧ token.kind = .word :=
  exists_of_nthIsWord (by
    have hword : s.nthWord? 0 = some word := by simpa [State.atWord] using h
    rw [State.nthIsWord, hword]
    rfl)

end

namespace Fits

variable {c : Context} {level : Nat} {s : State}

theorem atSegment (h : Fits c level s) : (c.embed s).atSegment = s.atSegment := by
  unfold State.atSegment
  rw [h.isAt]
  by_cases hdot : s.isAt .dot
  · obtain ⟨token, htoken, hkind⟩ := exists_of_nthIs hdot
    rw [h.nthIsWord_succ htoken (by simp [hkind])]
  · simp [hdot]

theorem atWord_and_nthStartsName (h : Fits c level s) (word : String) :
    ((c.embed s).atWord word && (c.embed s).nthStartsName 1) =
      (s.atWord word && s.nthStartsName 1) := by
  rw [h.atWord]
  by_cases hword : s.atWord word
  · obtain ⟨token, htoken, hkind⟩ := exists_of_atWord hword
    rw [h.nthStartsName_succ htoken (by simp [hkind])]
  · simp [hword]

theorem atAccessor (h : Fits c level s) : (c.embed s).atAccessor = s.atAccessor := by
  unfold State.atAccessor
  rw [Bool.and_or_distrib_right, Bool.and_or_distrib_right, h.atWord_and_nthStartsName,
    h.atWord_and_nthStartsName]

theorem atIndexSignature (h : Fits c level s) :
    (c.embed s).atIndexSignature = s.atIndexSignature := by
  unfold State.atIndexSignature
  rw [h.isAt]
  by_cases hbracket : s.isAt .lBracket
  · obtain ⟨token, htoken, hkind⟩ := exists_of_nthIs hbracket
    rw [h.nthIsWord_succ htoken (by simp [hkind])]
    by_cases hword : s.nthIsWord 1
    · obtain ⟨token, htoken, hkind⟩ := exists_of_nthIsWord hword
      rw [h.nthIs_succ htoken (by simp [hkind]) .colon rfl]
    · simp [hword]
  · simp [hbracket]

/-- Words that call for something with a signature. -/
theorem atWord_and_opens (h : Fits c level s) (word : String) :
    ((c.embed s).atWord word && ((c.embed s).nthIs 1 .lParen || (c.embed s).nthIs 1 .lt)) =
      (s.atWord word && (s.nthIs 1 .lParen || s.nthIs 1 .lt)) := by
  rw [h.atWord]
  by_cases hword : s.atWord word
  · obtain ⟨token, htoken, hkind⟩ := exists_of_atWord hword
    rw [h.nthIs_succ htoken (by simp [hkind]) .lParen rfl,
      h.nthIs_succ htoken (by simp [hkind]) .lt rfl]
  · simp [hword]

theorem atVariance (h : Fits c level s) :
    (((c.embed s).atWord "in" || (c.embed s).atWord "out") && (c.embed s).nthIsWord 1) =
      ((s.atWord "in" || s.atWord "out") && s.nthIsWord 1) := by
  rw [h.atWord, h.atWord]
  by_cases hword : s.atWord "in" || s.atWord "out"
  · obtain ⟨token, htoken, hkind⟩ : ∃ token, s.rest[0]? = some token ∧ token.kind = .word := by
      rcases Bool.or_eq_true_iff.mp hword with hword | hword <;> exact exists_of_atWord hword
    rw [h.nthIsWord_succ htoken (by simp [hkind])]
  · simp [hword]

theorem labelLength (h : Fits c level s) : (c.embed s).labelLength = s.labelLength := by
  unfold State.labelLength
  rw [h.nthIsWord_zero]
  by_cases hword : s.nthIsWord 0
  · obtain ⟨token, htoken, hkind⟩ := exists_of_nthIsWord hword
    rw [h.nthIs_succ htoken (by simp [hkind]) .colon rfl,
      h.nthIs_succ htoken (by simp [hkind]) .question rfl]
    by_cases hquestion : s.nthIs 1 .question
    · obtain ⟨token, htoken, hkind⟩ := exists_of_nthIs hquestion
      rw [h.nthIs_succ htoken (by simp [hkind]) .colon rfl]
    · simp [hquestion]
  · simp [hword]

end Fits

theorem sealed_shift {awaited : List TokenKind} {tokens : List Token} (offset : Nat) :
    Sealed awaited (shift offset tokens) ↔ Sealed awaited tokens := by
  induction tokens generalizing awaited with
  | nil => exact Iff.rfl
  | cons token rest ih =>
    constructor
    · intro h
      rw [shift_cons] at h
      generalize hrest : shift offset rest = rest' at h
      cases h with
      | brace hbrace =>
        rw [List.map_eq_nil_iff.mp hrest]
        exact .brace hbrace
      | token hstep hsealed => exact .token hstep (ih.mp (hrest ▸ hsealed))
    · intro h
      cases h with
      | brace hbrace => exact .brace hbrace
      | token hstep hsealed => exact .token hstep (ih.mpr hsealed)

theorem sealedAt_shift {level : Nat} {tokens : List Token} (offset : Nat) :
    SealedAt level (shift offset tokens) ↔ SealedAt level tokens := by
  unfold SealedAt
  simp only [sealed_shift]

theorem ended_shift {tokens : List Token} (offset : Nat) (h : Ended tokens) :
    Ended (shift offset tokens) := by
  obtain ⟨last, hlast, hkind⟩ := h
  refine ⟨shift offset last, ?_, hkind⟩
  show (tokens.map (shift offset)).getLast? = _
  rw [List.getLast?_map, hlast]
  rfl

theorem parted_shift {tail tokens : List Token} (offset : Nat) (h : Parted tail tokens) :
    Parted tail (shift offset tokens) where
  ends := by
    refine h.ends.imp (ended_shift offset) ?_
    rintro ⟨hstop, last, hlast, hword⟩
    refine ⟨hstop, shift offset last, ?_, hword⟩
    show (tokens.map (shift offset)).getLast? = _
    rw [List.getLast?_map, hlast]
    rfl
  bracketed := by
    obtain ⟨awaited, hawaited⟩ := h.bracketed
    refine ⟨awaited, ?_⟩
    have hkinds : (shift offset tokens).map (·.kind) = tokens.map (·.kind) := List.map_map ..
    rwa [Bracketed, hkinds]

/-- A measure that depends neither on places nor, in a sealed stretch, on what follows; in
a loose one it does not if it ends before the stretch. It may be that the next token must
be of a certain kind. -/
structure Local (c : Context) (measure : List Token → Nat) (level : Nat)
    (first : TokenKind → Prop) : Prop where
  shift : ∀ offset tokens, measure (shift offset tokens) = measure tokens
  measures : c.ending = .sealed → ∀ tokens, (∀ token ∈ tokens.head?, first token.kind) →
    SealedAt level tokens → MeasuresTo level measure tokens
  stays : c.ending = .loose → ∀ tokens tail, Parted tail tokens →
    measure tokens < tokens.length → measure (tokens ++ tail) = measure tokens

namespace Fits

variable {c : Context} {level : Nat} {s : State} {measure : List Token → Nat}
  {first : TokenKind → Prop}

theorem head?_shift {tokens : List Token} (h : ∀ token ∈ tokens.head?, first token.kind)
    (offset : Nat) : ∀ token ∈ (shift offset tokens).head?, first token.kind := by
  cases tokens with
  | nil => simp
  | cons token rest => simpa using h

theorem measure_eq (h : Fits c level s) (hm : Local c measure level first)
    (hfirst : ∀ token ∈ s.rest.head?, first token.kind)
    (hcalm : c.Calm (s.advance (measure s.rest))) :
    measure (c.embed s).rest = measure s.rest := by
  rw [Context.embed_rest, ← hm.shift c.offset s.rest]
  rcases h.stretch with ⟨-, hend, -⟩ | ⟨hending, hsealed⟩ | ⟨hending, hparted⟩
  · rw [hend, List.append_nil]
  · exact (hm.measures hending _ (head?_shift hfirst _) ((sealedAt_shift c.offset).mpr hsealed)).1 _
  · refine hm.stays hending _ _ (parted_shift c.offset hparted) ?_
    rw [hm.shift, length_shift]
    exact hcalm.lt_length hending

theorem sealedAt_drop (hm : Local c measure level first)
    (hfirst : ∀ token ∈ s.rest.head?, first token.kind) (hending : c.ending = .sealed)
    (hsealed : SealedAt level s.rest) : SealedAt level (s.rest.drop (measure s.rest)) :=
  (hm.measures hending _ hfirst hsealed).2

theorem advance (h : Fits c level s) {count : Nat}
    (hsealed : c.ending = .sealed → SealedAt level s.rest → SealedAt level (s.rest.drop count))
    (hcalm : c.Calm (s.advance count)) : Fits c level (s.advance count) where
  before := h.before
  after doc hdoc token htoken := h.after doc hdoc token (List.mem_of_mem_drop htoken)
  stretch := h.stretch.imp id <| .imp (fun ⟨hending, h⟩ => ⟨hending, hsealed hending h⟩)
    fun ⟨hending, h⟩ => ⟨hending, h.of_suffix (List.drop_suffix ..) (hcalm.leaves hending)⟩

theorem advance_one (h : Fits c level s) {token : Token} {rest : List Token}
    (hrest : s.rest = token :: rest) (hopen : token.kind ≠ .lBrace)
    (hclose : token.kind ≠ .rBrace) (hcalm : c.Calm (s.advance 1)) : Fits c level (s.advance 1) :=
  h.advance (fun _ hsealed => by
    rw [hrest] at hsealed ⊢
    exact hsealed.of_cons hopen hclose) hcalm

/-- Reading does not go past the stretch. -/
theorem embed_advance (h : Fits c level s) {count : Nat}
    (hsealed : c.ending = .sealed → SealedAt level s.rest → SealedAt level (s.rest.drop count))
    (hcalm : c.Calm (s.advance count)) :
    (c.embed s).advance count = c.embed (s.advance count) := by
  refine c.embed_advance ?_
  rcases h.stretch with ⟨-, hend, -⟩ | ⟨hending, hseal⟩ | ⟨hending, -⟩
  · exact .inr hend
  · have := List.length_pos_iff.mpr (hsealed hending hseal).ne_nil
    rw [List.length_drop] at this
    exact .inl (by omega)
  · exact .inl (Nat.le_of_lt (hcalm.lt_length hending))

end Fits

/-- Run from the embedded state, `p'` does what `p` does, moved along, and the state left
still belongs to the stretch. -/
def Agrees [Shift α] (c : Context) (level : Nat) (s : State) (p' p : Parser α) : Prop :=
  Fits c level s → c.Calm (p s).2 →
    p' (c.embed s) = (shift c.offset (p s).1, c.embed (p s).2) ∧ Fits c level (p s).2

theorem calm_of_forward {c : Context} (p : Parser α) [Forward p] {t : State}
    (h : c.Calm (p t).2) : c.Calm t :=
  h.of_leadsTo (Forward.leadsTo t)

/-- A parser that is the same in the stretch and in the larger source. -/
def Carried [Shift α] (c : Context) (p : Parser α) : Prop :=
  ∀ level s, Agrees c level s p p

/-- Data without a place in the source. -/
class Still (α : Type) [Shift α] : Prop where
  shift_eq : ∀ (offset : Nat) (a : α), shift offset a = a

instance : Still Unit := ⟨fun _ _ => rfl⟩

instance : Still Bool := ⟨fun _ _ => rfl⟩

instance : Still (List DocTag) := ⟨shift_tags⟩

namespace Agrees

variable {α β : Type} [Shift α] [Shift β] {c : Context} {level : Nat} {s : State}
  {p p' q q' : Parser α} {f f' : α → Parser β}

theorem of_run (h : Agrees c level s p' p) (hs : Fits c level s) {result : Except ParseError α}
    {t : State} (hrun : p s = (result, t)) (hcalm : c.Calm t) :
    p' (c.embed s) = (shift c.offset result, c.embed t) ∧ Fits c level t := by
  have hboth := h hs (hrun ▸ hcalm)
  rwa [hrun] at hboth

theorem pure {a a' : α} (h : a' = shift c.offset a) :
    Agrees c level s (Pure.pure a') (Pure.pure a) := by
  intro hs _
  rw [h]
  exact ⟨rfl, hs⟩

theorem bind [∀ a, Forward (f a)] (hp : Agrees c level s p' p)
    (hf : ∀ a t, p s = (.ok a, t) → Agrees c level t (f' (shift c.offset a)) (f a)) :
    Agrees c level s (p' >>= f') (p >>= f) := by
  intro hs hcalm
  rcases hrun : p s with ⟨error | a, t⟩
  · rw [bind_apply_error hrun] at hcalm ⊢
    obtain ⟨hsame, ht⟩ := hp.of_run hs hrun hcalm
    exact ⟨bind_apply_error hsame, ht⟩
  · rw [bind_apply_ok hrun] at hcalm ⊢
    obtain ⟨hsame, ht⟩ := hp.of_run hs hrun (calm_of_forward (f a) hcalm)
    rw [bind_apply_ok hsame]
    exact hf a t hrun ht hcalm

/-- As `bind`, where what the first parser gives has no place in the source. -/
theorem go [Still α] [∀ a, Forward (f a)] (hp : Agrees c level s p' p)
    (hf : ∀ a t, p s = (.ok a, t) → Agrees c level t (f' a) (f a)) :
    Agrees c level s (p' >>= f') (p >>= f) :=
  hp.bind fun a t hrun => by
    rw [Still.shift_eq]
    exact hf a t hrun

theorem look {f f' : State → Parser β}
    (h : Fits c level s → Agrees c level s (f' (c.embed s)) (f s)) :
    Agrees c level s (Parser.look >>= f') (Parser.look >>= f) :=
  fun hs hcalm => h hs hs hcalm

theorem ite {P P' : Prop} [Decidable P] [Decidable P'] (hP : P' ↔ P)
    (hp : P → Agrees c level s p' p) (hq : ¬ P → Agrees c level s q' q) :
    Agrees c level s (if P' then p' else q') (if P then p else q) := by
  by_cases h : P
  · rw [if_pos h, if_pos (hP.mpr h)]
    exact hp h
  · rw [if_neg h, if_neg (fun h' => h (hP.mp h'))]
    exact hq h

theorem fail (fault : Fault) :
    Agrees c level s (Parser.fail fault : Parser α) (Parser.fail fault) := by
  intro hs _
  refine ⟨?_, hs⟩
  show (Except.error ((c.embed s).errorHere fault), c.embed s) = _
  rw [hs.errorHere]
  rfl

/-- A refusal agrees too where the stretch is not sealed; elsewhere it is excluded. -/
theorem refuse : Agrees c level s (Parser.refuse : Parser α) Parser.refuse := by
  intro hs hcalm
  have hnote : Fits c level (s.note .refused) := ⟨hs.before, hs.after, hs.stretch⟩
  refine ⟨?_, hnote⟩
  show (Except.error (((c.embed s).note .refused).errorHere .nestingTooDeep),
    (c.embed s).note .refused) = _
  have hembed : (c.embed s).note .refused = c.embed (s.note .refused) :=
    (c.embed_note s .refused).symm
  rw [hembed, hnote.errorHere]
  rfl

theorem takeDocs : Agrees c level s Parser.takeDocs Parser.takeDocs := by
  intro hs _
  unfold Parser.takeDocs
  rw [hs.lookup_docs, hs.filter_docs]
  cases s.docs.lookup s.start with
  | none => exact ⟨rfl, hs⟩
  | some tags =>
    refine ⟨?_, ⟨hs.before, hs.after, hs.stretch⟩⟩
    dsimp only
    rw [shift_ok, shift_tags]
    rfl

theorem advance {count : Nat}
    (hsealed : c.ending = .sealed → SealedAt level s.rest → SealedAt level (s.rest.drop count)) :
    Agrees c level s (Parser.advance count) (Parser.advance count) := by
  intro hs hcalm
  refine ⟨?_, hs.advance hsealed hcalm⟩
  show (Except.ok (), (c.embed s).advance count) = _
  rw [hs.embed_advance hsealed hcalm]
  rfl

/-- Passing over what is measured ahead. -/
theorem measured {measure : List Token → Nat} {first : TokenKind → Prop}
    (hm : Local c measure level first) (hfirst : ∀ token ∈ s.rest.head?, first token.kind) :
    Agrees c level s (do Parser.advance (measure (← Parser.look).rest))
      (do Parser.advance (measure (← Parser.look).rest)) := by
  intro hs hcalm
  have hadvance : Agrees c level s (Parser.advance (measure (c.embed s).rest))
      (Parser.advance (measure s.rest)) := by
    rw [hs.measure_eq hm hfirst hcalm]
    exact .advance (Fits.sealedAt_drop hm hfirst)
  exact hadvance hs hcalm

/-- Reading the next token, if it is no brace. -/
theorem advance_one {token : Token} {rest : List Token} (hrest : s.rest = token :: rest)
    (hopen : token.kind ≠ .lBrace) (hclose : token.kind ≠ .rBrace) :
    Agrees c level s (Parser.advance 1) (Parser.advance 1) :=
  .advance fun _ hsealed => by
    rw [hrest] at hsealed ⊢
    exact hsealed.of_cons hopen hclose

theorem nested (h : Agrees c level { s with depth := s.depth + 1 } p' p) :
    Agrees c level s (Parser.nested p') (Parser.nested p) := by
  intro hs hcalm
  by_cases hdepth : maxDepth ≤ s.depth
  · have hrefuse : ∀ (q : Parser α) (t : State), t.depth = s.depth →
        Parser.nested q t = Parser.refuse t := fun q t ht => if_pos (ht ▸ hdepth)
    rw [hrefuse p s rfl] at hcalm ⊢
    rw [hrefuse p' _ (c.depth_embed s)]
    exact Agrees.refuse hs hcalm
  · have hdeeper : ∀ (q : Parser α) (t : State), t.depth = s.depth →
        Parser.nested q t = ((q { t with depth := t.depth + 1 }).1,
          { (q { t with depth := t.depth + 1 }).2 with
            depth := (q { t with depth := t.depth + 1 }).2.depth - 1 }) :=
      fun q t ht => if_neg (ht ▸ hdepth)
    rw [hdeeper p s rfl] at hcalm ⊢
    rw [hdeeper p' _ (c.depth_embed s)]
    have hinside : Fits c level { s with depth := s.depth + 1 } := ⟨hs.before, hs.after, hs.stretch⟩
    obtain ⟨hsame, ht⟩ := h hinside ⟨hcalm.accepts, hcalm.leaves, hcalm.keeps⟩
    have hsame' : p' { c.embed s with depth := (c.embed s).depth + 1 } = _ := hsame
    rw [hsame']
    exact ⟨rfl, ht.before, ht.after, ht.stretch⟩

end Agrees

section

variable {c : Context} {level : Nat} {s : State}

theorem embed_advance_one {token : Token} {rest : List Token} (hrest : s.rest = token :: rest) :
    (c.embed s).advance 1 = c.embed (s.advance 1) :=
  c.embed_advance (.inl (by simp [hrest]))

theorem carried_token {kind : TokenKind} (what : Wanted) (hopen : kind ≠ .lBrace)
    (hclose : kind ≠ .rBrace) : Carried c (token kind what) := by
  intro level s hs hcalm
  unfold token at hcalm ⊢
  cases hrest : s.rest with
  | nil =>
    rw [hs.rest_eq_nil hrest]
    exact Agrees.fail _ hs (.of_final (hs.tail_eq_nil hrest).1)
  | cons first rest =>
    rw [hrest] at hcalm
    rw [Fits.rest_eq_cons hrest]
    dsimp only at hcalm ⊢
    by_cases hkind : first.kind = kind
    · rw [if_pos hkind] at hcalm
      rw [if_pos hkind, if_pos (show (shift c.offset first).kind = kind from hkind),
        embed_advance_one hrest]
      exact ⟨rfl, hs.advance_one hrest (hkind ▸ hopen) (hkind ▸ hclose) hcalm⟩
    · rw [if_neg hkind] at hcalm
      rw [if_neg hkind, if_neg (show ¬ (shift c.offset first).kind = kind from hkind)]
      exact Agrees.fail _ hs hcalm

theorem carried_expect {kind : TokenKind} (hopen : kind ≠ .lBrace) (hclose : kind ≠ .rBrace) :
    Carried c (expect kind) :=
  carried_token _ hopen hclose

theorem rest_of_atWord {word : String} (h : s.atWord word) :
    ∃ token rest, s.rest = token :: rest ∧ token.kind = .word := by
  obtain ⟨token, htoken, hkind⟩ := exists_of_atWord h
  exact rest_of_isAt (by simp [State.isAt, State.nthIs, htoken, hkind])

theorem carried_accept {kind : TokenKind} (hopen : kind ≠ .lBrace) (hclose : kind ≠ .rBrace) :
    Carried c (accept kind) := by
  intro level s hs hcalm
  unfold accept at hcalm ⊢
  rw [hs.isAt]
  by_cases hkind : s.isAt kind
  · obtain ⟨token, rest, hrest, htoken⟩ := rest_of_isAt hkind
    rw [if_pos hkind] at hcalm
    rw [if_pos hkind, if_pos hkind, embed_advance_one hrest]
    exact ⟨rfl, hs.advance_one hrest (htoken ▸ hopen) (htoken ▸ hclose) hcalm⟩
  · rw [if_neg hkind, if_neg hkind]
    exact ⟨rfl, hs⟩

theorem carried_acceptWord (word : String) : Carried c (acceptWord word) := by
  intro level s hs hcalm
  unfold acceptWord at hcalm ⊢
  rw [hs.atWord]
  by_cases hword : s.atWord word
  · obtain ⟨token, rest, hrest, hkind⟩ := rest_of_atWord hword
    rw [if_pos hword] at hcalm
    rw [if_pos hword, if_pos hword, embed_advance_one hrest]
    exact ⟨rfl, hs.advance_one hrest (by simp [hkind]) (by simp [hkind]) hcalm⟩
  · rw [if_neg hword, if_neg hword]
    exact ⟨rfl, hs⟩

/-- A mark that was read shortens what is left. -/
theorem length_lt_of_accept {kind : TokenKind} {t : State} (h : accept kind s = (.ok true, t)) :
    t.rest.length < s.rest.length := by
  unfold accept at h
  by_cases hkind : s.isAt kind
  · rw [if_pos hkind] at h
    obtain ⟨token, rest, hrest, -⟩ := rest_of_isAt hkind
    cases h
    exact length_advance_lt Nat.one_pos (by simp [hrest])
  · rw [if_neg hkind] at h
    cases h

end

section

variable {α : Type} {item : Parser α}

theorem upTo_of_not {continues : State → Bool} {s : State} (h : ¬ continues s) (count : Nat) :
    upTo continues item count s = (.ok [], s) := by
  cases count with
  | zero => rfl
  | succ count =>
    show (if continues s then _ else _ : Parser (List α)) s = _
    rw [if_neg h]
    rfl

theorem repeatWhile_of_not {continues : State → Bool} {s : State} (h : ¬ continues s) :
    repeatWhile continues item s = (.ok [], s) :=
  upTo_of_not h _

/-- An item behind a mark is shorter than both. -/
theorem length_lt_of_advance_one [Forward item] {t u : State} {a : α} (hrest : t.rest ≠ [])
    (hrun : (do advance 1; item) t = (.ok a, u)) : u.rest.length < t.rest.length := by
  have hlt := length_advance_lt Nat.one_pos hrest
  have hitem : item (t.advance 1) = (.ok a, u) := hrun
  have hle := (Forward.of_run hitem).rest.length_le
  exact Nat.lt_of_le_of_lt hle hlt

end

section

variable {α : Type} [Shift α] {c : Context} {level : Nat} {item item' : Parser α}

theorem Agrees.optional {s : State} {test : Parser Bool} (htest : Agrees c level s test test)
    [Forward item] (h : ∀ t, Agrees c level t item' item) :
    Agrees c level s (optional test item') (optional test item) := by
  refine htest.go fun found t _ => .ite Iff.rfl (fun _ => ?_) fun _ => .pure rfl
  exact (h t).bind fun a t _ => .pure rfl

/-- The bound on a repetition is not reached, so that it may be any number not below that
of the tokens ahead. -/
theorem Agrees.upTo {continues : State → Bool} [Forward item]
    (hstop : ∀ t : State, t.rest = [] → ¬ continues t)
    (hcontinues : ∀ t, Fits c level t → continues (c.embed t) = continues t)
    (hitem : ∀ t, continues t → Agrees c level t item' item)
    (hconsumes : ∀ (t u : State) (a : α), continues t → item t = (.ok a, u) →
      u.rest.length < t.rest.length)
    (m n : Nat) (s : State) (hm : s.rest.length ≤ m) (hn : s.rest.length ≤ n) :
    Agrees c level s (upTo continues item' m) (upTo continues item n) := by
  induction n generalizing s m with
  | zero =>
    have hrest : s.rest = [] := List.eq_nil_of_length_eq_zero (Nat.le_zero.mp hn)
    intro hs _
    rw [upTo_of_not (hstop s hrest), upTo_of_not (hcontinues s hs ▸ hstop s hrest)]
    exact ⟨rfl, hs⟩
  | succ n ih =>
    by_cases hcont : continues s
    · have hpos := List.length_pos_iff.mpr fun hrest => hstop s hrest hcont
      obtain ⟨m, rfl⟩ := Nat.exists_eq_add_one_of_ne_zero
        (Nat.ne_of_gt (Nat.lt_of_lt_of_le hpos hm))
      refine .look fun hs => .ite (by rw [hcontinues s hs]) (fun _ => ?_) fun h => absurd hcont h
      refine (hitem s hcont).bind fun a t hrun => ?_
      have hlt := hconsumes s t a hcont hrun
      exact (ih m t (by omega) (by omega)).bind fun as u _ => .pure rfl
    · intro hs _
      rw [upTo_of_not hcont, upTo_of_not (hcontinues s hs ▸ hcont)]
      exact ⟨rfl, hs⟩

theorem length_le_embed (s : State) : s.rest.length ≤ (c.embed s).rest.length := by
  simp [Context.embed_rest]

theorem Agrees.repeatWhile {continues : State → Bool} {s : State} [Forward item]
    (hstop : ∀ t : State, t.rest = [] → ¬ continues t)
    (hcontinues : ∀ t, Fits c level t → continues (c.embed t) = continues t)
    (hitem : ∀ t, continues t → Agrees c level t item' item)
    (hconsumes : ∀ (t u : State) (a : α), continues t → item t = (.ok a, u) →
      u.rest.length < t.rest.length) :
    Agrees c level s (repeatWhile continues item') (repeatWhile continues item) :=
  Agrees.upTo hstop hcontinues hitem hconsumes _ _ s (length_le_embed s) (Nat.le_refl _)

theorem Agrees.separated {separator : TokenKind} {s : State} [Forward item]
    (hopen : separator ≠ .lBrace) (hclose : separator ≠ .rBrace)
    (hitem : ∀ t, Agrees c level t item' item) :
    Agrees c level s (separated separator item') (separated separator item) := by
  refine (hitem s).bind fun first t _ => ?_
  refine Agrees.bind ?_ fun others u _ => .pure rfl
  refine .repeatWhile (fun t h => not_isAt_of_rest_eq_nil h) (fun t ht => ht.isAt _) ?_ ?_
  · intro t ht
    obtain ⟨token, rest, hrest, hkind⟩ := rest_of_isAt ht
    exact (Agrees.advance_one hrest (hkind ▸ hopen) (hkind ▸ hclose)).go fun _ u _ => hitem u
  · intro t u a ht hrun
    obtain ⟨token, rest, hrest, -⟩ := rest_of_isAt ht
    exact length_lt_of_advance_one (by simp [hrest]) hrun

theorem Agrees.listUpTo {close : TokenKind} [Forward item]
    (hopen : close ≠ .lBrace) (hclose : close ≠ .rBrace)
    (hitem : ∀ t, Agrees c level t item' item)
    (m n : Nat) (s : State) (hm : s.rest.length < m) (hn : s.rest.length < n) :
    Agrees c level s (listUpTo close item' m) (listUpTo close item n) := by
  induction n generalizing s m with
  | zero => exact absurd hn (Nat.not_lt_zero _)
  | succ n ih =>
    obtain ⟨m, rfl⟩ := Nat.exists_eq_add_one_of_ne_zero (Nat.ne_of_gt (Nat.zero_lt_of_lt hm))
    refine (carried_accept hopen hclose level s).go fun found t hfound => ?_
    refine .ite Iff.rfl (fun _ => .pure rfl) fun _ => ?_
    refine (hitem t).bind fun a u hu => ?_
    refine (carried_accept (by decide) (by decide) level u).go fun comma v hcomma => ?_
    refine .ite Iff.rfl (fun hc => ?_) fun _ => ?_
    · have hlt := length_lt_of_accept (hc ▸ hcomma)
      have hle := (Forward.of_run hfound).rest.length_le
      have hle' := (Forward.of_run hu).rest.length_le
      exact (ih m v (by omega) (by omega)).bind fun as w _ => .pure rfl
    · exact (carried_expect hopen hclose level v).bind fun _ w _ => .pure rfl

theorem Agrees.commaList {close : TokenKind} {s : State} [Forward item]
    (hopen : close ≠ .lBrace) (hclose : close ≠ .rBrace)
    (hitem : ∀ t, Agrees c level t item' item) :
    Agrees c level s (commaList close item') (commaList close item) :=
  Agrees.listUpTo hopen hclose hitem _ _ s (Nat.lt_succ_of_le (length_le_embed s))
    (Nat.lt_succ_self _)

end

end DeclSchema.Parser
