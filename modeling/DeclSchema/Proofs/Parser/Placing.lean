import DeclSchema.Proofs.Parser.Concatenation
import DeclSchema.Proofs.Parser.Forgetting
import DeclSchema.Proofs.Parser.Groups
import DeclSchema.Proofs.Phrase.Steps
import DeclSchema.Proofs.Token.Spelling

/-!
# Texts in their places

A reader that stands before a text of a larger source sees the tokens of the text wherever it
stands. What the text spells can be read one by one. A body is passed over by its brackets,
and a type that is read by itself is read the same in front of a mark that ends types.
-/

namespace DeclSchema

open Pattern TokenStream DeclSchema.Parser

namespace Parser

/-- A text that can stand before others: no lexeme of it is unknown, its brackets are nested,
angle brackets apart, and no line comment is its last piece. -/
structure Embeddable (text : String) : Prop where
  known : ∀ lexeme ∈ tokenize text, lexeme.kind ≠ .unknown
  nested : TokenKind.nests [] (((tokenize text).map (·.kind)).filter (!·.isAngle))
  closed : ¬ Piece.EndsInLine text.toList

/-- A text that is read by itself as a type, all of it and without an error. It does not end
with the word that may be a type or stand before one, and where a return type in it was
given back, the text did not end. -/
structure IsTypeText (text : String) (node : Node) (left : State) : Prop
    extends Embeddable text where
  read : type (.ofSource text) = (.ok node, left)
  whole : left.rest = []
  accepted : left.errors = []
  keeps : .gaveBack true ∉ left.journal
  plainly : EndsPlainly (TokenStream.ofSource text).tokens

/-- The text is what is still to read, and what was read left no trace: no error is recorded and
no level of nesting is open. -/
structure State.Before (s : State) (offset : Nat) (newline : Bool) (pending : List DocTag)
    (cs : List Char) : Prop where
  rest : s.rest = (ofChars offset newline pending cs).tokens
  docs : ∃ old, (∀ doc ∈ old, doc.1 < offset) ∧
    s.docs = old ++ (ofChars offset newline pending cs).docs
  depth : s.depth = 0
  errors : s.errors = []

/-- The text is still to read. -/
def State.Awaits (s : State) (cs : List Char) : Prop :=
  ∃ offset newline pending, s.Before offset newline pending cs

/-- The text is still to read, and neither documentation nor a line feed was seen before it. -/
def State.Stands (s : State) (cs : List Char) : Prop :=
  ∃ offset, s.Before offset false [] cs

theorem State.Stands.awaits {s : State} {cs : List Char} (h : s.Stands cs) : s.Awaits cs := by
  obtain ⟨offset, hbefore⟩ := h
  exact ⟨offset, false, [], hbefore⟩

section

variable {s t : State} {offset stop : Nat} {newline behind : Bool} {pending waiting : List DocTag}
  {cs tail : List Char}

/-- The tokens of a first part are read. -/
theorem State.Before.pass {first : TokenStream} (h : s.Before offset newline pending cs)
    (hsplit : ofChars offset newline pending cs = first ++ ofChars stop behind waiting tail)
    (hstop : offset ≤ stop) (hfirst : ∀ doc ∈ first.docs, doc.1 < stop) :
    (s.advance first.tokens.length).Before stop behind waiting tail := by
  obtain ⟨old, hold, hdocs⟩ := h.docs
  refine ⟨?_, ⟨old ++ first.docs, fun doc hdoc => ?_, ?_⟩, h.depth, h.errors⟩
  · rw [State.rest_advance, h.rest, hsplit]
    exact List.drop_left' rfl
  · rcases List.mem_append.mp hdoc with hdoc | hdoc
    · exact Nat.lt_of_lt_of_le (hold doc hdoc) hstop
    · exact hfirst doc hdoc
  · rw [State.docs_advance, hdocs, hsplit, docs_append, List.append_assoc]

/-- A text that spells tokens comes next: they are seen, and behind them stands what follows. -/
theorem State.Stands.spells {text : String} {glyphs : List Glyph}
    (h : s.Stands (text.toList ++ tail)) (hspells : Spells text glyphs tail) :
    (∃ left, s.glyphs = glyphs ++ left) ∧ (s.advance glyphs.length).Stands tail := by
  obtain ⟨offset, hbefore⟩ := h
  obtain ⟨tokens, htokens, hglyphs⟩ := hspells offset
  have hlength : glyphs.length = tokens.length := by rw [← hglyphs, List.length_map]
  constructor
  · refine ⟨(ofChars (offset + Piece.byteLength text.toList) false [] tail).tokens.map Token.glyph,
      ?_⟩
    rw [State.glyphs, hbefore.rest, htokens, ← hglyphs]
    exact List.map_append
  · rw [hlength]
    exact ⟨_, hbefore.pass htokens (Nat.le_add_right _ _) (List.forall_mem_nil _)⟩

/-- No documentation belongs to the first of the tokens. -/
theorem State.Stands.lookup_docs {text : String} {glyph : Glyph} {glyphs : List Glyph}
    (h : s.Stands (text.toList ++ tail)) (hspells : Spells text (glyph :: glyphs) tail) :
    s.docs.lookup s.start = none := by
  obtain ⟨offset, hbefore⟩ := h
  obtain ⟨old, hold, hdocs⟩ := hbefore.docs
  obtain ⟨tokens, htokens, hglyphs⟩ := hspells offset
  obtain ⟨first, others, rfl, -, -⟩ := List.map_eq_cons_iff.mp hglyphs
  have hpieces : ∀ piece ∈ Piece.ofText (text.toList ++ tail), piece.text ≠ [] :=
    fun _ hpiece => Piece.ne_nil_of_mem_ofText hpiece
  have horder := inOrder_ofPieces hpieces offset false []
  have hrest := hbefore.rest
  unfold ofChars at htokens hrest hdocs
  rw [htokens] at horder hrest hdocs
  obtain ⟨hfirst, hproper, hothers⟩ := horder
  have hstart : s.start = first.span.start := by
    rw [State.start, hrest]
    rfl
  rw [hdocs, hstart, List.lookup_append]
  have hbehind := List.lookup_eq_none_iff.mpr fun doc (hdoc : doc ∈ old) =>
    bne_iff_ne.mpr (Nat.ne_of_gt (Nat.lt_of_lt_of_le (hold doc hdoc) hfirst))
  have hahead : List.lookup first.span.start _ = none := lookup_of_lt fun doc hdoc => by
    obtain ⟨token, htoken, hsame⟩ := mem_docs_ofPieces hdoc
    have hbounds := hothers.bounds (List.mem_append_right others htoken)
    omega
  rw [hbehind]
  exact hahead

theorem State.Stands.space (h : s.Stands (' ' :: cs)) : s.Stands cs := by
  obtain ⟨offset, hrest, ⟨old, hold, hdocs⟩, hdepth, herrors⟩ := h
  rw [ofChars_separator (by decide)] at hrest hdocs
  exact ⟨_, hrest, ⟨old, fun doc hdoc => Nat.lt_add_right _ (hold doc hdoc), hdocs⟩, hdepth,
    herrors⟩

/-- White space does not matter. -/
theorem State.Awaits.separator {c : Char} (h : s.Awaits (c :: cs)) (hc : isSeparator c) :
    s.Awaits cs := by
  obtain ⟨offset, newline, pending, hrest, ⟨old, hold, hdocs⟩, hdepth, herrors⟩ := h
  rw [ofChars_separator hc] at hrest hdocs
  exact ⟨_, _, _, hrest, ⟨old, fun doc hdoc => Nat.lt_add_right _ (hold doc hdoc), hdocs⟩, hdepth,
    herrors⟩

/-- A mark comes next. What waits in front of it does not matter behind it. -/
theorem State.Awaits.mark {c : Char} {kind : TokenKind} (h : s.Awaits (c :: tail))
    (hkind : TokenKind.ofMark? c = some kind) (hlong : c ∉ ['/', '.', '='])
    (hdoc : kind ≠ .docComment) :
    ∃ token rest, s.rest = token :: rest ∧ token.kind = kind ∧ (s.advance 1).Stands tail := by
  obtain ⟨offset, newline, pending, hbefore⟩ := h
  have hsplit : ofChars offset newline pending (c :: tail) = _ := ofChars_mark hkind hlong hdoc tail
  have hpos : 0 < Piece.byteLength [c] := Piece.byteLength_pos (List.cons_ne_nil _ _)
  refine ⟨_, _, hbefore.rest.trans (congrArg TokenStream.tokens hsplit), rfl, _,
    hbefore.pass hsplit (Nat.le_add_right _ _) fun doc hmem => ?_⟩
  unfold single at hmem
  dsimp only at hmem
  split at hmem
  · exact absurd hmem List.not_mem_nil
  · rw [List.mem_singleton.mp hmem]
    exact Nat.lt_add_of_pos_right hpos

end

section

variable {text : String} {s : State} {tail : List Char}

/-- A text before a character that breaks is cut into its own tokens, and they are nested. -/
theorem Embeddable.ofChars_append (h : Embeddable text) {d : Char} (hd : breaks d) (hgt : d ≠ '>')
    (offset : Nat) (tail : List Char) :
    ∃ newline pending, ofChars offset false [] (text.toList ++ d :: tail) =
      ofChars offset false [] text.toList ++
        ofChars (offset + text.utf8ByteSize) newline pending (d :: tail) := by
  obtain ⟨newline, hsplit⟩ := exists_ofChars_append hd hgt (Piece.clean_of_tokenize h.known)
    (.inr h.closed) tail
  rw [Piece.utf8ByteSize_eq]
  exact ⟨newline, _, hsplit⟩

theorem Embeddable.bracketed (h : Embeddable text) (offset : Nat) :
    Bracketed [] (ofChars offset false [] text.toList).tokens := by
  unfold Bracketed ofChars
  rw [kinds_ofPieces 0, List.filter_comm, nests_filter]
  exact h.nested

/-- Wherever it stands, a text has its own tokens and its own documentation. -/
theorem ofChars_eq_shift (text : String) (offset : Nat) :
    ofChars offset false [] text.toList =
      ⟨shift offset (TokenStream.ofSource text).tokens,
        (TokenStream.ofSource text).docs.map fun doc => (doc.1 + offset, doc.2)⟩ := by
  have hmoved : ofPieces (0 + offset) false [] (Piece.ofText text.toList) = _ := ofPieces_add offset _
  rwa [Nat.zero_add] at hmoved

/-- What stands around a text in a larger source, where a state stands before the text and a
stream comes behind it. -/
def Context.around (s : State) (old : List (Nat × List DocTag)) (offset : Nat)
    (tail : TokenStream) : Context where
  ending := .loose
  offset := offset
  docsBefore := old
  docsAfter := tail.docs
  errors := []
  journal := s.journal
  tail := tail.tokens
  length := s.length

section

variable {old : List (Nat × List DocTag)} {offset : Nat} {behind : TokenStream}

theorem embed_around (hrest : s.rest = (ofChars offset false [] text.toList ++ behind).tokens)
    (hdocs : s.docs = old ++ (ofChars offset false [] text.toList ++ behind).docs)
    (hdepth : s.depth = 0) (herrors : s.errors = []) :
    (Context.around s old offset behind).embed (.ofSource text) = s.behind offset := by
  rw [docs_append, ← List.append_assoc] at hdocs
  unfold State.behind
  rw [hrest, hdocs, hdepth, herrors, ofChars_eq_shift]
  show State.mk _ (0 + offset) s.length _ 0 ([] ++ shift offset []) (s.journal ++ [].map _) = _
  rw [Nat.zero_add, List.map_nil, List.append_nil]
  rfl

theorem Embeddable.fits_around (h : Embeddable text) (hold : ∀ doc ∈ old, doc.1 < offset)
    (hbehind : ∀ doc ∈ behind.docs, offset + text.utf8ByteSize ≤ doc.1)
    (hstop : StartsWithStop behind.tokens)
    (hplainly : EndsPlainly (TokenStream.ofSource text).tokens) :
    Fits (Context.around s old offset behind) 0 (.ofSource text) where
  before := hold
  after doc hdoc token htoken := by
    have hdoc := hbehind doc hdoc
    have htoken := ((inOrder_ofSource text).bounds htoken).2
    show doc.1 ≠ token.span.start + offset
    omega
  stretch := .inr (.inr ⟨rfl, .inr ⟨hstop, hplainly⟩, [], h.bracketed 0⟩)

/-- Behind a text that was read to its end, the stream behind it comes next. -/
theorem awaits_embed_around {left : State} {newline : Bool} {pending : List DocTag}
    (hold : ∀ doc ∈ old, doc.1 < offset)
    (hleft : left.docs.Sublist (TokenStream.ofSource text).docs) (hwhole : left.rest = [])
    (hdepth : left.depth = 0) (herrors : left.errors = []) :
    ((Context.around s old offset
      (ofChars (offset + text.utf8ByteSize) newline pending tail)).embed left).Awaits tail := by
  refine ⟨offset + text.utf8ByteSize, newline, pending, ?_,
    ⟨old ++ left.docs.map (Context.around s old offset _).doc, fun doc hdoc => ?_, rfl⟩, hdepth, ?_⟩
  · rw [Context.embed_rest, hwhole]
    rfl
  · rcases List.mem_append.mp hdoc with hdoc | hdoc
    · exact Nat.lt_add_right _ (hold doc hdoc)
    · obtain ⟨own, hown, rfl⟩ := List.mem_map.mp hdoc
      have hown : own ∈ (ofChars 0 false [] text.toList).docs := hleft.subset hown
      have hlt := (bounds_of_mem_docs_ofChars hown).2
      show own.1 + offset < _
      omega
  · show [] ++ shift offset left.errors = []
    rw [herrors]
    rfl

end

/-- A type is read as it is by itself, and the mark behind it comes next. -/
theorem IsTypeText.type_eq {node : Node} {left : State} (h : IsTypeText text node left) {d : Char}
    (hd : d ∈ [';', ',', ')']) (hs : s.Stands (text.toList ++ d :: tail)) :
    ∃ offset t, type s = (.ok (shift offset node), t) ∧ t.Awaits (d :: tail) := by
  obtain ⟨hbreaks, hgt, hlong, kind, hkind, hstops, hdoc⟩ : breaks d ∧ d ≠ '>' ∧
      d ∉ ['/', '.', '='] ∧
        ∃ kind, TokenKind.ofMark? d = some kind ∧ kind.stopsType ∧ kind ≠ .docComment := by
    simp only [List.mem_cons, List.not_mem_nil, or_false] at hd
    rcases hd with rfl | rfl | rfl <;>
      exact ⟨by decide, by decide, by decide, _, rfl, by decide, by decide⟩
  obtain ⟨offset, hrest, ⟨old, hold, hdocs⟩, hdepth, herrors⟩ := hs
  obtain ⟨newline, pending, hsplit⟩ := h.toEmbeddable.ofChars_append hbreaks hgt offset tail
  rw [hsplit] at hrest hdocs
  have hstop : StartsWithStop
      (ofChars (offset + text.utf8ByteSize) newline pending (d :: tail)).tokens := by
    have hmark : ofChars (offset + text.utf8ByteSize) newline pending (d :: tail) = _ :=
      ofChars_mark hkind hlong hdoc tail
    exact ⟨⟨⟨kind, String.ofList [d], ⟨_, _⟩⟩, newline⟩, congrArg (·.tokens.head?) hmark, hstops⟩
  have hfits := h.toEmbeddable.fits_around (s := s) hold (fun _ hdoc => le_of_mem_docs_ofChars hdoc)
    hstop h.plainly
  have hlands := orderly_type _ (State.ordered_ofSource text)
  have hkeeps : .gaveBack true ∉ (type (.ofSource text)).2.journal := by
    rw [h.read]
    exact h.keeps
  rw [h.read] at hlands
  have hrun := closes_type ⟨rfl, .inr hstop⟩ hfits hkeeps node left h.read h.whole
  rw [embed_around hrest hdocs hdepth herrors] at hrun
  -- Where the token before the type ends does not matter.
  have hself : type s = _ := forgets_type (s := s.behind offset) s.prevEnd _ _ hrun
  exact ⟨offset, _, hself,
    awaits_embed_around hold hlands.1.docs h.whole hlands.1.depth h.accepted⟩

/-- A body in braces is passed over. -/
theorem Embeddable.skipGroup_eq (h : Embeddable text)
    (hs : s.Stands (("\x7b " ++ text ++ " \x7d").toList ++ tail)) :
    ∃ t, skipGroup s = (.ok (), t) ∧ t.Stands tail := by
  rw [String.toList_append, String.toList_append, List.append_assoc, List.append_assoc] at hs
  have hspells : Spells "\x7b " [.inline .lBrace "\x7b"]
      (text.toList ++ (" \x7d".toList ++ tail)) := .marks "\x7b " rfl
  obtain ⟨⟨left, hglyphs⟩, offset, hinside⟩ := hs.spells hspells
  obtain ⟨opening, rest, hrest, hopening⟩ := State.exists_rest hglyphs
  obtain ⟨newline, pending, hsplit⟩ := h.ofChars_append (d := ' ') (by decide) (by decide) offset
    ('\x7d' :: tail)
  have hbehind := hinside.pass hsplit (Nat.le_add_right _ _) fun doc hdoc =>
    (bounds_of_mem_docs_ofChars hdoc).2
  have hspace : State.Awaits _ ('\x7d' :: tail) :=
    State.Awaits.separator ⟨_, _, _, hbehind⟩ (by decide)
  obtain ⟨closing, behind, hend, hclose, hstands⟩ := hspace.mark rfl (by decide) (by decide)
  have hgroup : rest = (ofChars offset false [] text.toList).tokens ++ closing :: behind := by
    rw [← hend, hbehind.rest]
    have hnext : (s.advance 1).rest = rest := rest_advance_one hrest
    rw [← hnext]
    exact hinside.rest.trans (congrArg TokenStream.tokens hsplit)
  have hopen : opening.kind = .lBrace := congrArg Glyph.kind hopening
  have hlength : groupLength 0 s.rest =
      (ofChars offset false [] text.toList).tokens.length + 2 := by
    rw [hrest, hgroup]
    exact groupLength_of_closed (by rw [hopen]; rfl) ((h.bracketed offset).closesAll rfl)
      (by rw [hopen, hclose]; rfl) behind
  rw [State.advance_advance, State.advance_advance] at hstands
  refine ⟨_, rfl, ?_⟩
  rw [hlength]
  convert hstands using 2
  show _ = 1 + _ + 1
  omega

end

end Parser

end DeclSchema
