import DeclSchema.Proofs.Checked.Text

/-!
# Tokens cut at bytes

The end of a block comment is found as a number of bytes, and so are the ends of tokens and
the text between two of them. All these cuts fall between characters. The tokens of string
literals are enclosed in quotes of one byte.
-/

namespace DeclSchema.Checked

open Piece

/-- How many bytes stand before the first closing mark of a comment. -/
def findClose? : List Char → Option Nat
  | [] => none
  | c :: cs =>
    if c = '*' && cs.head? == some '/' then
      some 0
    else
      (findClose? cs).map (· + c.utf8Size)

/-- Whether a block comment documents what follows it, from its text behind the opening
mark. -/
def isDocumentation (text : List Char) : Bool :=
  text.head? == some '*' && text != ['*', '/']

/-- The first piece of the text `c :: cs`. A block comment is extended by the bytes up to
and with its closing mark. -/
def first (c : Char) (cs : List Char) : Option Piece :=
  match c, cs with
  | '/', '*' :: remainder =>
    match findClose? remainder with
    | none => some ⟨some .unknown, ['/', '*']⟩
    | some close => do
      let text ← takeBytes (close + 2) remainder
      return ⟨if isDocumentation text then some .docComment else none, '/' :: '*' :: text⟩
  | _, _ => some (Piece.first c cs)

/-- At most `count` pieces of a text. -/
def pieces : Nat → List Char → Option (List Piece)
  | 0, _ => some []
  | _, [] => some []
  | count + 1, c :: cs => do
    let piece ← first c cs
    let rest ← dropBytes (byteLength piece.text) (c :: cs)
    return piece :: (← pieces count rest)

/-- The tokens of a source text, documentation comments among them. -/
def tokenize (source : String) : Option (List Lexeme) :=
  (pieces source.toList.length source.toList).map (Piece.lexemes 0)

theorem findClose?_of_none {cs : List Char} (h : Pattern.commentLength? cs = none) :
    findClose? cs = none := by
  induction cs with
  | nil => rfl
  | cons c cs ih =>
    rw [Pattern.commentLength?] at h
    rw [findClose?]
    split at h
    · cases h
    · next hc => rw [if_neg hc, ih (Option.map_eq_none_iff.mp h), Option.map_none]

/-- The two bytes of the closing mark end the comment. -/
theorem findClose?_of_some {cs : List Char} {length : Nat}
    (h : Pattern.commentLength? cs = some length) :
    ∃ close, findClose? cs = some close ∧ byteLength (cs.take length) = close + 2 := by
  induction cs generalizing length with
  | nil => cases h
  | cons c cs ih =>
    rw [Pattern.commentLength?] at h
    rw [findClose?]
    split at h
    · next hclose =>
      obtain ⟨hstar, hslash⟩ := Bool.and_eq_true_iff.mp hclose
      obtain ⟨rest, rfl⟩ := List.head?_eq_some_iff.mp (by simpa using hslash)
      obtain rfl := of_decide_eq_true hstar
      cases h
      exact ⟨0, if_pos hclose, rfl⟩
    · next hclose =>
      obtain ⟨inner, hinner, rfl⟩ := Option.map_eq_some_iff.mp h
      obtain ⟨close, hfind, hbytes⟩ := ih hinner
      refine ⟨close + c.utf8Size, by rw [if_neg hclose, hfind, Option.map_some], ?_⟩
      rw [List.take_succ_cons, byteLength_cons, hbytes]
      omega

/-- Only the text of a comment decides whether it is documentation. -/
theorem isDocumentation_take {cs : List Char} {length : Nat}
    (h : Pattern.commentLength? cs = some length) :
    isDocumentation (cs.take length) = Pattern.isDocumentation cs := by
  obtain ⟨hlow, hhigh⟩ := Pattern.commentLength?_le h
  have hhead : (cs.take length).head? = cs.head? := by
    rw [List.head?_take, if_neg (by omega)]
  have hempty : cs.take length = ['*', '/'] ↔ cs.take 2 = ['*', '/'] := by
    constructor
    · intro heq
      rw [← Nat.min_eq_left hlow, ← List.take_take, heq]
      rfl
    · intro heq
      rw [← List.take_append_drop 2 cs, heq] at h
      cases h
      exact heq
  unfold isDocumentation Pattern.isDocumentation
  rw [hhead, bne, bne, beq_eq_beq.mpr hempty]

theorem first_eq (c : Char) (cs : List Char) : first c cs = some (Piece.first c cs) := by
  unfold first
  split
  · next remainder =>
    have hfirst : Piece.first '/' ('*' :: remainder) = ⟨(Pattern.slashed ('*' :: remainder)).1,
        '/' :: ('*' :: remainder).take ((Pattern.slashed ('*' :: remainder)).2 - 1)⟩ := rfl
    rw [hfirst, Pattern.slashed]
    cases hcomment : Pattern.commentLength? remainder with
    | none =>
      rw [findClose?_of_none hcomment]
      rfl
    | some length =>
      obtain ⟨close, hfind, hbytes⟩ := findClose?_of_some hcomment
      have htake := takeBytes_append (remainder.take length) (remainder.drop length)
      rw [List.take_append_drop, hbytes] at htake
      rw [hfind]
      simp only [htake, isDocumentation_take hcomment, Option.pure_def, Option.bind_eq_bind,
        Option.bind_some]
      rw [show 2 + length - 1 = length + 1 by omega, List.take_succ_cons]
  · rfl

theorem pieces_eq (count : Nat) (cs : List Char) :
    pieces count cs = some (Piece.take count cs) := by
  induction count generalizing cs with
  | zero => rw [pieces, Piece.take]
  | succ count ih =>
    cases cs with
    | nil => rw [pieces, Piece.take] <;> simp
    | cons c cs =>
      have hdrop := dropBytes_append (Piece.first c cs).text (afterFirst c cs)
      rw [text_first_append_afterFirst] at hdrop
      simp [pieces, first_eq, hdrop, ih, Piece.take]

theorem tokenize_eq (source : String) : tokenize source = some (DeclSchema.tokenize source) := by
  rw [tokenize, pieces_eq, Option.map_some]
  rfl

/-- What a reader sees of lexemes, the first of which stands behind the first `prevEnd` bytes
of a text. The text from there to a lexeme says whether it stands on a later line. -/
def streamFrom (text : List Char) (prevEnd : Nat) (pending : List DocTag) :
    List Lexeme → Option TokenStream
  | [] => some ⟨[], []⟩
  | lexeme :: rest => do
    let between ← slice prevEnd lexeme.span.start text
    if lexeme.kind = .docComment then
      streamFrom text lexeme.span.stop (pending ++ DocTag.ofComment lexeme.text) rest
    else
      let stream ← streamFrom text lexeme.span.stop [] rest
      return ⟨⟨lexeme, between.contains '\n'⟩ :: stream.tokens,
        if pending.isEmpty then stream.docs else (lexeme.span.start, pending) :: stream.docs⟩

/-- The tokens of a source text with its documentation. -/
def stream (source : String) : Option TokenStream := do
  streamFrom source.toList 0 [] (← tokenize source)

/-- Between the last lexeme and the next there are whole characters. -/
theorem streamFrom_eq {text : List Char} {pieces : List Piece} (before between : List Char)
    (h : text = before ++ between ++ (pieces.map Piece.text).flatten) (pending : List DocTag) :
    streamFrom text (byteLength before) pending
        (lexemes (byteLength (before ++ between)) pieces) =
      some (TokenStream.ofPieces (byteLength (before ++ between)) (between.contains '\n') pending
        pieces) := by
  induction pieces generalizing before between pending with
  | nil => rfl
  | cons piece rest ih =>
    have hslice : slice (byteLength before) (byteLength (before ++ between)) text =
        some between := by
      rw [h, byteLength_append]
      exact slice_append ..
    have hstop : byteLength (before ++ between) + byteLength piece.text =
        byteLength (before ++ between ++ piece.text) := (byteLength_append _ _).symm
    have hbehind : ∀ pending, streamFrom text (byteLength (before ++ between ++ piece.text))
        pending (lexemes (byteLength (before ++ between ++ piece.text)) rest) =
          some (TokenStream.ofPieces (byteLength (before ++ between ++ piece.text)) false pending
            rest) := by
      intro pending
      have hrest := ih (before ++ between ++ piece.text) [] (by simp [h]) pending
      rwa [List.append_nil] at hrest
    rw [lexemes, TokenStream.ofPieces, hstop]
    cases hkind : piece.kind with
    | none =>
      have hblank := ih before (between ++ piece.text) (by simp [h]) pending
      rw [← List.append_assoc, List.contains_append] at hblank
      exact hblank
    | some kind =>
      simp only [streamFrom, hslice, Option.bind_eq_bind, Option.bind_some]
      by_cases hdoc : kind = .docComment
      · subst hdoc
        rw [if_pos rfl, hbehind]
      · rw [if_neg hdoc, hbehind]
        cases kind <;> first | exact absurd rfl hdoc | rfl

theorem stream_eq (source : String) : stream source = some (TokenStream.ofSource source) := by
  have hpieces : source.toList = [] ++ [] ++ ((ofText source.toList).map Piece.text).flatten :=
    (flatten_ofText source.toList).symm
  rw [stream, tokenize_eq]
  exact streamFrom_eq [] [] hpieces []

/-- A token of the kind of strings stands between two quotes. -/
def InQuotes (token : Token) : Prop :=
  token.kind = .string → Enclosed token.text.toList

/-- Only the rule for quotes gives strings. -/
theorem next_string {c : Char} {cs : List Char} (h : (Pattern.next c cs).1 = some .string) :
    (c = '"' ∨ c = '\x27') ∧ Pattern.next c cs = Pattern.quoted .string c false cs := by
  unfold Pattern.next at h ⊢
  split at h
  · cases h
  split at h
  · cases h
  split at h
  · cases h
  next hsep hword hdigit =>
  rw [if_neg hsep, if_neg hword, if_neg hdigit]
  split at h
  · exact ⟨.inl rfl, rfl⟩
  · exact ⟨.inr rfl, rfl⟩
  · cases (Pattern.quoted_eq (.inr rfl) h).1
  · exact absurd h (Pattern.slashed_ne (.inr rfl) cs)
  · exact absurd h (Pattern.pointed_ne (.inr rfl) cs)
  · split at h <;> cases h
  · exact absurd (Option.some.inj h) (Pattern.getD_ofMark?_ne (.inr rfl) _)

theorem enclosed_first {c : Char} {cs : List Char} (h : (Piece.first c cs).kind = some .string) :
    Enclosed (Piece.first c cs).text := by
  obtain ⟨hquote, hnext⟩ := next_string h
  rw [Piece.first, hnext] at h
  obtain ⟨inner, hinner⟩ := Pattern.quotedLength_closed (Pattern.quoted_eq (.inr rfl) h).2
  have htext : (Piece.first c cs).text = c :: cs.take (Pattern.quotedLength c false cs).1 := by
    simp [Piece.first, hnext, Pattern.quoted]
  rw [htext, hinner]
  rcases hquote with rfl | rfl <;> exact ⟨_, inner, _, rfl, rfl, rfl⟩

theorem inQuotes_ofSource (source : String) :
    ∀ token ∈ (TokenStream.ofSource source).tokens, InQuotes token := by
  intro token htoken hkind
  obtain ⟨piece, hpiece, hpieceKind, htext⟩ := TokenStream.exists_piece htoken
  obtain ⟨c, cs, rfl⟩ := exists_of_mem_take hpiece
  rw [htext, String.toList_ofList]
  exact enclosed_first (hkind ▸ hpieceKind)

end DeclSchema.Checked
