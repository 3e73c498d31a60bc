import DeclSchema.Parser.Declaration
import DeclSchema.Proofs.Checked.Tokens
import Mathlib.Data.List.Forall2

/-!
# Line feeds in front of tokens

A token knows of the line feeds behind the lexeme before it. That lexeme may be a
documentation comment, which is no token to a reader: line feeds in front of such a comment
and inside of it then go unseen, while those around a comment that only separates tokens
are seen.
-/

namespace DeclSchema

open Piece Checked

/-- Where the last of some lexemes ends; the beginning of the source when there is none. -/
def stopOf (lexemes : List Lexeme) : Nat :=
  (lexemes.getLast?.map (·.span.stop)).getD 0

@[simp] theorem stopOf_nil : stopOf [] = 0 := rfl

@[simp] theorem stopOf_concat (lexemes : List Lexeme) (lexeme : Lexeme) :
    stopOf (lexemes ++ [lexeme]) = lexeme.span.stop := by
  simp [stopOf]

namespace TokenStream

/-- What stands in front of a token. `kept` are the tokens before it, `earlier` the lexemes
before it. The text behind the former is `documented ++ gap`, that behind the latter is
`gap`, and `gap` alone says whether the token is the first of its line. -/
structure Sees (text : List Char) (kept earlier : List Lexeme) (token : Token)
    (documented gap : List Char) : Prop where
  kept_eq : earlier.filter (·.kind != .docComment) = kept
  between : slice (stopOf kept) token.span.start text = some (documented ++ gap)
  behind : slice (stopOf earlier) token.span.start text = some gap
  newline : token.newlineBefore = gap.contains '\n'

theorem tokens_ofPieces_of_kind {piece : Piece} {kind : TokenKind} (hkind : piece.kind = some kind)
    (hdoc : kind ≠ .docComment) (offset : Nat) (newline : Bool) (pending : List DocTag)
    (rest : List Piece) :
    (ofPieces offset newline pending (piece :: rest)).tokens =
      ⟨⟨kind, String.ofList piece.text, ⟨offset, offset + byteLength piece.text⟩⟩, newline⟩ ::
        (ofPieces (offset + byteLength piece.text) false [] rest).tokens := by
  rw [ofPieces, hkind]
  cases kind <;> first | exact absurd rfl hdoc | rfl

/-- In front of the pieces stand the text `read`, which ends with a token, the text
`documented`, which ends with a documentation comment unless it is empty, and the text `gap`
without lexemes. -/
theorem sees_ofPieces {text : List Char} {pieces : List Piece} {before behind : List Token}
    {token : Token} (read documented gap : List Char) (kept earlier : List Lexeme) {offset : Nat}
    {newline : Bool} {pending : List DocTag}
    (htext : text = read ++ documented ++ gap ++ (pieces.map Piece.text).flatten)
    (hoffset : offset = byteLength (read ++ documented ++ gap))
    (hnewline : newline = gap.contains '\n')
    (hfilter : earlier.filter (·.kind != .docComment) = kept)
    (hkept : stopOf kept = byteLength read)
    (hearlier : stopOf earlier = byteLength (read ++ documented))
    (h : (ofPieces offset newline pending pieces).tokens = before ++ token :: behind) :
    ∃ more later documented gap, lexemes offset pieces = more ++ token.toLexeme :: later ∧
      Sees text (kept ++ before.map Token.toLexeme) (earlier ++ more) token documented gap := by
  induction pieces generalizing read documented gap kept earlier offset newline pending before with
  | nil => simp [ofPieces] at h
  | cons piece rest ih =>
    rw [lexemes]
    have hstop : offset + byteLength piece.text =
        byteLength (read ++ documented ++ gap ++ piece.text) := by
      rw [hoffset, ← byteLength_append]
    rw [List.map_cons, List.flatten_cons, ← List.append_assoc] at htext
    cases hkind : piece.kind with
    | none =>
      rw [ofPieces, hkind] at h
      exact ih read documented (gap ++ piece.text) kept earlier (by simpa using htext)
        (by simpa using hstop) (by rw [hnewline, List.contains_append]) hfilter hkept hearlier h
    | some kind =>
      by_cases hdoc : kind = .docComment
      · -- The comment is a lexeme, so what follows it does not see what stands before it.
        subst hdoc
        rw [ofPieces, hkind] at h
        obtain ⟨more, later, documented', gap', hlexemes, hsees⟩ :=
          ih read (documented ++ gap ++ piece.text) [] kept
            (earlier ++ [⟨.docComment, String.ofList piece.text, ⟨offset, _⟩⟩])
            (by simpa using htext) (by simpa using hstop) rfl (by simpa using hfilter) hkept
            (by simpa using hstop) h
        refine ⟨_ :: more, later, documented', gap', congrArg _ hlexemes, ?_⟩
        simpa using hsees
      · rw [tokens_ofPieces_of_kind hkind hdoc] at h
        cases before with
        | nil =>
          obtain ⟨rfl, -⟩ := List.cons.inj h
          have hbehind := slice_append (read ++ documented) gap
            (piece.text ++ (rest.map Piece.text).flatten)
          have hbetween := slice_append read (documented ++ gap)
            (piece.text ++ (rest.map Piece.text).flatten)
          refine ⟨[], _, documented, gap, rfl, by simpa using hfilter, ?_, ?_, hnewline⟩
          · simpa [hkept, hoffset, htext, Nat.add_assoc] using hbetween
          · simpa [hearlier, hoffset, htext, Nat.add_assoc] using hbehind
        | cons first before =>
          obtain ⟨rfl, hrest⟩ := List.cons.inj h
          obtain ⟨more, later, documented', gap', hlexemes, hsees⟩ :=
            ih (read ++ documented ++ gap ++ piece.text) [] []
              (kept ++ [⟨kind, String.ofList piece.text,
                ⟨offset, offset + byteLength piece.text⟩⟩])
              (earlier ++ [⟨kind, String.ofList piece.text,
                ⟨offset, offset + byteLength piece.text⟩⟩])
              (by simpa using htext) (by simpa using hstop) rfl
              (by simp [List.filter_append, hfilter, hdoc]) (by simpa using hstop)
              (by simpa using hstop) hrest
          refine ⟨_ :: more, later, documented', gap', congrArg _ hlexemes, ?_⟩
          simpa using hsees

/-- A piece, or a comment that only separates tokens in place of a documentation comment,
with line feeds if that one has some. -/
def Undocuments (piece other : Piece) : Prop :=
  piece.kind ≠ some .docComment ∧ other = piece ∨
    piece.kind = some .docComment ∧ other.kind = none ∧
      other.text.contains '\n' = piece.text.contains '\n'

instance (piece other : Piece) : Decidable (Undocuments piece other) :=
  inferInstanceAs (Decidable (_ ∨ _))

/-- What is read of a token, wherever it stands. -/
def content (token : Token) : TokenKind × String × Bool :=
  (token.kind, token.text, token.newlineBefore)

/-- The tokens with the line feeds between each of them and the token before it, which ends
at `stop` for the first. -/
def withLineFeeds (text : List Char) : Nat → List Token → List Token
  | _, [] => []
  | stop, token :: rest =>
    { token with newlineBefore := (slice stop token.span.start text).any (·.contains '\n') } ::
      withLineFeeds text token.span.stop rest

theorem content_ofPieces_undocumented {text : List Char} {pieces others : List Piece}
    (hothers : List.Forall₂ Undocuments pieces others) (read between : List Char)
    {offset offset' : Nat} {newline newline' : Bool} {pending pending' : List DocTag}
    (htext : text = read ++ between ++ (pieces.map Piece.text).flatten)
    (hoffset : offset = byteLength (read ++ between))
    (hnewline : newline' = between.contains '\n') :
    (ofPieces offset' newline' pending' others).tokens.map content =
      (withLineFeeds text (byteLength read)
        (ofPieces offset newline pending pieces).tokens).map content := by
  induction hothers generalizing read between offset offset' newline newline' pending pending' with
  | nil => rfl
  | @cons piece other rest rest' hpiece hrest ih =>
    have hstop : offset + byteLength piece.text = byteLength (read ++ between ++ piece.text) := by
      rw [hoffset, ← byteLength_append]
    rw [List.map_cons, List.flatten_cons, ← List.append_assoc] at htext
    have hskip : ∀ {offset' newline pending pending'},
        (ofPieces offset' (newline' || piece.text.contains '\n') pending'
          rest').tokens.map content =
          (withLineFeeds text (byteLength read)
            (ofPieces (offset + byteLength piece.text) newline pending rest).tokens).map content :=
      ih read (between ++ piece.text) (by simpa using htext) (by simpa using hstop)
        (by rw [hnewline, List.contains_append])
    rcases hpiece with ⟨hdoc, rfl⟩ | ⟨hdoc, hnone, hfeed⟩
    · cases hkind : other.kind with
      | none =>
        rw [ofPieces, ofPieces, hkind]
        exact hskip
      | some kind =>
        have hdoc : kind ≠ .docComment := fun heq => hdoc (heq ▸ hkind)
        have hslice := slice_append read between (other.text ++ (rest.map Piece.text).flatten)
        rw [← byteLength_append, ← hoffset, ← List.append_assoc _ other.text, ← htext] at hslice
        rw [tokens_ofPieces_of_kind hkind hdoc, tokens_ofPieces_of_kind hkind hdoc, withLineFeeds,
          List.map_cons, List.map_cons]
        refine congrArg₂ _ ?_ ?_
        · rw [content, content, hslice, hnewline, Option.any_some]
        · rw [hstop]
          exact ih (read ++ between ++ other.text) [] (by simpa using htext)
            (by simp) rfl
    · rw [ofPieces, ofPieces, hdoc, hnone, hfeed]
      exact hskip

/-- A token stands on a later line than the lexeme before it, documentation comments among
the lexemes. With regard to the token before it this is right unless there are line feeds in
front of or inside of the last documentation comment between them, and none behind it. A
source with other comments in place of all documentation comments has the same tokens, each
with the line feeds between it and the token before it. -/
theorem newlineBefore_exactly (source : String) :
    (∀ (before behind : List Token) (token : Token),
      (ofSource source).tokens = before ++ token :: behind →
      ∃ earlier later documented gap,
        tokenize source = earlier ++ token.toLexeme :: later ∧
        earlier.filter (·.kind != .docComment) = before.map Token.toLexeme ∧
        slice (stopOf (before.map Token.toLexeme)) token.span.start source.toList =
          some (documented ++ gap) ∧
        slice (stopOf earlier) token.span.start source.toList = some gap ∧
        (token.newlineBefore = true ↔ '\n' ∈ gap) ∧
        ((token.newlineBefore = true ↔ '\n' ∈ documented ++ gap) ↔
          ('\n' ∈ documented → '\n' ∈ gap))) ∧
    ∀ other : String,
      List.Forall₂ Undocuments (ofText source.toList) (ofText other.toList) →
      (ofSource other).tokens.map content =
        (withLineFeeds source.toList 0 (ofSource source).tokens).map content := by
  have htext : source.toList = [] ++ [] ++ ((ofText source.toList).map Piece.text).flatten :=
    (flatten_ofText source.toList).symm
  refine ⟨fun before behind token h => ?_, fun other hother => ?_⟩
  · obtain ⟨earlier, later, documented, gap, hlexemes, hsees⟩ :=
      sees_ofPieces [] [] [] [] [] htext rfl rfl rfl rfl rfl h
    have hnewline : token.newlineBefore = true ↔ '\n' ∈ gap := by
      rw [hsees.newline, List.contains_iff_mem]
    refine ⟨earlier, later, documented, gap, hlexemes, hsees.kept_eq, hsees.between, hsees.behind,
      hnewline, ?_⟩
    rw [hnewline, List.mem_append]
    tauto
  · exact content_ofPieces_undocumented hother [] [] htext rfl rfl

/-- A comment in place of a documentation comment. -/
theorem newlineBefore_exactly_comment :
    (ofSource "x: B\n/* */ [k").tokens.map content =
      (withLineFeeds "x: B\n/** */ [k".toList 0
        (ofSource "x: B\n/** */ [k").tokens).map content :=
  (newlineBefore_exactly "x: B\n/** */ [k").2 "x: B\n/* */ [k" (by decide +kernel)

/-- A line feed in front of a documentation comment goes unseen: the bracket that begins the
next member is read as that of an indexed type, and the interface has an error that it does
not have with another comment in place of the documentation. -/
theorem not_newlineBefore_behind_documentation :
    let source := "interface A\x7bx:B\n/** */[k:C]:D\x7d"
    let other := "interface A\x7bx:B\n/* */[k:C]:D\x7d"
    (∃ before behind token gap, (ofSource source).tokens = before ++ token :: behind ∧
      slice (stopOf (before.map Token.toLexeme)) token.span.start source.toList = some gap ∧
      '\n' ∈ gap ∧ token.newlineBefore = false) ∧
    List.Forall₂ Undocuments (ofText source.toList) (ofText other.toList) ∧
    (Parse.ofSource source).errors ≠ [] ∧ (Parse.ofSource other).errors = [] := by
  intro source other
  refine ⟨⟨(ofSource source).tokens.take 6, (ofSource source).tokens.drop 7,
    ⟨⟨.lBracket, "[", ⟨22, 23⟩⟩, false⟩, "\n/** */".toList, ?_⟩, ?_⟩
  · decide +kernel
  · decide +kernel

end TokenStream

end DeclSchema
