import DeclSchema.Text.DocTag
import DeclSchema.Token.Lexer

/-!
# What a reader of declarations sees

Documentation comments are no tokens to a reader: their tags are kept beside the
tokens, each list under the start of the token that the comments precede. A token
knows whether a line feed stands between it and the lexeme before it, which may be
a documentation comment.
-/

namespace DeclSchema

/-- A lexeme other than a documentation comment, and whether it stands on a later
line than the lexeme before it. -/
structure Token extends Lexeme where
  newlineBefore : Bool
deriving DecidableEq, Repr, Inhabited

namespace Token

/-- The text of a word. -/
def word? (token : Token) : Option String :=
  if token.kind = .word then some token.text else none

theorem word?_eq_some_iff {token : Token} {word : String} :
    token.word? = some word ↔ token.kind = .word ∧ token.text = word := by
  simp [word?]

theorem word?_eq_none_iff {token : Token} : token.word? = none ↔ token.kind ≠ .word := by
  simp [word?]

end Token

/-- The tokens of a source, and the documentation in front of them. -/
structure TokenStream where
  tokens : List Token
  docs : List (Nat × List DocTag)

namespace TokenStream

/-- Reads the pieces of a source from an offset on. `newline` holds when a line feed
was seen behind the lexeme before, `pending` are the tags that wait for a token. Tags
that no token follows are dropped. -/
def ofPieces (offset : Nat) (newline : Bool) (pending : List DocTag) : List Piece → TokenStream
  | [] => ⟨[], []⟩
  | piece :: rest =>
    let stop := offset + Piece.byteLength piece.text
    match piece.kind with
    | none => ofPieces stop (newline || piece.text.contains '\n') pending rest
    | some .docComment =>
      ofPieces stop false (pending ++ DocTag.ofComment (String.ofList piece.text)) rest
    | some kind =>
      let stream := ofPieces stop false [] rest
      let token : Token := ⟨⟨kind, String.ofList piece.text, ⟨offset, stop⟩⟩, newline⟩
      ⟨token :: stream.tokens,
        if pending.isEmpty then stream.docs else (offset, pending) :: stream.docs⟩

/-- The tokens of a source text with its documentation. -/
def ofSource (source : String) : TokenStream :=
  ofPieces 0 false [] (Piece.ofText source.toList)

end TokenStream

end DeclSchema
