import DeclSchema.Token.Pattern

/-!
# Cutting a text into tokens

`pieces` cuts a source text from left to right into tokens and the text between
them. `flatten_pieces` says that the pieces tile the source: written one after the
other they are the source again. `tokenize` leaves out what only separates tokens
and says where each token stands.
-/

namespace DeclSchema

/-- A part of the source: a token, or text that only separates tokens when there is
no kind. -/
structure Piece where
  kind : Option TokenKind
  text : List Char
deriving DecidableEq, Repr

namespace Piece

-- The sum starts from the zero of the core library, whatever is imported.
attribute [local instance (1100)] Zero.ofOfNat0 in
/-- The number of bytes of a text in UTF-8. -/
def byteLength (cs : List Char) : Nat :=
  (cs.map Char.utf8Size).sum

/-- The first piece of the text `c :: cs`. It is never empty. -/
def first (c : Char) (cs : List Char) : Piece :=
  let (kind, length) := Pattern.next c cs
  ⟨kind, c :: cs.take (length - 1)⟩

/-- What the first piece leaves of the text `c :: cs`. -/
def afterFirst (c : Char) (cs : List Char) : List Char :=
  cs.drop ((Pattern.next c cs).2 - 1)

/-- At most `count` pieces of a text. -/
def take : Nat → List Char → List Piece
  | 0, _ => []
  | _, [] => []
  | count + 1, c :: cs => first c cs :: take count (afterFirst c cs)

/-- The pieces of a text. No piece is empty, so there are no more of them than the
text has characters. -/
def ofText (cs : List Char) : List Piece :=
  take cs.length cs

theorem text_first_append_afterFirst (c : Char) (cs : List Char) :
    (first c cs).text ++ afterFirst c cs = c :: cs := by
  simp [first, afterFirst]

theorem length_afterFirst_le (c : Char) (cs : List Char) :
    (afterFirst c cs).length ≤ cs.length := by
  simp [afterFirst]

theorem flatten_take {count : Nat} {cs : List Char} (h : cs.length ≤ count) :
    ((take count cs).map text).flatten = cs := by
  induction count generalizing cs with
  | zero =>
    have : cs = [] := List.eq_nil_of_length_eq_zero (by omega)
    simp [take, this]
  | succ count ih =>
    cases cs with
    | nil => simp [take]
    | cons c cs =>
      have := length_afterFirst_le c cs
      rw [take, List.map_cons, List.flatten_cons, ih (by simp at h; omega),
        text_first_append_afterFirst]

/-- The pieces tile the text. -/
theorem flatten_ofText (cs : List Char) : ((ofText cs).map text).flatten = cs :=
  flatten_take (Nat.le_refl _)

/-- The tokens among the pieces, the first of which starts at `offset`. -/
def lexemes : Nat → List Piece → List Lexeme
  | _, [] => []
  | offset, piece :: rest =>
    let stop := offset + byteLength piece.text
    match piece.kind with
    | none => lexemes stop rest
    | some kind => ⟨kind, String.ofList piece.text, ⟨offset, stop⟩⟩ :: lexemes stop rest

end Piece

/-- The tokens of a source text, documentation comments among them. -/
def tokenize (source : String) : List Lexeme :=
  Piece.lexemes 0 (Piece.ofText source.toList)

end DeclSchema
