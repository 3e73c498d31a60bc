import DeclSchema.Proofs.Number.Whole
import DeclSchema.Proofs.Token.Concatenation
import DeclSchema.Proofs.Token.Quoting

/-!
# Texts that spell tokens

What a token shows besides its place is a glyph. A text spells glyphs in front of
another text if it is cut into tokens that show them, wherever it stands. Texts that
spell glyphs can be written one behind the other.

Words and numbers go on as far as they can, so that what spells them depends on the
character behind them; every other token here is complete by itself.
-/

namespace DeclSchema

namespace Pattern

/-- Whether a text is a number. -/
def isNumeral : List Char → Bool
  | [] => false
  | c :: cs => next c cs == (some .number, cs.length + 1)

theorem next_numeral {c d : Char} {cs : List Char} (h : isNumeral (c :: cs)) (hd : breaks d)
    (tail : List Char) : next c (cs ++ d :: tail) = (some .number, cs.length + 1) := by
  have hnext : next c cs = (some .number, cs.length + 1) := by simpa [isNumeral] using h
  have hequals : c = '=' → d ≠ '>' := by
    rintro rfl
    have heq : (next '=' cs).1 ≠ some .number := by
      show (if cs.head? == some '>' then (some TokenKind.arrow, 2) else (some .eq, 1)).1 ≠ _
      split <;> decide
    exact absurd (congrArg Prod.fst hnext) heq
  have hsep : ¬ isSeparator c := fun hsep => by
    rw [next_of_isSeparator hsep] at hnext
    cases hnext
  rw [next_append hd hequals hsep (by simp [hnext]) (.inr (not_isOpenLine_of_next (by simp [hnext]))),
    hnext]

/-- Digits and gaps are one number, whatever the first of them is. -/
theorem numberLength_of_isDigitOrGap {cs : List Char} (h : cs.all isDigitOrGap) :
    numberLength cs = cs.length := by
  have hdecimal : decimalLength cs = cs.length := by
    unfold decimalLength
    dsimp only
    rw [run_of_all h, List.drop_length, fractionLength_of_ne (by simp), Nat.add_zero,
      List.drop_length]
    rfl
  rw [numberLength, hdecimal]
  exact Nat.max_eq_left (radixLength_le cs)

theorem isNumeral_repr (n : Nat) : isNumeral n.repr.toList := by
  have hdigits : ∀ c ∈ n.repr.toList, c.isDigit := by
    rw [Nat.toList_repr]
    exact fun _ hc => isDigit_of_mem_toDigits hc
  have hne : n.repr.toList ≠ [] := by
    rw [Nat.toList_repr]
    exact Nat.toDigits_ne_nil
  cases htext : n.repr.toList with
  | nil => exact absurd htext hne
  | cons c cs =>
    rw [htext] at hdigits
    have hall : (c :: cs).all isDigitOrGap :=
      List.all_eq_true.mpr fun d hd => by rw [isDigitOrGap, hdigits d hd, Bool.true_or]
    rw [isNumeral, next_of_isDigit (hdigits c List.mem_cons_self),
      numberLength_of_isDigitOrGap hall, List.length_cons, beq_self_eq_true]

theorem exists_of_isWord {cs : List Char} (h : isWord cs) :
    ∃ c rest, cs = c :: rest ∧ startsWord c := by
  cases cs with
  | nil => cases h
  | cons c rest => exact ⟨c, rest, rfl, (Bool.and_eq_true_iff.mp h).1⟩

/-- Whether a text begins with a character that neither words nor numbers go on with. -/
def stops : List Char → Bool
  | [] => false
  | d :: _ => breaks d

theorem stops_append {cs : List Char} (h : stops cs) (tail : List Char) : stops (cs ++ tail) := by
  cases cs with
  | nil => cases h
  | cons => exact h

end Pattern

open Pattern

/-- What a token shows: its kind, its text, and whether it stands on a new line. -/
structure Glyph where
  kind : TokenKind
  text : String
  newlineBefore : Bool
deriving DecidableEq, Repr

/-- A token without its place. -/
def Token.glyph (token : Token) : Glyph :=
  ⟨token.kind, token.text, token.newlineBefore⟩

namespace Glyph

/-- What a token shows that stands behind another one on its line. -/
def inline (kind : TokenKind) (text : String) : Glyph :=
  ⟨kind, text, false⟩

/-- What a text shows that has spaces and marks of one character only. -/
def ofMarks (cs : List Char) : List Glyph :=
  cs.filterMap fun c =>
    if c = ' ' then none else some (inline ((TokenKind.ofMark? c).getD .unknown) (String.ofList [c]))

end Glyph

/-- Whether a character is a space or a mark that begins no longer token. -/
def isPlainMark (c : Char) : Bool :=
  c == ' ' || (TokenKind.ofMark? c).isSome && !(['/', '.', '='].contains c)

namespace TokenStream

/-- A text that is cut into tokens with the given glyphs in front of a tail, if it
stands on a line with other tokens. -/
def Spells (text : String) (glyphs : List Glyph) (tail : List Char) : Prop :=
  ∀ offset, ∃ tokens, ofChars offset false [] (text.toList ++ tail) =
      ⟨tokens, []⟩ ++ ofChars (offset + Piece.byteLength text.toList) false [] tail ∧
    tokens.map Token.glyph = glyphs

namespace Spells

variable {text text' : String} {glyphs glyphs' : List Glyph} {tail : List Char}

theorem empty : Spells "" [] tail :=
  fun _ => ⟨[], rfl, rfl⟩

theorem append (h : Spells text glyphs (text'.toList ++ tail)) (h' : Spells text' glyphs' tail) :
    Spells (text ++ text') (glyphs ++ glyphs') tail := by
  intro offset
  obtain ⟨first, hfirst, hglyphs⟩ := h offset
  obtain ⟨second, hsecond, hglyphs'⟩ := h' (offset + Piece.byteLength text.toList)
  refine ⟨first ++ second, ?_, ?_⟩
  · rw [String.toList_append, List.append_assoc, hfirst, hsecond, Piece.byteLength_append,
      Nat.add_assoc, ← append_assoc]
    rfl
  · rw [List.map_append, hglyphs, hglyphs']

/-- A text that is one token in front of the tail. -/
theorem token {kind : TokenKind} {c : Char} {cs : List Char} (htext : text.toList = c :: cs)
    (h : next c (cs ++ tail) = (some kind, cs.length + 1)) (hdoc : kind ≠ .docComment) :
    Spells text [.inline kind text] tail := by
  intro offset
  refine ⟨[⟨⟨kind, text, ⟨offset, offset + Piece.byteLength text.toList⟩⟩, false⟩], ?_, rfl⟩
  rw [htext, ofChars_token h hdoc, ← htext, String.ofList_toList]
  rfl

theorem word {d : Char} (h : isWord text.toList) (hd : ¬ continuesWord d) :
    Spells text [.inline .word text] (d :: tail) := by
  cases htext : text.toList with
  | nil => rw [htext] at h; cases h
  | cons c cs => exact token htext (next_word (htext ▸ h) hd tail) (by decide)

theorem word_of_stops (h : isWord text.toList) (htail : stops tail) :
    Spells text [.inline .word text] tail := by
  cases tail with
  | nil => cases htail
  | cons d tail => exact word h (not_continuesWord_of_breaks htail)

theorem numeral (h : isNumeral text.toList) (htail : stops tail) :
    Spells text [.inline .number text] tail := by
  cases tail with
  | nil => cases htail
  | cons d tail =>
    cases htext : text.toList with
    | nil => rw [htext] at h; cases h
    | cons c cs => exact token htext (next_numeral (htext ▸ h) htail tail) (by decide)

theorem string (value : String) :
    Spells (Quoted.quote value) [.inline .string (Quoted.quote value)] tail :=
  token String.toList_ofList (next_quote value tail) (by decide)

/-- A space or a mark in front of a text that is cut into tokens. -/
private theorem ofChars_plainMark {c : Char} (h : isPlainMark c) (offset : Nat) (cs : List Char) :
    ∃ tokens, ofChars offset false [] (c :: cs) =
        ⟨tokens, []⟩ ++ ofChars (offset + c.utf8Size) false [] cs ∧
      tokens.map Token.glyph = Glyph.ofMarks [c] := by
  by_cases hspace : c = ' '
  · subst hspace
    exact ⟨[], ofChars_separator (by decide) cs, rfl⟩
  have hmark : (TokenKind.ofMark? c).isSome ∧ c ∉ ['/', '.', '='] := by
    simpa [isPlainMark, hspace] using h
  obtain ⟨kind, hkind⟩ := Option.isSome_iff_exists.mp hmark.1
  have hdoc : kind ≠ .docComment := by
    rintro rfl
    unfold TokenKind.ofMark? at hkind
    split at hkind <;> cases hkind
  refine ⟨_, ofChars_mark hkind hmark.2 hdoc cs, ?_⟩
  simp [Glyph.ofMarks, hspace, hkind, Token.glyph, Glyph.inline]

theorem marks (text : String) (h : text.toList.all isPlainMark) :
    Spells text (Glyph.ofMarks text.toList) tail := by
  unfold Spells
  generalize text.toList = cs at h
  induction cs with
  | nil => exact fun _ => ⟨[], rfl, rfl⟩
  | cons c cs ih =>
    intro offset
    obtain ⟨hc, hcs⟩ := Bool.and_eq_true_iff.mp h
    obtain ⟨first, hfirst, hglyphs⟩ := ofChars_plainMark hc offset (cs ++ tail)
    obtain ⟨second, hsecond, hglyphs'⟩ := ih hcs (offset + c.utf8Size)
    refine ⟨first ++ second, ?_, ?_⟩
    · rw [List.cons_append, hfirst, hsecond, Piece.byteLength_cons, ← Nat.add_assoc, ← append_assoc]
      rfl
    · rw [List.map_append, hglyphs, hglyphs', Glyph.ofMarks, Glyph.ofMarks, Glyph.ofMarks,
        ← List.filterMap_append, List.singleton_append]

/-- An arrow with a space on both sides. -/
theorem arrow : Spells " => " [.inline .arrow "=>"] tail := by
  have htext : " => " = " " ++ "=>" ++ " " := by decide
  have hchars : "=>".toList = '=' :: ['>'] := rfl
  have hmark : Spells "=>" [.inline .arrow "=>"] (" ".toList ++ tail) :=
    token hchars rfl (by decide)
  rw [htext]
  exact ((marks " " rfl).append hmark).append (marks " " rfl)

theorem ellipsis : Spells "..." [.inline .ellipsis "..."] tail := by
  have hchars : "...".toList = '.' :: ['.', '.'] := rfl
  exact token hchars rfl (by decide)

/-- A point in front of a word. -/
theorem point {d : Char} (h : startsWord d) : Spells "." [.inline .dot "."] (d :: tail) := by
  have hdot : d ≠ '.' := fun hdot => absurd (hdot ▸ h) (by decide)
  have hdigit : ¬ d.isDigit := fun hdigit => not_startsWord_of_isDigit hdigit h
  have hchars : ".".toList = '.' :: [] := rfl
  refine token hchars ?_ (by decide)
  show pointed (d :: tail) = _
  rw [pointed_of_ne hdot, if_neg hdigit]
  rfl

/-- A text that begins with a word, which may be the first of its line. -/
theorem line {word : String} (hword : isWord word.toList) (hstops : stops text.toList)
    (h : Spells text glyphs tail) (offset : Nat) (newline : Bool) :
    ∃ tokens stop, ofChars offset newline [] ((word ++ text).toList ++ tail) =
        ⟨tokens, []⟩ ++ ofChars stop false [] tail ∧
      tokens.map Token.glyph = ⟨.word, word, newline⟩ :: glyphs := by
  obtain ⟨tokens, htokens, hglyphs⟩ := h (offset + Piece.byteLength word.toList)
  cases htext : text.toList with
  | nil => rw [htext] at hstops; cases hstops
  | cons d rest =>
    rw [htext] at hstops
    have hd : ¬ continuesWord d := not_continuesWord_of_breaks hstops
    have hfirst : ofChars offset newline [] (word.toList ++ d :: (rest ++ tail)) = _ :=
      ofChars_word hword hd (rest ++ tail)
    rw [htext, List.cons_append] at htokens
    rw [String.toList_append, List.append_assoc, htext, List.cons_append, hfirst, htokens,
      ← append_assoc]
    refine ⟨_, _, rfl, ?_⟩
    rw [List.map_append, hglyphs, String.ofList_toList]
    rfl

end Spells

end TokenStream

end DeclSchema
