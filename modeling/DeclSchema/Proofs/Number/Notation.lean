import DeclSchema.Proofs.Token.Spelling
import Mathlib.Data.Nat.Digits.Lemmas

/-!
# Spellings of whole numbers

A whole number can be written in decimal, hexadecimal, binary or octal notation, with zeros in
front, with letters of either case, and with gaps between the digits. `Spelling` is what can be
written, and its number is that of its digits alone. Every spelling is one token
(`Spelling.isNumeral`), and the number that is read is the one that is spelled
(`Spelling.magnitude?_text`).
-/

namespace DeclSchema

open Pattern

/-- The radices that whole numbers are written in. -/
inductive Radix where
  | decimal
  | hexadecimal
  | binary
  | octal
deriving DecidableEq, Repr

namespace Radix

def base : Radix → Nat
  | .decimal => 10
  | .hexadecimal => 16
  | .binary => 2
  | .octal => 8

/-- What announces a radix, with a small letter or a capital one. -/
def announcement (capital : Bool) : Radix → List Char
  | .decimal => []
  | .hexadecimal => ['0', if capital then 'X' else 'x']
  | .binary => ['0', if capital then 'B' else 'b']
  | .octal => ['0', if capital then 'O' else 'o']

theorem base_le (radix : Radix) : radix.base ≤ 16 := by
  cases radix <;> decide

end Radix

/-- A place in the notation of a number: a digit, with a small letter or a capital one if it is
a letter, or a gap. -/
inductive Place where
  | digit (value : Nat) (capital : Bool)
  | gap
deriving DecidableEq, Repr

namespace Place

def char : Place → Char
  | .digit value capital => if capital then (Nat.digitChar value).toUpper else Nat.digitChar value
  | .gap => '_'

def value? : Place → Option Nat
  | .digit value _ => some value
  | .gap => none

end Place

/-- A whole number as it is written in a source: digits of its radix, at least one, and gaps.
Without an announcement of the radix the first place is a digit. -/
structure Spelling where
  radix : Radix
  capital : Bool
  places : List Place
  digits_lt : ∀ digit ∈ places.filterMap Place.value?, digit < radix.base
  digits_ne_nil : places.filterMap Place.value? ≠ []
  starts : radix = .decimal → places.head? ≠ some .gap

namespace Spelling

/-- The digits, from the first to the last. -/
def digits (s : Spelling) : List Nat :=
  s.places.filterMap Place.value?

/-- The number that is spelled. -/
def number (s : Spelling) : Nat :=
  Nat.ofDigits s.radix.base s.digits.reverse

def text (s : Spelling) : String :=
  String.ofList (s.radix.announcement s.capital ++ s.places.map Place.char)

end Spelling

namespace Place

variable {value : Nat} {capital : Bool}

theorem hexValue?_char (h : value < 16) :
    Digits.hexValue? (digit value capital).char = some value :=
  (by decide : ∀ value < 16, ∀ capital, Digits.hexValue? (digit value capital).char = some value)
    value h capital

theorem char_ne_gap (h : value < 16) : (digit value capital).char ≠ '_' :=
  (by decide : ∀ value < 16, ∀ capital, (digit value capital).char ≠ '_') value h capital

theorem isDigit_char (h : value < 10) : (digit value capital).char.isDigit :=
  (by decide : ∀ value < 10, ∀ capital, (digit value capital).char.isDigit) value h capital

end Place

/-- The letter of a radix, and the characters that may stand behind it in a number. -/
theorem Radix.exists_letter {radix : Radix} (h : radix ≠ .decimal) (capital : Bool) :
    ∃ letter inClass, radix.announcement capital = ['0', letter] ∧ letter ≠ '_' ∧
      (∀ cs, NumericLiteral.radix? ('0' :: letter :: cs) = some (radix.base, cs)) ∧
      radixDigit? letter = some inClass ∧ inClass '_' ∧
      ∀ value < radix.base, ∀ capital, inClass (Place.digit value capital).char := by
  cases radix with
  | decimal => exact absurd rfl h
  | hexadecimal =>
    cases capital <;> exact ⟨_, _, rfl, by decide, fun _ => rfl, rfl, rfl, by decide⟩
  | binary =>
    cases capital <;> exact ⟨_, _, rfl, by decide, fun _ => rfl, rfl, rfl, by decide⟩
  | octal =>
    cases capital <;> exact ⟨_, _, rfl, by decide, fun _ => rfl, rfl, rfl, by decide⟩

namespace Spelling

variable {places : List Place} {base : Nat}

/-- The places of a number, as a class of characters that holds its digits and gaps. -/
theorem all_places {inClass : Char → Bool} (hgap : inClass '_')
    (hdigit : ∀ value < base, ∀ capital, inClass (Place.digit value capital).char)
    (h : ∀ digit ∈ places.filterMap Place.value?, digit < base) :
    (places.map Place.char).all inClass := by
  rw [List.all_map, List.all_eq_true]
  intro place hplace
  cases place with
  | gap => exact hgap
  | digit value capital =>
    exact hdigit value (h value (List.mem_filterMap.mpr ⟨_, hplace, rfl⟩)) capital

/-- The digits below ten and the gaps between them. -/
theorem all_isDigitOrGap (h : ∀ digit ∈ places.filterMap Place.value?, digit < 10) :
    (places.map Place.char).all isDigitOrGap := by
  apply all_places rfl _ h
  intro value hvalue capital
  rw [isDigitOrGap, Place.isDigit_char hvalue, Bool.true_or]

theorem places_ne_nil (s : Spelling) : s.places ≠ [] := by
  intro hnil
  have hdigits := s.digits_ne_nil
  rw [hnil] at hdigits
  exact hdigits rfl

/-- A number without an announcement starts with a digit. -/
theorem exists_first {s : Spelling} (h : s.radix = .decimal) :
    ∃ value capital rest, s.places = .digit value capital :: rest ∧ value < 10 := by
  obtain ⟨first, rest, hplaces⟩ := List.exists_cons_of_ne_nil s.places_ne_nil
  have hlt := s.digits_lt
  have hstarts := s.starts h
  rw [hplaces] at hlt hstarts
  cases first with
  | gap => exact absurd rfl hstarts
  | digit value capital =>
    rw [h] at hlt
    exact ⟨value, capital, rest, hplaces, hlt value List.mem_cons_self⟩

theorem isNumeral (s : Spelling) : isNumeral s.text.toList := by
  rw [text, String.toList_ofList]
  by_cases hradix : s.radix = .decimal
  · obtain ⟨value, capital, rest, hplaces, hvalue⟩ := exists_first hradix
    have hlt := s.digits_lt
    rw [hradix] at hlt
    have hall := all_isDigitOrGap hlt
    rw [hradix, Radix.announcement, List.nil_append]
    rw [hplaces, List.map_cons] at hall ⊢
    rw [Pattern.isNumeral, next_of_isDigit (Place.isDigit_char hvalue),
      numberLength_of_isDigitOrGap hall, List.length_cons, beq_self_eq_true]
  · obtain ⟨letter, inClass, hannouncement, -, -, hletter, hgap, hdigit⟩ :=
      Radix.exists_letter hradix s.capital
    have hrun := run_of_all (all_places hgap hdigit s.digits_lt)
    have hlength : radixLength ('0' :: letter :: s.places.map Place.char) =
        2 + (s.places.map Place.char).length := by
      have hpos : (s.places.map Place.char).length ≠ 0 := by
        simpa using s.places_ne_nil
      simp only [radixLength, hletter, hrun]
    have hnumber : numberLength ('0' :: letter :: s.places.map Place.char) =
        (letter :: s.places.map Place.char).length + 1 := by
      have hle := decimalLength_le ('0' :: letter :: s.places.map Place.char)
      rw [numberLength, hlength]
      simp only [List.length_cons] at hle ⊢
      omega
    rw [hannouncement]
    show Pattern.isNumeral ('0' :: letter :: s.places.map Place.char)
    rw [Pattern.isNumeral, next_of_isDigit (by decide), hnumber, beq_self_eq_true]

/-- Gaps are left out, and what is left are the digits. -/
theorem read?_places (hbase : base ≤ 16)
    (h : ∀ digit ∈ places.filterMap Place.value?, digit < base) (value : Nat) :
    Digits.read? base value ((places.map Place.char).filter (· != '_')) =
      some ((places.filterMap Place.value?).foldl (fun value digit => base * value + digit)
        value) := by
  induction places generalizing value with
  | nil => rfl
  | cons place places ih =>
    cases place with
    | gap => exact ih h value
    | digit digit capital =>
      obtain ⟨hdigit, hrest⟩ := List.forall_mem_cons.mp h
      have hlt := Nat.lt_of_lt_of_le hdigit hbase
      have hfilter : ((Place.digit digit capital :: places).map Place.char).filter (· != '_') =
          (Place.digit digit capital).char :: (places.map Place.char).filter (· != '_') :=
        List.filter_cons_of_pos (bne_iff_ne.mpr (Place.char_ne_gap hlt))
      rw [hfilter, Digits.read?, Place.hexValue?_char hlt]
      dsimp only
      rw [if_pos hdigit, ih hrest]
      rfl

theorem number_eq_foldl (s : Spelling) :
    s.number = s.digits.foldl (fun value digit => s.radix.base * value + digit) 0 := by
  rw [number, Nat.ofDigits_eq_foldr, List.foldr_reverse]
  simp only [Nat.cast_id, Nat.add_comm]

/-- The places of a spelling are read as its number. -/
theorem ofText?_places (s : Spelling) :
    Digits.ofText? s.radix.base ((s.places.map Place.char).filter (· != '_')) = some s.number := by
  have hread := read?_places s.radix.base_le s.digits_lt 0
  have hne : ((s.places.map Place.char).filter (· != '_')).isEmpty = false := by
    obtain ⟨digit, hdigit⟩ := List.exists_mem_of_ne_nil _ s.digits_ne_nil
    obtain ⟨place, hplace, hvalue⟩ := List.mem_filterMap.mp hdigit
    cases place with
    | gap => cases hvalue
    | digit value capital =>
      have hlt := s.digits_lt value (List.mem_filterMap.mpr ⟨_, hplace, rfl⟩)
      have hchar : (Place.digit value capital).char ≠ '_' :=
        Place.char_ne_gap (Nat.lt_of_lt_of_le hlt s.radix.base_le)
      rw [List.isEmpty_eq_false_iff_exists_mem]
      exact ⟨_, List.mem_filter.mpr ⟨List.mem_map_of_mem hplace, bne_iff_ne.mpr hchar⟩⟩
  rw [Digits.ofText?, hne, number_eq_foldl]
  exact hread

/-- What is read of a spelling is what is read of its number. -/
theorem magnitude?_text {s : Spelling} (h : s.number < 2 ^ 64) :
    NumericLiteral.magnitude? (s.text.toList.filter (· != '_')) = Binary64.ofNat? s.number := by
  have hplaces := s.ofText?_places
  rw [text, String.toList_ofList, List.filter_append]
  by_cases hradix : s.radix = .decimal
  · have hdigits : ∀ c ∈ (s.places.map Place.char).filter (· != '_'), c.isDigit := by
      have hlt := s.digits_lt
      rw [hradix] at hlt
      have hall := all_isDigitOrGap hlt
      intro c hc
      obtain ⟨hmem, hgap⟩ := List.mem_filter.mp hc
      have hclass := List.all_eq_true.mp hall c hmem
      simpa [isDigitOrGap, bne_iff_ne.mp hgap] using hclass
    rw [hradix] at hplaces ⊢
    rw [Radix.announcement, List.filter_nil, List.nil_append, NumericLiteral.magnitude?,
      NumericLiteral.radix?_of_isDigit hdigits, Numeral.ofText?_of_isDigit hdigits hplaces]
    exact Binary64.ofNumeral?_whole h
  · obtain ⟨letter, -, hannouncement, hletter, hradix?, -⟩ :=
      Radix.exists_letter hradix s.capital
    have hfilter : ['0', letter].filter (· != '_') = ['0', letter] := by
      simp [hletter]
    rw [hannouncement, hfilter, List.cons_append, List.cons_append, List.nil_append,
      NumericLiteral.magnitude?, hradix?]
    dsimp only
    rw [hplaces]
    exact if_pos h

/-- A spelling begins with a digit. -/
theorem exists_cons_text (s : Spelling) : ∃ c cs, s.text.toList = c :: cs ∧ c.isDigit := by
  rw [text, String.toList_ofList]
  by_cases hradix : s.radix = .decimal
  · obtain ⟨value, capital, rest, hplaces, hvalue⟩ := exists_first hradix
    rw [hradix, hplaces]
    exact ⟨_, _, rfl, Place.isDigit_char hvalue⟩
  · obtain ⟨letter, -, hannouncement, -⟩ := Radix.exists_letter hradix s.capital
    rw [hannouncement]
    exact ⟨_, _, rfl, by decide⟩

end Spelling

namespace NumericLiteral

/-- A minus sign or nothing. -/
def sign (negative : Bool) : String :=
  if negative then "-" else ""

/-- A value with a sign in front of it. -/
def signed (negative : Bool) (x : Binary64) : Binary64 :=
  if negative then x.negate else x

/-- A spelling is one token, with that of the sign before it. -/
theorem tokenize_spelling (s : Spelling) (negative : Bool) :
    (tokenize (sign negative ++ s.text)).map (fun lexeme => (lexeme.kind, lexeme.text)) =
      (if negative then [(.minus, "-")] else []) ++ [(.number, s.text)] := by
  have hpieces : Piece.ofText s.text.toList = [⟨some .number, s.text.toList⟩] := by
    have hnumeral := s.isNumeral
    cases htext : s.text.toList with
    | nil => rw [htext] at hnumeral; cases hnumeral
    | cons c cs =>
      rw [htext, isNumeral, beq_iff_eq] at hnumeral
      exact Piece.ofText_of_next hnumeral
  cases negative with
  | true =>
    have hminus : Piece.ofText ('-' :: s.text.toList) =
        ⟨some .minus, ['-']⟩ :: Piece.ofText s.text.toList := rfl
    rw [tokenize, String.toList_append]
    show (Piece.lexemes 0 (Piece.ofText ('-' :: s.text.toList))).map _ = _
    rw [hminus, hpieces]
    simp [Piece.lexemes]
  | false =>
    rw [tokenize, String.toList_append]
    show (Piece.lexemes 0 (Piece.ofText s.text.toList)).map _ = _
    rw [hpieces]
    simp [Piece.lexemes]

/-- A spelling with a sign is read as the value of its number with this sign. -/
theorem value?_spelling {s : Spelling} (h : s.number < 2 ^ 64) (negative : Bool) :
    value? (sign negative ++ s.text) = (Binary64.ofNat? s.number).map (signed negative) := by
  have hmagnitude := Spelling.magnitude?_text h
  rw [value?, String.toList_append, List.filter_append]
  cases negative with
  | true =>
    show (magnitude? (s.text.toList.filter (· != '_'))).map Binary64.negate = _
    rw [hmagnitude]
    rfl
  | false =>
    obtain ⟨c, cs, htext, hdigit⟩ := s.exists_cons_text
    have hgap : c ≠ '_' := by
      rintro rfl
      exact absurd hdigit (by decide)
    have hfilter : (c :: cs).filter (· != '_') = c :: cs.filter (· != '_') :=
      List.filter_cons_of_pos (bne_iff_ne.mpr hgap)
    have hsign : (sign false).toList.filter (· != '_') = [] := rfl
    rw [htext, hfilter] at hmagnitude ⊢
    rw [hsign, List.nil_append]
    split
    · next heq =>
      cases heq
      exact absurd hdigit (by decide)
    · rw [hmagnitude]
      exact Option.map_id'.symm

end NumericLiteral

end DeclSchema
