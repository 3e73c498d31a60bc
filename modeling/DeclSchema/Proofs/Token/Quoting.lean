import DeclSchema.Proofs.Token.Longest
import DeclSchema.Proofs.Token.Tiling
import DeclSchema.Token.Quoted
import Mathlib.Data.List.Forall2

/-!
# Writing quoted literals

Between quotes a character is written raw, where it can be, or as an escape. However each
character of a text is written, the literal is one token whatever follows it, and its value
is the text. `Quoted.quote` is the literal in double quotes with no escape that is not
needed.
-/

namespace DeclSchema

namespace Quoted

/-- A hexadecimal digit for a number below sixteen, in either case. -/
def HexDigit (n : Nat) (d : Char) : Prop :=
  d = n.digitChar ∨ d = n.digitChar.toUpper

/-- The four hexadecimal digits of a number below `0x10000`. -/
def digitsOf (n : Nat) : List Nat :=
  [n / 0x1000, n / 0x100 % 16, n / 0x10 % 16, n % 16]

/-- The ways to write a character between quotes. -/
inductive WrittenAs (quote : Char) : Char → List Char → Prop
  | raw {c : Char} (hescape : c ≠ '\\') (hquote : c ≠ quote) (hline : c ≠ '\n') :
    WrittenAs quote c [c]
  | backslash : WrittenAs quote '\\' ['\\', '\\']
  | quote : WrittenAs quote quote ['\\', quote]
  | lineFeed : WrittenAs quote '\n' ['\\', 'n']
  | carriageReturn : WrittenAs quote '\r' ['\\', 'r']
  | tab : WrittenAs quote '\t' ['\\', 't']
  | null : WrittenAs quote '\x00' ['\\', '0']
  | unicode {c : Char} {digits : List Char} (hplane : c.toNat < 0x10000)
    (hdigits : List.Forall₂ HexDigit (digitsOf c.toNat) digits) :
    WrittenAs quote c ('\\' :: 'u' :: digits)

/-- A character as it is written between double quotes. -/
def escapeChar (c : Char) : List Char :=
  if c = '\\' then ['\\', '\\']
  else if c = '"' then ['\\', '"']
  else if c = '\n' then ['\\', 'n']
  else [c]

/-- A text as it is written between double quotes. -/
def escape (cs : List Char) : List Char :=
  cs.flatMap escapeChar

/-- A text in double quotes. -/
def quote (text : String) : String :=
  String.ofList ('"' :: escape text.toList ++ ['"'])

theorem writtenAs_escapeChar (c : Char) : WrittenAs '"' c (escapeChar c) := by
  by_cases hslash : c = '\\'
  · subst hslash
    exact .backslash
  by_cases hquote : c = '"'
  · subst hquote
    exact .quote
  by_cases hline : c = '\n'
  · subst hline
    exact .lineFeed
  · rw [escapeChar, if_neg hslash, if_neg hquote, if_neg hline]
    exact .raw hslash hquote hline

theorem forall₂_escapeChar (cs : List Char) :
    List.Forall₂ (WrittenAs '"') cs (cs.map escapeChar) := by
  rw [List.forall₂_map_right_iff, List.forall₂_same]
  exact fun c _ => writtenAs_escapeChar c

theorem hexValue?_digitChar :
    ∀ n < 16, Digits.hexValue? n.digitChar = some n ∧
      Digits.hexValue? n.digitChar.toUpper = some n := by
  decide

theorem hexValue?_of_hexDigit {n : Nat} {d : Char} (h : HexDigit n d) (hn : n < 16) :
    Digits.hexValue? d = some n := by
  obtain ⟨hlower, hupper⟩ := hexValue?_digitChar n hn
  rcases h with rfl | rfl
  · exact hlower
  · exact hupper

theorem charOfCode?_toNat (c : Char) : charOfCode? c.toNat = some c :=
  (dif_pos c.valid).trans (congrArg some (Char.ext rfl))

/-- Four digits name the character with the number that they write. -/
theorem unicodeEscape?_four {a b c d : Char} {i j k l : Nat} (ha : Digits.hexValue? a = some i)
    (hb : Digits.hexValue? b = some j) (hc : Digits.hexValue? c = some k)
    (hd : Digits.hexValue? d = some l) (hlt : i < 16 ∧ j < 16 ∧ k < 16 ∧ l < 16) :
    unicodeEscape? [a, b, c, d] = charOfCode? (16 * (16 * (16 * i + j) + k) + l) := by
  have hsign : a ≠ '+' := by
    rintro rfl
    cases ha
  have hread : Digits.ofText? 16 [a, b, c, d] = some (16 * (16 * (16 * i + j) + k) + l) := by
    simp [Digits.ofText?, Digits.read?, ha, hb, hc, hd, hlt]
  unfold unicodeEscape?
  split
  · next heq => exact absurd (List.cons.inj heq).1 hsign
  · rw [hread]
    rfl

/-- The digits of a character of the basic multilingual plane. -/
theorem exists_of_hexDigits {n : Nat} {digits : List Char} (hplane : n < 0x10000)
    (h : List.Forall₂ HexDigit (digitsOf n) digits) :
    ∃ a b c d, digits = [a, b, c, d] ∧ (∀ e ∈ digits, ∃ m, Digits.hexValue? e = some m) ∧
      unicodeEscape? digits = charOfCode? n := by
  obtain ⟨a, _, ha, hbcd, rfl⟩ := List.forall₂_cons_left_iff.mp h
  obtain ⟨b, _, hb, hcd, rfl⟩ := List.forall₂_cons_left_iff.mp hbcd
  obtain ⟨c, _, hc, hlast, rfl⟩ := List.forall₂_cons_left_iff.mp hcd
  obtain ⟨d, _, hd, hnil, rfl⟩ := List.forall₂_cons_left_iff.mp hlast
  cases hnil
  have hi : n / 0x1000 < 16 := by omega
  have hj : n / 0x100 % 16 < 16 := by omega
  have hk : n / 0x10 % 16 < 16 := by omega
  have hl : n % 16 < 16 := by omega
  have ha := hexValue?_of_hexDigit ha hi
  have hb := hexValue?_of_hexDigit hb hj
  have hc := hexValue?_of_hexDigit hc hk
  have hd := hexValue?_of_hexDigit hd hl
  refine ⟨a, b, c, d, rfl, by simp [ha, hb, hc, hd], ?_⟩
  rw [unicodeEscape?_four ha hb hc hd ⟨hi, hj, hk, hl⟩]
  congr 1
  omega

theorem decode_plain {c : Char} (h : c ≠ '\\') (rest : List Char) :
    decode (c :: rest) = c :: decode rest := by
  rw [decode.eq_def]
  exact if_neg h

theorem decode_escaped {c : Char} (h : c ≠ 'u') (rest : List Char) :
    decode ('\\' :: c :: rest) = simpleEscape c :: decode rest := by
  rw [decode.eq_def]
  exact if_neg h

theorem decode_unicode (a b c d : Char) (rest : List Char) :
    decode ('\\' :: 'u' :: [a, b, c, d] ++ rest) = unicodeText [a, b, c, d] ++ decode rest := by
  show decode ('\\' :: 'u' :: a :: b :: c :: d :: rest) = _
  rw [decode.eq_def]
  rfl

section

variable {quote : Char} (hquotes : quote = '"' ∨ quote = '\x27')

include hquotes

theorem decode_writtenAs {c : Char} {form : List Char} (h : WrittenAs quote c form)
    (rest : List Char) : decode (form ++ rest) = c :: decode rest := by
  cases h with
  | raw hescape _ _ => exact decode_plain hescape rest
  | quote => rcases hquotes with rfl | rfl <;> exact decode_escaped (by decide) rest
  | unicode hplane hdigits =>
    obtain ⟨_, _, _, _, rfl, -, hread⟩ := exists_of_hexDigits hplane hdigits
    rw [decode_unicode, unicodeText, hread, charOfCode?_toNat]
    rfl
  | _ => exact decode_escaped (by decide) rest

theorem decode_flatten {cs : List Char} {forms : List (List Char)}
    (h : List.Forall₂ (WrittenAs quote) cs forms) (rest : List Char) :
    decode (forms.flatten ++ rest) = cs ++ decode rest := by
  induction h with
  | nil => rfl
  | cons hform _ ih =>
    rw [List.flatten_cons, List.append_assoc, decode_writtenAs hquotes hform, ih]
    rfl

end

theorem stripQuotes_quote (opening closing : Char) (cs : List Char) :
    stripQuotes (opening :: cs ++ [closing]) = cs := by
  cases cs with
  | nil => rfl
  | cons c cs => exact List.dropLast_concat

end Quoted

theorem unquote_quote (text : String) : unquote (Quoted.quote text) = text := by
  have hdecode := Quoted.decode_flatten (.inl rfl) (Quoted.forall₂_escapeChar text.toList) []
  rw [List.append_nil, ← List.flatMap_def] at hdecode
  rw [unquote, Quoted.quote, String.toList_ofList, Quoted.stripQuotes_quote, Quoted.escape,
    hdecode]
  exact (congrArg String.ofList (List.append_nil _)).trans String.ofList_toList

namespace Pattern

open Quoted

section

variable {quote : Char} (hquotes : quote = '"' ∨ quote = '\x27')

include hquotes

theorem quotedLength_writtenAs {c : Char} {form : List Char} (h : WrittenAs quote c form)
    (cs : List Char) :
    quotedLength quote false (form ++ cs) =
      ((quotedLength quote false cs).1 + form.length, (quotedLength quote false cs).2) := by
  have hslash : quote ≠ '\\' := by rcases hquotes with rfl | rfl <;> decide
  cases h with
  | raw hescape hquote hline => exact quotedLength_plain hquote hescape (by simp [hline])
  | quote =>
    have hline : quote ≠ '\n' := by rcases hquotes with rfl | rfl <;> decide
    exact quotedLength_escape hslash hline
  | unicode hplane hdigits =>
    obtain ⟨a, b, c, d, rfl, hvalues, -⟩ := exists_of_hexDigits hplane hdigits
    have hplain : ∀ e ∈ [a, b, c, d], e ≠ quote ∧ e ≠ '\\' ∧ e ≠ '\n' := by
      intro e he
      obtain ⟨m, hm⟩ := hvalues e he
      refine ⟨?_, ?_, ?_⟩
      · rintro rfl
        rcases hquotes with rfl | rfl <;> cases hm
      · rintro rfl
        cases hm
      · rintro rfl
        cases hm
    have hstep : ∀ e ∈ [a, b, c, d], ∀ rest, quotedLength quote false (e :: rest) =
        ((quotedLength quote false rest).1 + 1, (quotedLength quote false rest).2) := by
      intro e he rest
      obtain ⟨hquote, hescape, hline⟩ := hplain e he
      exact quotedLength_plain hquote hescape fun h => hline h.1
    show quotedLength quote false ('\\' :: 'u' :: a :: b :: c :: d :: cs) = _
    rw [quotedLength_escape hslash (by decide), hstep a (by simp), hstep b (by simp),
      hstep c (by simp), hstep d (by simp)]
    rfl
  | _ => exact quotedLength_escape hslash (by decide)

theorem quotedLength_flatten {cs : List Char} {forms : List (List Char)}
    (h : List.Forall₂ (WrittenAs quote) cs forms) (tail : List Char) :
    quotedLength quote false (forms.flatten ++ quote :: tail) =
      (forms.flatten.length + 1, true) := by
  induction h with
  | nil => exact quotedLength_quote
  | cons hform _ ih =>
    rw [List.flatten_cons, List.append_assoc, quotedLength_writtenAs hquotes hform, ih,
      List.length_append]
    refine Prod.ext ?_ rfl
    dsimp only
    omega

theorem next_flatten {cs : List Char} {forms : List (List Char)}
    (h : List.Forall₂ (WrittenAs quote) cs forms) (tail : List Char) :
    next quote (forms.flatten ++ [quote] ++ tail) =
      (some .string, (forms.flatten ++ [quote]).length + 1) := by
  have hnext : next quote (forms.flatten ++ [quote] ++ tail) =
      quoted .string quote false (forms.flatten ++ [quote] ++ tail) := by
    rcases hquotes with rfl | rfl <;> rfl
  rw [hnext, List.append_assoc, List.singleton_append, quoted, quotedLength_flatten hquotes h,
    List.length_append]
  rfl

end

theorem next_quote (text : String) (tail : List Char) :
    next '"' (escape text.toList ++ ['"'] ++ tail) =
      (some .string, (escape text.toList ++ ['"']).length + 1) := by
  rw [escape, List.flatMap_def]
  exact next_flatten (.inl rfl) (forall₂_escapeChar text.toList) tail

end Pattern

/-- A text that its first piece takes up is one piece. -/
theorem Piece.ofText_of_next {c : Char} {cs : List Char} {kind : TokenKind}
    (h : Pattern.next c cs = (some kind, cs.length + 1)) :
    Piece.ofText (c :: cs) = [⟨some kind, c :: cs⟩] := by
  have hafter : Piece.afterFirst c cs = [] := by simp [Piece.afterFirst, h]
  rw [Piece.ofText, List.length_cons, Piece.take, hafter, Piece.first, h]
  cases cs <;> simp [Piece.take]

/-- Such a text is one token. -/
theorem tokenize_ofList {c : Char} {cs : List Char} {kind : TokenKind}
    (h : Pattern.next c cs = (some kind, cs.length + 1)) :
    tokenize (String.ofList (c :: cs)) =
      [⟨kind, String.ofList (c :: cs), ⟨0, (String.ofList (c :: cs)).utf8ByteSize⟩⟩] := by
  rw [tokenize, String.toList_ofList, Piece.ofText_of_next h, Piece.utf8ByteSize_ofList,
    Piece.lexemes, Nat.zero_add]
  rfl

/-- Quoting is undone by reading. For each character of the text its raw form or any of its
escapes may stand between the quotes. -/
theorem unquote_written {quote : Char} (hquotes : quote = '"' ∨ quote = '\x27') {text : String}
    {forms : List (List Char)} (h : List.Forall₂ (Quoted.WrittenAs quote) text.toList forms) :
    let literal := String.ofList (quote :: forms.flatten ++ [quote])
    tokenize literal = [⟨.string, literal, ⟨0, literal.utf8ByteSize⟩⟩] ∧ unquote literal = text := by
  have hnext := Pattern.next_flatten hquotes h []
  have hdecode := Quoted.decode_flatten hquotes h []
  rw [List.append_nil] at hnext hdecode
  refine ⟨tokenize_ofList hnext, ?_⟩
  rw [unquote, String.toList_ofList, Quoted.stripQuotes_quote, hdecode]
  exact (congrArg String.ofList (List.append_nil _)).trans String.ofList_toList

/-- A raw character, an escaped quote, digits in both cases before text that looks like a
digit, and a backslash before the closing quote. -/
theorem unquote_written_mixed :
    let literal := "'é\\'\\u00eB0\\\\'"
    tokenize literal = [⟨.string, literal, ⟨0, literal.utf8ByteSize⟩⟩] ∧
      unquote literal = "é'ë0\\" := by
  have hforms : List.Forall₂ (Quoted.WrittenAs '\x27') "é'ë0\\".toList
      [['é'], ['\\', '\x27'], ['\\', 'u', '0', '0', 'e', 'B'], ['0'], ['\\', '\\']] :=
    .cons (.raw (by decide) (by decide) (by decide)) <| .cons .quote <|
      .cons (.unicode (by decide)
        (.cons (.inl rfl) (.cons (.inl rfl) (.cons (.inl rfl) (.cons (.inr rfl) .nil))))) <|
      .cons (.raw (by decide) (by decide) (by decide)) <| .cons .backslash .nil
  have hliteral : String.ofList ('\x27' :: [['é'], ['\\', '\x27'], ['\\', 'u', '0', '0', 'e', 'B'],
      ['0'], ['\\', '\\']].flatten ++ ['\x27']) = "'é\\'\\u00eB0\\\\'" := by decide
  have hread := unquote_written (.inr rfl) hforms
  rw [hliteral] at hread
  exact hread

end DeclSchema
