import DeclSchema.Proofs.Token.Quoting

/-!
# Malformed escapes

A decoder that reads `\u` only before four hexadecimal digits would leave every other `\u`
as it is written and go on right behind it. `unquote` takes up to four characters behind
`\u` at once instead, its window, and hands them to a reader of numbers. So it differs in
two ways: it reads windows of fewer digits and windows with a plus sign, and it does not
decode the escapes inside of a window that it cannot read.
-/

namespace DeclSchema

namespace Quoted

/-- The character that four hexadecimal digits name, unless their number is half of a
surrogate pair. -/
def fourDigits? : List Char → Option Char
  | [a, b, c, d] => do
    let i ← Digits.hexValue? a
    let j ← Digits.hexValue? b
    let k ← Digits.hexValue? c
    let l ← Digits.hexValue? d
    charOfCode? (0x1000 * i + 0x100 * j + 0x10 * k + l)
  | _ => none

/-- Decodes the escapes of a text, `\u` only where four hexadecimal digits behind it name a
character. Any other `\u` stands for itself. -/
def reference : List Char → List Char
  | [] => []
  | c :: rest =>
    if c = '\\' then
      match rest with
      | [] => ['\\']
      | escaped :: rest =>
        if escaped = 'u' then
          match fourDigits? (rest.take 4), rest with
          | some c, _ :: _ :: _ :: _ :: behind => c :: reference behind
          | _, rest => '\\' :: 'u' :: reference rest
        else
          simpleEscape escaped :: reference rest
    else
      c :: reference rest

/-- The windows of the `\u` that the reference meets: the characters behind each of them,
four where there are as many. -/
def windows : List Char → List (List Char)
  | [] => []
  | c :: rest =>
    if c = '\\' then
      match rest with
      | [] => []
      | escaped :: rest =>
        if escaped = 'u' then
          match fourDigits? (rest.take 4), rest with
          | some _, a :: b :: c :: d :: behind => [a, b, c, d] :: windows behind
          | _, rest => rest.take 4 :: windows rest
        else
          windows rest
    else
      windows rest

/-- A window that names a character without being four hexadecimal digits. It has one to
three digits, and there may be a plus sign before them. -/
def Misread (window : List Char) : Prop :=
  ∃ digits, digits ≠ [] ∧ digits.length < 4 ∧ (∀ d ∈ digits, Pattern.isHexDigit d) ∧
    (window = digits ∨ window = '+' :: digits)

theorem isHexDigit_iff (d : Char) : Pattern.isHexDigit d ↔ ∃ n, Digits.hexValue? d = some n := by
  unfold Pattern.isHexDigit Digits.hexValue?
  by_cases hdigit : d.isDigit
  · simp [hdigit]
  by_cases hlower : 'a' ≤ d ∧ d ≤ 'f'
  · simp [hdigit, hlower]
  · simp [hdigit, hlower]

theorem hexValue?_lt {d : Char} {n : Nat} (h : Digits.hexValue? d = some n) : n < 16 := by
  unfold Digits.hexValue? at h
  split at h
  · next hdigit =>
    have hhigh : d.toNat ≤ 57 := (Char.isDigit_iff_toNat.mp hdigit).2
    cases h
    show d.toNat - 48 < 16
    omega
  split at h
  · next hlower =>
    rw [Bool.and_eq_true, decide_eq_true_eq, decide_eq_true_eq] at hlower
    have hhigh : d.toNat ≤ 102 := hlower.2
    cases h
    show d.toNat - 97 + 10 < 16
    omega
  split at h
  · next hupper =>
    rw [Bool.and_eq_true, decide_eq_true_eq, decide_eq_true_eq] at hupper
    have hhigh : d.toNat ≤ 70 := hupper.2
    cases h
    show d.toNat - 65 + 10 < 16
    omega
  · cases h

/-- Only hexadecimal digits are read, and one of them multiplies the number by sixteen. -/
theorem read?_exactly (value : Nat) (digits : List Char) :
    (∀ n, Digits.read? 16 value digits = some n → ∀ d ∈ digits, Pattern.isHexDigit d) ∧
    ((∀ d ∈ digits, Pattern.isHexDigit d) →
      ∃ n, Digits.read? 16 value digits = some n ∧ n < (value + 1) * 16 ^ digits.length) := by
  induction digits generalizing value with
  | nil => exact ⟨by simp, fun _ => ⟨value, rfl, by simp⟩⟩
  | cons d digits ih =>
    rw [List.forall_mem_cons, isHexDigit_iff]
    cases hd : Digits.hexValue? d with
    | none => simp [Digits.read?, hd]
    | some m =>
      have hlt := hexValue?_lt hd
      have hread : Digits.read? 16 value (d :: digits) =
          Digits.read? 16 (16 * value + m) digits := by
        simp [Digits.read?, hd, hlt]
      obtain ⟨hdigits, hvalue⟩ := ih (16 * value + m)
      refine ⟨fun n hn => ⟨⟨m, rfl⟩, hdigits n (hread ▸ hn)⟩, fun hall => ?_⟩
      obtain ⟨n, hn, hle⟩ := hvalue hall.2
      refine ⟨n, hread ▸ hn, Nat.lt_of_lt_of_le hle ?_⟩
      rw [List.length_cons, Nat.pow_succ', ← Nat.mul_assoc]
      exact Nat.mul_le_mul_right _ (by omega)

theorem plus_not_isHexDigit : ¬ Pattern.isHexDigit '+' := by decide

theorem digits_of_unicodeEscape? {window : List Char} {c : Char}
    (h : unicodeEscape? window = some c) :
    ∃ digits, digits ≠ [] ∧ (∀ d ∈ digits, Pattern.isHexDigit d) ∧
      (window = digits ∨ window = '+' :: digits) := by
  have hdigits : ∀ digits, (Digits.ofText? 16 digits >>= charOfCode?) = some c →
      digits ≠ [] ∧ ∀ d ∈ digits, Pattern.isHexDigit d := by
    intro digits hread
    obtain ⟨n, hn, -⟩ := Option.bind_eq_some_iff.mp hread
    unfold Digits.ofText? at hn
    split at hn
    · cases hn
    · next hne => exact ⟨by simpa using hne, (read?_exactly 0 digits).1 n hn⟩
  unfold unicodeEscape? at h
  split at h
  · next digits => exact ⟨digits, (hdigits digits h).1, (hdigits digits h).2, .inr rfl⟩
  · exact ⟨window, (hdigits window h).1, (hdigits window h).2, .inl rfl⟩

theorem unicodeEscape?_of_ne {window : List Char} (h : window.head? ≠ some '+') :
    unicodeEscape? window = Digits.ofText? 16 window >>= charOfCode? := by
  unfold unicodeEscape?
  split
  · exact absurd rfl h
  · rfl

/-- Four hexadecimal digits are read as the reference reads them. -/
theorem fourDigits?_eq {window : List Char} (hlength : window.length = 4)
    (h : ∀ d ∈ window, Pattern.isHexDigit d) : fourDigits? window = unicodeEscape? window := by
  match window, hlength with
  | [a, b, c, d], _ =>
    simp only [List.forall_mem_cons, isHexDigit_iff] at h
    obtain ⟨⟨i, ha⟩, ⟨j, hb⟩, ⟨k, hc⟩, ⟨l, hd⟩, -⟩ := h
    rw [unicodeEscape?_four ha hb hc hd
      ⟨hexValue?_lt ha, hexValue?_lt hb, hexValue?_lt hc, hexValue?_lt hd⟩]
    have hnumber : 0x1000 * i + 0x100 * j + 0x10 * k + l =
        16 * (16 * (16 * i + j) + k) + l := by omega
    simp [fourDigits?, ha, hb, hc, hd, hnumber]

theorem digits_of_fourDigits? {window : List Char} {c : Char} (h : fourDigits? window = some c) :
    window.length = 4 ∧ ∀ d ∈ window, Pattern.isHexDigit d := by
  unfold fourDigits? at h
  split at h
  · simp only [Option.bind_eq_bind, Option.bind_eq_some_iff] at h
    obtain ⟨i, ha, j, hb, k, hc, l, hd, -⟩ := h
    simp [isHexDigit_iff, ha, hb, hc, hd]
  · cases h

theorem not_misread_of_fourDigits? {window : List Char} {c : Char}
    (h : fourDigits? window = some c) : ¬ Misread window := by
  obtain ⟨hlength, hdigits⟩ := digits_of_fourDigits? h
  rintro ⟨digits, -, hlt, -, rfl | rfl⟩
  · omega
  · exact plus_not_isHexDigit (hdigits '+' List.mem_cons_self)

/-- What is not four digits is read exactly if it is a misread window. -/
theorem misread_iff {window : List Char} (hlength : window.length ≤ 4)
    (h : fourDigits? window = none) : Misread window ↔ ∃ c, unicodeEscape? window = some c := by
  constructor
  · rintro ⟨digits, hne, hlt, hdigits, hwindow⟩
    obtain ⟨n, hn, hbound⟩ := (read?_exactly 0 digits).2 hdigits
    have hpow : 16 ^ digits.length ≤ 16 ^ 3 := Nat.pow_le_pow_right (by decide) (by omega)
    have hvalid : n.isValidChar := .inl (by omega)
    have hnumber : Digits.ofText? 16 digits = some n := by
      simp [Digits.ofText?, hne, hn]
    have hread : (Digits.ofText? 16 digits >>= charOfCode?) = some (Char.ofNatAux n hvalid) := by
      rw [hnumber, Option.bind_eq_bind, Option.bind_some, charOfCode?, dif_pos hvalid]
    rcases hwindow with rfl | rfl
    · refine ⟨_, (unicodeEscape?_of_ne fun hhead => ?_).trans hread⟩
      exact plus_not_isHexDigit (hdigits '+' (List.mem_of_head? hhead))
    · exact ⟨_, hread⟩
  · rintro ⟨c, hread⟩
    obtain ⟨digits, hne, hdigits, hwindow⟩ := digits_of_unicodeEscape? hread
    refine ⟨digits, hne, ?_, hdigits, hwindow⟩
    rcases hwindow with rfl | rfl
    · refine Nat.lt_of_le_of_ne hlength fun hfour => ?_
      rw [fourDigits?_eq hfour hdigits, hread] at h
      cases h
    · exact hlength

/-- What stands behind `\u` is decoded in two parts, the window and the rest. -/
theorem decode_window (rest : List Char) :
    decode ('\\' :: 'u' :: rest) = unicodeText (rest.take 4) ++ decode (rest.drop 4) := by
  match rest with
  | a :: b :: c :: d :: rest => exact decode_unicode a b c d rest
  | [] | [_] | [_, _] | [_, _, _] => exact (List.append_nil _).symm

theorem reference_plain {c : Char} (h : c ≠ '\\') (rest : List Char) :
    reference (c :: rest) = c :: reference rest := by
  rw [reference.eq_def]
  exact if_neg h

theorem reference_escaped {c : Char} (h : c ≠ 'u') (rest : List Char) :
    reference ('\\' :: c :: rest) = simpleEscape c :: reference rest := by
  rw [reference.eq_def]
  exact if_neg h

/-- A window of four digits is taken, and a window of anything else is left where it is. -/
theorem reference_window (rest : List Char) :
    reference ('\\' :: 'u' :: rest) =
      match fourDigits? (rest.take 4) with
      | some c => c :: reference (rest.drop 4)
      | none => '\\' :: 'u' :: reference rest := by
  rw [reference.eq_def]
  dsimp only
  rw [if_pos rfl, if_pos rfl]
  cases hdigits : fourDigits? (rest.take 4) with
  | none => rfl
  | some c =>
    match rest, (digits_of_fourDigits? hdigits).1 with
    | _ :: _ :: _ :: _ :: behind, _ => rfl

theorem windows_plain {c : Char} (h : c ≠ '\\') (rest : List Char) :
    windows (c :: rest) = windows rest := by
  rw [windows.eq_def]
  exact if_neg h

theorem windows_escaped {c : Char} (h : c ≠ 'u') (rest : List Char) :
    windows ('\\' :: c :: rest) = windows rest := by
  rw [windows.eq_def]
  exact if_neg h

theorem windows_window (rest : List Char) :
    windows ('\\' :: 'u' :: rest) = rest.take 4 ::
      windows (if (fourDigits? (rest.take 4)).isSome then rest.drop 4 else rest) := by
  rw [windows.eq_def]
  dsimp only
  rw [if_pos rfl, if_pos rfl]
  cases hdigits : fourDigits? (rest.take 4) with
  | none => rfl
  | some c =>
    match rest, (digits_of_fourDigits? hdigits).1 with
    | _ :: _ :: _ :: _ :: behind, _ => rfl

section

variable {window : List Char} (h : '\\' ∉ window)

include h

theorem reference_append (rest : List Char) :
    reference (window ++ rest) = window ++ reference rest := by
  induction window with
  | nil => rfl
  | cons c window ih =>
    rw [List.mem_cons, not_or] at h
    rw [List.cons_append, reference_plain (Ne.symm h.1), ih h.2]
    rfl

theorem windows_append (rest : List Char) : windows (window ++ rest) = windows rest := by
  induction window with
  | nil => rfl
  | cons c window ih =>
    rw [List.mem_cons, not_or] at h
    rw [List.cons_append, windows_plain (Ne.symm h.1), ih h.2]

end

/-- What both decoders make of the first character or escape of a text, and of the window
behind it. Where its windows hold no misread one they make the same of it, otherwise the
reference makes more characters of it. -/
theorem exists_step {cs : List Char} (hne : cs ≠ []) (h : ∀ window ∈ windows cs, '\\' ∉ window) :
    ∃ read meant met behind, behind.length < cs.length ∧
      decode cs = read ++ decode behind ∧ reference cs = meant ++ reference behind ∧
      windows cs = met ++ windows behind ∧
      (read = meant ∧ (∀ window ∈ met, ¬ Misread window) ∨
        read.length < meant.length ∧ ∃ window ∈ met, Misread window) := by
  obtain ⟨c, rest, rfl⟩ := List.exists_cons_of_ne_nil hne
  by_cases hc : c = '\\'
  case neg =>
    exact ⟨[c], [c], [], rest, by simp, decode_plain hc rest, reference_plain hc rest,
      windows_plain hc rest, .inl ⟨rfl, by simp⟩⟩
  subst hc
  cases rest with
  | nil => exact ⟨['\\'], ['\\'], [], [], by simp, rfl, rfl, rfl, .inl ⟨rfl, by simp⟩⟩
  | cons escaped rest =>
    by_cases hu : escaped = 'u'
    case neg =>
      have hlt : rest.length < ('\\' :: escaped :: rest).length := by
        simp only [List.length_cons]
        omega
      exact ⟨[simpleEscape escaped], [simpleEscape escaped], [], rest, hlt, decode_escaped hu rest,
        reference_escaped hu rest, windows_escaped hu rest, .inl ⟨rfl, by simp⟩⟩
    subst hu
    have hlt : (rest.drop 4).length < ('\\' :: 'u' :: rest).length := by
      simp only [List.length_drop, List.length_cons]
      omega
    have hreference := reference_window rest
    have hwindows := windows_window rest
    cases hdigits : fourDigits? (rest.take 4) with
    | some c =>
      obtain ⟨hlength, hall⟩ := digits_of_fourDigits? hdigits
      have hread := (fourDigits?_eq hlength hall).symm.trans hdigits
      rw [hdigits] at hreference hwindows
      refine ⟨[c], [c], [rest.take 4], rest.drop 4, hlt, ?_, hreference, hwindows,
        .inl ⟨rfl, by simpa using not_misread_of_fourDigits? hdigits⟩⟩
      rw [decode_window, unicodeText, hread]
    | none =>
      rw [hdigits] at hreference hwindows
      have hplain : '\\' ∉ rest.take 4 := h _ (hwindows ▸ List.mem_cons_self)
      have hiff := misread_iff (List.length_take_le 4 rest) hdigits
      refine ⟨_, '\\' :: 'u' :: rest.take 4, [rest.take 4], rest.drop 4, hlt, decode_window rest,
        ?_, ?_, ?_⟩
      · calc reference ('\\' :: 'u' :: rest)
            = '\\' :: 'u' :: reference (rest.take 4 ++ rest.drop 4) := by
              rw [List.take_append_drop, hreference]
          _ = '\\' :: 'u' :: rest.take 4 ++ reference (rest.drop 4) := by
              rw [reference_append hplain]
              rfl
      · calc windows ('\\' :: 'u' :: rest)
            = rest.take 4 :: windows (rest.take 4 ++ rest.drop 4) := by
              rw [List.take_append_drop, hwindows]
              rfl
          _ = [rest.take 4] ++ windows (rest.drop 4) := by rw [windows_append hplain]; rfl
      · cases hread : unicodeEscape? (rest.take 4) with
        | none =>
          have hnot : ¬ Misread (rest.take 4) := fun hmis => by
            obtain ⟨c, hc⟩ := hiff.mp hmis
            rw [hread] at hc
            cases hc
          exact .inl ⟨by rw [unicodeText, hread], by simpa using hnot⟩
        | some c =>
          exact .inr ⟨by simp [unicodeText, hread], rest.take 4, List.mem_cons_self,
            hiff.mpr ⟨c, hread⟩⟩

theorem length_decode_le {cs : List Char} (h : ∀ window ∈ windows cs, '\\' ∉ window) :
    (decode cs).length ≤ (reference cs).length := by
  induction hlength : cs.length using Nat.strongRecOn generalizing cs with
  | ind n ih =>
    by_cases hne : cs = []
    · subst hne
      exact Nat.le_refl _
    obtain ⟨read, meant, met, behind, hlt, hdecode, hreference, hwindows, hstep⟩ :=
      exists_step hne h
    have hbehind := ih behind.length (hlength ▸ hlt)
      (fun window hwindow => h window (hwindows ▸ List.mem_append_right met hwindow)) rfl
    rw [hdecode, hreference, List.length_append, List.length_append]
    rcases hstep with ⟨rfl, -⟩ | ⟨hshort, -⟩ <;> omega

/-- The decoder is the reference exactly where it misreads no window. -/
theorem decode_eq_reference_iff {cs : List Char} (h : ∀ window ∈ windows cs, '\\' ∉ window) :
    decode cs = reference cs ↔ ∀ window ∈ windows cs, ¬ Misread window := by
  induction hlength : cs.length using Nat.strongRecOn generalizing cs with
  | ind n ih =>
    by_cases hne : cs = []
    · subst hne
      exact iff_of_true rfl (by simp [windows])
    obtain ⟨read, meant, met, behind, hlt, hdecode, hreference, hwindows, hstep⟩ :=
      exists_step hne h
    have hplain : ∀ window ∈ windows behind, '\\' ∉ window := fun window hwindow =>
      h window (hwindows ▸ List.mem_append_right met hwindow)
    rw [hdecode, hreference, hwindows, List.forall_mem_append]
    rcases hstep with ⟨rfl, hmet⟩ | ⟨hshort, window, hwindow, hmisread⟩
    · rw [List.append_cancel_left_eq, ih behind.length (hlength ▸ hlt) hplain rfl]
      exact (and_iff_right hmet).symm
    · refine iff_of_false (fun heq => ?_) fun hall => hall.1 window hwindow hmisread
      have hle := length_decode_le hplain
      have := congrArg List.length heq
      rw [List.length_append, List.length_append] at this
      omega

end Quoted

/-- The value of a quoted literal by the reference. -/
def referenceValue (literal : String) : String :=
  String.ofList (Quoted.reference (Quoted.stripQuotes literal.toList))

open Quoted

/-- If no escape stands inside of a window, then the value of a literal is that by the
reference exactly if no window is misread. A window that is neither four digits nor misread
stands as it is written, behind any text that is properly written and whatever escapes it
holds, and what follows it is decoded as if it stood alone. -/
theorem unquote_exactly (literal : String) :
    ((∀ window ∈ windows (stripQuotes literal.toList), '\\' ∉ window) →
      (unquote literal = referenceValue literal ↔
        ∀ window ∈ windows (stripQuotes literal.toList), ¬ Misread window)) ∧
    ∀ (quote : Char) (text : String) (forms : List (List Char)) (window behind : List Char),
      literal = String.ofList
        (quote :: (forms.flatten ++ ('\\' :: 'u' :: window ++ behind)) ++ [quote]) →
      quote = '"' ∨ quote = '\x27' → List.Forall₂ (WrittenAs quote) text.toList forms →
      window.length = 4 ∨ window.length < 4 ∧ behind = [] →
      fourDigits? window = none → ¬ Misread window →
      unquote literal = text ++ String.ofList ('\\' :: 'u' :: window) ++
        unquote (String.ofList (quote :: behind ++ [quote])) := by
  refine ⟨fun h => ?_, ?_⟩
  · rw [unquote, referenceValue, String.ofList_inj, decode_eq_reference_iff h]
  · rintro quote text forms window behind rfl hquotes hforms hlength hdigits hmisread
    have hsplit : (window ++ behind).take 4 = window ∧ (window ++ behind).drop 4 = behind := by
      rcases hlength with hfour | ⟨hshort, rfl⟩
      · exact ⟨List.take_left' hfour, List.drop_left' hfour⟩
      · rw [List.append_nil, List.take_of_length_le (by omega), List.drop_of_length_le (by omega)]
        exact ⟨rfl, rfl⟩
    have hread : unicodeEscape? window = none := by
      rw [Option.eq_none_iff_forall_ne_some]
      exact fun c hc => hmisread ((misread_iff (by omega) hdigits).mpr ⟨c, hc⟩)
    have hwindow : decode ('\\' :: 'u' :: window ++ behind) =
        '\\' :: 'u' :: window ++ decode behind := by
      show decode ('\\' :: 'u' :: (window ++ behind)) = _
      rw [decode_window, hsplit.1, hsplit.2, unicodeText, hread]
    rw [unquote, unquote, String.toList_ofList, String.toList_ofList, stripQuotes_quote,
      stripQuotes_quote, decode_flatten hquotes hforms, hwindow, String.ofList_append,
      String.ofList_append, String.ofList_toList, String.append_assoc]

/-- Four digits between escapes, and an escape inside of the window of two digits. -/
theorem unquote_exactly_escapes :
    unquote "\"\\n\\u0041\\n\"" = referenceValue "\"\\n\\u0041\\n\"" ∧
      unquote "\"a\\u12\\n3\\t\"" =
        "a" ++ String.ofList ['\\', 'u', '1', '2', '\\', 'n'] ++ unquote "\"3\\t\"" := by
  have hwindows : windows (stripQuotes "\"\\n\\u0041\\n\"".toList) = [['0', '0', '4', '1']] := by
    decide +kernel
  constructor
  · refine ((unquote_exactly _).1 (by rw [hwindows]; decide)).mpr ?_
    rw [hwindows, List.forall_mem_singleton]
    exact not_misread_of_fourDigits? (show fourDigits? _ = some 'A' from rfl)
  · have hforms : List.Forall₂ (WrittenAs '"') "a".toList [['a']] :=
      .cons (.raw (by decide) (by decide) (by decide)) .nil
    have hmisread : ¬ Misread ['1', '2', '\\', 'n'] := fun h => by
      obtain ⟨c, hc⟩ := (misread_iff (by decide) rfl).mp h
      exact absurd (show none = some c from hc) (by simp)
    have hliteral : "\"a\\u12\\n3\\t\"" = String.ofList ('"' :: ([['a']].flatten ++
        ('\\' :: 'u' :: ['1', '2', '\\', 'n'] ++ ['3', '\\', 't'])) ++ ['"']) := by
      decide +kernel
    have hread := (unquote_exactly _).2 '"' "a" [['a']] ['1', '2', '\\', 'n'] ['3', '\\', 't']
      hliteral (.inl rfl) hforms (.inl rfl) rfl hmisread
    have hbehind : String.ofList ('"' :: ['3', '\\', 't'] ++ ['"']) = "\"3\\t\"" := by
      decide +kernel
    rw [hbehind] at hread
    exact hread

/-- A plus sign is read as a digit would be, and a line feed that is escaped inside of a
window stays escaped. -/
theorem not_unquote_reference :
    (unquote "\"\\u+041\"" = "A" ∧ referenceValue "\"\\u+041\"" = "\\u+041") ∧
      (unquote "\"\\u12\\n3\"" = "\\u12\\n3" ∧ referenceValue "\"\\u12\\n3\"" = "\\u12\n3") ∧
      ¬ ∀ literal, (tokenize literal).map Lexeme.kind = [.string] →
        unquote literal = referenceValue literal := by
  refine ⟨⟨by decide +kernel, by decide +kernel⟩, ⟨by decide +kernel, by decide +kernel⟩,
    fun hall => ?_⟩
  exact absurd (hall "\"\\u+041\"" (by decide +kernel)) (by decide +kernel)

end DeclSchema
