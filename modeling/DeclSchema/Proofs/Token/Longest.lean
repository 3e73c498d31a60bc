import DeclSchema.Token.Lexer

/-!
# Tokens and the character behind them

The longest token at the start of a text stays the longest if the text goes on with a
character that no token of the kind goes on with. A line feed is such a character for
every token that is complete; text of unknown kind is left out, as it may be a quoted
text or a comment whose close is still to come.
-/

namespace DeclSchema.Pattern

theorem run_le (inClass : Char → Bool) (cs : List Char) : run inClass cs ≤ cs.length :=
  (List.takeWhile_prefix _).length_le

theorem run_of_all {inClass : Char → Bool} {cs : List Char} (h : cs.all inClass) :
    run inClass cs = cs.length := by
  induction cs with
  | nil => rfl
  | cons c cs ih =>
    obtain ⟨hc, hcs⟩ := Bool.and_eq_true_iff.mp h
    rw [run, List.takeWhile_cons_of_pos hc]
    exact congrArg (· + 1) (ih hcs)

theorem take_run (inClass : Char → Bool) (cs : List Char) :
    cs.take (run inClass cs) = cs.takeWhile inClass :=
  (List.prefix_iff_eq_take.mp (List.takeWhile_prefix _)).symm

theorem drop_run (inClass : Char → Bool) (cs : List Char) :
    cs.drop (run inClass cs) = cs.dropWhile inClass :=
  calc cs.drop (run inClass cs)
      = (cs.takeWhile inClass ++ cs.dropWhile inClass).drop (cs.takeWhile inClass).length := by
        rw [List.takeWhile_append_dropWhile, run]
    _ = cs.dropWhile inClass := List.drop_left ..

theorem run_append {inClass : Char → Bool} {d : Char} (h : ¬ inClass d) (cs tail : List Char) :
    run inClass (cs ++ d :: tail) = run inClass cs := by
  unfold run
  rw [List.takeWhile_append]
  split
  · next hall => rw [List.takeWhile_cons_of_neg h, List.append_nil, hall]
  · rfl

/-- The sign that an exponent may have. -/
def signLength (cs : List Char) : Nat :=
  if cs.head? == some '+' || cs.head? == some '-' then 1 else 0

theorem signLength_le (cs : List Char) : signLength cs ≤ cs.length := by
  cases cs with
  | nil => exact Nat.le_refl 0
  | cons c cs =>
    unfold signLength
    split
    · exact Nat.succ_le_succ (Nat.zero_le _)
    · exact Nat.zero_le _

theorem exponentLength_cons (c : Char) (cs : List Char) :
    exponentLength (c :: cs) =
      if c == 'e' || c == 'E' then
        match run Char.isDigit (cs.drop (signLength cs)) with
        | 0 => 0
        | digits => 1 + signLength cs + digits
      else
        0 := rfl

theorem exponentLength_le (cs : List Char) : exponentLength cs ≤ cs.length := by
  cases cs with
  | nil => exact Nat.le_refl 0
  | cons c cs =>
    have hsign := signLength_le cs
    have hrun := run_le Char.isDigit (cs.drop (signLength cs))
    rw [List.length_drop] at hrun
    rw [exponentLength_cons, List.length_cons]
    split
    · split
      · exact Nat.zero_le _
      · next hdigits =>
        have hpos : 0 < cs.length - signLength cs :=
          Nat.lt_of_lt_of_le (Nat.pos_of_ne_zero hdigits) hrun
        have hle : signLength cs + run Char.isDigit (cs.drop (signLength cs)) ≤ cs.length := by omega
        rw [Nat.add_assoc, Nat.add_comm cs.length]
        exact Nat.add_le_add_left hle 1
    · exact Nat.zero_le _

theorem fractionLength_of_ne {cs : List Char} (h : cs.head? ≠ some '.') :
    fractionLength cs = 0 := by
  unfold fractionLength
  split
  · exact absurd rfl h
  · rfl

theorem fractionLength_le (cs : List Char) : fractionLength cs ≤ cs.length := by
  by_cases h : cs.head? = some '.'
  · obtain ⟨rest, rfl⟩ := List.head?_eq_some_iff.mp h
    have := run_le isDigitOrGap rest
    rw [fractionLength, List.length_cons]
    omega
  · rw [fractionLength_of_ne h]
    exact Nat.zero_le _

theorem decimalLength_le (cs : List Char) : decimalLength cs ≤ cs.length := by
  have hrun := run_le isDigitOrGap cs
  have hfraction := fractionLength_le (cs.drop (run isDigitOrGap cs))
  have hexponent := exponentLength_le
    (cs.drop (run isDigitOrGap cs + fractionLength (cs.drop (run isDigitOrGap cs))))
  rw [List.length_drop] at hfraction hexponent
  unfold decimalLength
  dsimp only
  omega

theorem pointedLength_le (cs : List Char) : pointedLength cs ≤ cs.length := by
  have hrun := run_le isDigitOrGap cs
  have hexponent := exponentLength_le (cs.drop (run isDigitOrGap cs))
  rw [List.length_drop] at hexponent
  unfold pointedLength
  dsimp only
  omega

theorem radixLength_le (cs : List Char) : radixLength cs ≤ cs.length := by
  unfold radixLength
  split
  · next letter rest =>
    cases radixDigit? letter with
    | none => exact Nat.zero_le _
    | some inClass =>
      have hrun := run_le inClass rest
      dsimp only
      rw [List.length_cons, List.length_cons]
      split <;> omega
  · exact Nat.zero_le _

theorem radixLength_of_ne {c : Char} (h : c ≠ '0') (cs : List Char) :
    radixLength (c :: cs) = 0 := by
  unfold radixLength
  split <;> simp_all

theorem numberLength_le (cs : List Char) : numberLength cs ≤ cs.length :=
  Nat.max_le.mpr ⟨decimalLength_le cs, radixLength_le cs⟩

section

variable {quote c : Char} {multiline : Bool} {cs : List Char}

theorem quotedLength_quote : quotedLength quote multiline (quote :: cs) = (1, true) := by
  rw [quotedLength.eq_def]
  simp

theorem quotedLength_escape {escaped : Char} (hquote : quote ≠ '\\') (hescaped : escaped ≠ '\n') :
    quotedLength quote multiline ('\\' :: escaped :: cs) =
      ((quotedLength quote multiline cs).1 + 2, (quotedLength quote multiline cs).2) := by
  rw [quotedLength.eq_def]
  simp [hquote.symm, hescaped]

theorem quotedLength_plain (hquote : c ≠ quote) (hescape : c ≠ '\\')
    (hline : ¬ (c = '\n' ∧ multiline = false)) :
    quotedLength quote multiline (c :: cs) =
      ((quotedLength quote multiline cs).1 + 1, (quotedLength quote multiline cs).2) := by
  rw [quotedLength.eq_def]
  simp [hquote, hescape, hline]

theorem quotedLength_line (hquote : c ≠ quote) (hescape : c ≠ '\\')
    (hline : c = '\n' ∧ multiline = false) :
    quotedLength quote multiline (c :: cs) = (0, false) := by
  obtain ⟨rfl, rfl⟩ := hline
  rw [quotedLength.eq_def]
  simp [hquote]

end

theorem quotedLength_le (quote : Char) (multiline : Bool) (cs : List Char) :
    (quotedLength quote multiline cs).1 ≤ cs.length := by
  induction cs using quotedLength.induct quote multiline with
  | case1 => exact Nat.le_refl 0
  | case2 cs =>
    rw [quotedLength_quote, List.length_cons]
    omega
  | case3 hquote => simp [quotedLength, hquote]
  | case4 cs hquote => simp [quotedLength, hquote]
  | case5 c cs hc length closed hrun hquote ih =>
    rw [quotedLength_escape (Ne.symm hquote) hc, List.length_cons, List.length_cons]
    dsimp only
    omega
  | case6 c cs hquote hescape hline =>
    rw [quotedLength_line hquote hescape (by simpa using hline)]
    exact Nat.zero_le _
  | case7 c cs hquote hescape hline length closed hrun ih =>
    rw [quotedLength_plain hquote hescape (by simpa using hline), List.length_cons]
    exact Nat.succ_le_succ ih

/-- A quoted text that is closed does not depend on what follows it. -/
theorem quotedLength_append {quote : Char} {multiline : Bool} {cs : List Char}
    (h : (quotedLength quote multiline cs).2) (tail : List Char) :
    quotedLength quote multiline (cs ++ tail) = quotedLength quote multiline cs := by
  induction cs using quotedLength.induct quote multiline with
  | case1 => simp [quotedLength] at h
  | case2 cs => rw [List.cons_append, quotedLength_quote, quotedLength_quote]
  | case3 hquote => simp [quotedLength, hquote] at h
  | case4 cs hquote => simp [quotedLength, hquote] at h
  | case5 c cs hc length closed hrun hquote ih =>
    rw [quotedLength_escape (Ne.symm hquote) hc] at h
    rw [List.cons_append, List.cons_append, quotedLength_escape (Ne.symm hquote) hc,
      quotedLength_escape (Ne.symm hquote) hc, ih h]
  | case6 c cs hquote hescape hline =>
    rw [quotedLength_line hquote hescape (by simpa using hline)] at h
    exact absurd h (by simp)
  | case7 c cs hquote hescape hline length closed hrun ih =>
    have hline' : ¬ (c = '\n' ∧ multiline = false) := by simpa using hline
    rw [quotedLength_plain hquote hescape hline'] at h
    rw [List.cons_append, quotedLength_plain hquote hescape hline',
      quotedLength_plain hquote hescape hline', ih h]

/-- A quoted text that is closed ends with the closing quote. -/
theorem quotedLength_closed {quote : Char} {multiline : Bool} {cs : List Char}
    (h : (quotedLength quote multiline cs).2) :
    ∃ inner, cs.take (quotedLength quote multiline cs).1 = inner ++ [quote] := by
  induction cs using quotedLength.induct quote multiline with
  | case1 => simp [quotedLength] at h
  | case2 cs => exact ⟨[], by simp [quotedLength_quote]⟩
  | case3 hquote => simp [quotedLength, hquote] at h
  | case4 cs hquote => simp [quotedLength, hquote] at h
  | case5 c cs hc length closed hrun hquote ih =>
    rw [quotedLength_escape (Ne.symm hquote) hc] at h ⊢
    obtain ⟨inner, hinner⟩ := ih h
    exact ⟨'\\' :: c :: inner, by simp [hinner]⟩
  | case6 c cs hquote hescape hline =>
    rw [quotedLength_line hquote hescape (by simpa using hline)] at h
    exact absurd h (by simp)
  | case7 c cs hquote hescape hline length closed hrun ih =>
    rw [quotedLength_plain hquote hescape (by simpa using hline)] at h ⊢
    obtain ⟨inner, hinner⟩ := ih h
    exact ⟨c :: inner, by simp [hinner]⟩

theorem commentLength?_le {cs : List Char} {length : Nat} (h : commentLength? cs = some length) :
    2 ≤ length ∧ length ≤ cs.length := by
  induction cs generalizing length with
  | nil => cases h
  | cons c cs ih =>
    rw [commentLength?] at h
    split at h
    · next hclose =>
      obtain ⟨-, hslash⟩ := Bool.and_eq_true_iff.mp hclose
      obtain ⟨rest, rfl⟩ := List.head?_eq_some_iff.mp (by simpa using hslash)
      cases h
      simp
    · obtain ⟨inner, hinner, rfl⟩ := Option.map_eq_some_iff.mp h
      have := ih hinner
      rw [List.length_cons]
      omega

theorem slashed_of_ne {c : Char} (hslash : c ≠ '/') (hstar : c ≠ '*') (cs : List Char) :
    slashed (c :: cs) = (some .slash, 1) := by
  unfold slashed
  split <;> simp_all

theorem slashed_le (cs : List Char) : (slashed cs).2 ≤ cs.length + 1 := by
  unfold slashed
  split
  · next rest =>
    have := run_le (· != '\n') rest
    rw [List.length_cons]
    dsimp only
    omega
  · next rest =>
    cases hclose : commentLength? rest with
    | none => simp
    | some length =>
      have := (commentLength?_le hclose).2
      rw [List.length_cons]
      dsimp only
      omega
  · simp

theorem pointed_of_ne {c : Char} (h : c ≠ '.') (cs : List Char) :
    pointed (c :: cs) =
      if c.isDigit then (some .number, 1 + pointedLength (c :: cs)) else (some .dot, 1) := by
  unfold pointed
  split <;> simp_all

theorem pointed_of_single {c : Char} (h : c ≠ '.') (cs : List Char) :
    pointed ('.' :: c :: cs) = (some .dot, 1) := by
  unfold pointed
  split
  · simp_all
  · next hcs =>
    cases hcs
    rfl
  · simp_all

theorem pointed_le (cs : List Char) : (pointed cs).2 ≤ cs.length + 1 := by
  unfold pointed
  split
  · simp
  · next c rest _ =>
    have := pointedLength_le (c :: rest)
    split
    · dsimp only
      omega
    · simp
  · simp

theorem quoted_le (kind : TokenKind) (quote : Char) (multiline : Bool) (cs : List Char) :
    (quoted kind quote multiline cs).2 ≤ cs.length + 1 :=
  Nat.succ_le_succ (quotedLength_le quote multiline cs)

section

-- words come from the rule for words only, and strings from the rule for quotes
variable {kind : TokenKind} (h : kind = .word ∨ kind = .string)

include h

theorem getD_ofMark?_ne (c : Char) : (TokenKind.ofMark? c).getD .unknown ≠ kind := by
  unfold TokenKind.ofMark?
  rcases h with rfl | rfl <;> split <;> decide

theorem slashed_ne (cs : List Char) : (slashed cs).1 ≠ some kind := by
  unfold slashed
  grind

theorem pointed_ne (cs : List Char) : (pointed cs).1 ≠ some kind := by
  unfold pointed
  grind

/-- A quoted text is of its kind only if it is closed. -/
theorem quoted_eq {wanted : TokenKind} {quote : Char} {multiline : Bool} {cs : List Char}
    (hkind : (quoted wanted quote multiline cs).1 = some kind) :
    wanted = kind ∧ (quotedLength quote multiline cs).2 := by
  unfold quoted at hkind
  grind

end

theorem next_of_isSeparator {c : Char} (h : isSeparator c) (cs : List Char) :
    next c cs = (none, 1 + run isSeparator cs) :=
  if_pos h

theorem not_isSeparator_of_startsWord {c : Char} (h : startsWord c) : ¬ isSeparator c := by
  intro hsep
  simp only [isSeparator, Bool.or_eq_true, beq_iff_eq] at hsep
  rcases hsep with (((rfl | rfl) | rfl) | rfl) | rfl <;> revert h <;> decide

theorem not_isSeparator_of_isDigit {c : Char} (h : c.isDigit) : ¬ isSeparator c := by
  intro hsep
  simp only [isSeparator, Bool.or_eq_true, beq_iff_eq] at hsep
  rcases hsep with (((rfl | rfl) | rfl) | rfl) | rfl <;> revert h <;> decide

theorem next_of_startsWord {c : Char} (h : startsWord c) (cs : List Char) :
    next c cs = (some .word, 1 + run continuesWord cs) := by
  unfold next
  rw [if_neg (not_isSeparator_of_startsWord h), if_pos h]

theorem not_startsWord_of_isDigit {c : Char} (h : c.isDigit) : ¬ startsWord c := by
  intro hword
  simp only [startsWord, isAlpha_iff, Char.isDigit, Bool.or_eq_true, Bool.and_eq_true,
    decide_eq_true_eq, beq_iff_eq] at hword h
  rcases hword with ((⟨hlow, -⟩ | ⟨hlow, -⟩) | rfl) | rfl
  · exact absurd (UInt32.le_trans hlow h.2) (by decide)
  · exact absurd (UInt32.le_trans hlow h.2) (by decide)
  · exact absurd h.2 (by decide)
  · exact absurd h.1 (by decide)

theorem next_of_isDigit {c : Char} (h : c.isDigit) (cs : List Char) :
    next c cs = (some .number, numberLength (c :: cs)) := by
  unfold next
  rw [if_neg (not_isSeparator_of_isDigit h), if_neg (not_startsWord_of_isDigit h), if_pos h]

/-- A mark that begins no longer token. -/
theorem next_of_mark {c : Char} (hsep : ¬ isSeparator c) (hword : ¬ startsWord c)
    (hdigit : ¬ c.isDigit) (hlong : c ∉ ['"', '\x27', '\x60', '/', '.', '=']) (cs : List Char) :
    next c cs = (some ((TokenKind.ofMark? c).getD .unknown), 1) := by
  unfold next
  rw [if_neg hsep, if_neg hword, if_neg hdigit]
  split <;> simp_all

theorem next_le (c : Char) (cs : List Char) : (next c cs).2 ≤ cs.length + 1 := by
  have hrun := fun inClass => run_le inClass cs
  have hnumber := numberLength_le (c :: cs)
  unfold next
  split
  · have := hrun isSeparator
    dsimp only
    omega
  split
  · have := hrun continuesWord
    dsimp only
    omega
  split
  · exact hnumber
  split
  · exact quoted_le ..
  · exact quoted_le ..
  · exact quoted_le ..
  · exact slashed_le cs
  · exact pointed_le cs
  · split
    · next hhead =>
      obtain ⟨rest, rfl⟩ := List.head?_eq_some_iff.mp (by simpa using hhead)
      simp
    · simp
  · simp

theorem continuesWord_of_isDigit {c : Char} (h : c.isDigit) : continuesWord c := by
  simp [continuesWord, h]

theorem continuesWord_of_isHexDigit {c : Char} (h : isHexDigit c) : continuesWord c := by
  simp only [isHexDigit, Bool.or_eq_true, Bool.and_eq_true, decide_eq_true_eq] at h
  simp only [continuesWord, startsWord, isAlpha_iff, Bool.or_eq_true]
  rcases h with (hdigit | ⟨hlow, hhigh⟩) | ⟨hlow, hhigh⟩
  · exact .inr hdigit
  · exact .inl (.inl (.inl (.inr ⟨hlow, UInt32.le_trans hhigh (by decide)⟩)))
  · exact .inl (.inl (.inl (.inl ⟨hlow, UInt32.le_trans hhigh (by decide)⟩)))

/-- The digits of every radix continue words. -/
theorem continuesWord_of_radixDigit? {letter c : Char} {inClass : Char → Bool}
    (hclass : radixDigit? letter = some inClass) (hc : inClass c) : continuesWord c := by
  have hgap : c = '_' → continuesWord c := fun hgap => hgap ▸ rfl
  have hoctal : (decide ('0' ≤ c) && decide (c ≤ '7')) = true → continuesWord c := by
    intro hdigit
    rw [Bool.and_eq_true, decide_eq_true_eq, decide_eq_true_eq] at hdigit
    refine continuesWord_of_isDigit ?_
    rw [Char.isDigit, Bool.and_eq_true, decide_eq_true_eq, decide_eq_true_eq]
    exact ⟨hdigit.1, UInt32.le_trans hdigit.2 (by decide)⟩
  unfold radixDigit? at hclass
  split at hclass <;> cases hclass <;> simp only [Bool.or_eq_true, beq_iff_eq] at hc
  · exact hc.elim continuesWord_of_isHexDigit hgap
  · exact hc.elim continuesWord_of_isHexDigit hgap
  · rcases hc with (rfl | rfl) | hc
    · rfl
    · rfl
    · exact hgap hc
  · rcases hc with (rfl | rfl) | hc
    · rfl
    · rfl
    · exact hgap hc
  · exact hc.elim hoctal hgap
  · exact hc.elim hoctal hgap

/-- The character ends every word and every number before it, and makes no other token
but an equals sign longer. -/
def breaks (d : Char) : Bool :=
  !continuesWord d && d != '.' && d != '+' && d != '-' && d != '*' && d != '/'

section

variable {d : Char} (h : breaks d)

include h

theorem not_continuesWord_of_breaks : ¬ continuesWord d := by
  simp only [breaks, Bool.and_eq_true] at h
  simpa using h.1.1.1.1.1

theorem not_isDigit_of_breaks : ¬ d.isDigit := fun hdigit =>
  not_continuesWord_of_breaks h (by simp [continuesWord, hdigit])

theorem not_isDigitOrGap_of_breaks : ¬ isDigitOrGap d := fun hdigit => by
  apply not_continuesWord_of_breaks h
  rcases Bool.or_eq_true_iff.mp hdigit with hdigit | hgap
  · simp [continuesWord, hdigit]
  · simp [continuesWord, startsWord, hgap]

theorem ne_of_breaks {c : Char} (hc : ¬ breaks c) : d ≠ c :=
  fun heq => hc (heq ▸ h)

theorem signLength_append (cs tail : List Char) :
    signLength (cs ++ d :: tail) = signLength cs := by
  cases cs with
  | nil =>
    have hplus : d ≠ '+' := ne_of_breaks h (by decide)
    have hminus : d ≠ '-' := ne_of_breaks h (by decide)
    simp [signLength, hplus, hminus]
  | cons c cs => rfl

theorem exponentLength_append (cs tail : List Char) :
    exponentLength (cs ++ d :: tail) = exponentLength cs := by
  cases cs with
  | nil =>
    have he : d ≠ 'e' := ne_of_breaks h (by decide)
    have hE : d ≠ 'E' := ne_of_breaks h (by decide)
    simp [exponentLength, he, hE]
  | cons c cs =>
    rw [List.cons_append, exponentLength_cons, exponentLength_cons, signLength_append h,
      List.drop_append_of_le_length (signLength_le cs), run_append (not_isDigit_of_breaks h)]

theorem fractionLength_append (cs tail : List Char) :
    fractionLength (cs ++ d :: tail) = fractionLength cs := by
  cases cs with
  | nil =>
    have hdot : d ≠ '.' := ne_of_breaks h (by decide)
    exact fractionLength_of_ne (by simpa using hdot)
  | cons c cs =>
    by_cases hc : c = '.'
    · subst hc
      rw [List.cons_append, fractionLength, fractionLength,
        run_append (not_isDigitOrGap_of_breaks h)]
    · rw [fractionLength_of_ne (by simpa using hc), fractionLength_of_ne (by simpa using hc)]

theorem decimalLength_append (cs tail : List Char) :
    decimalLength (cs ++ d :: tail) = decimalLength cs := by
  have hrun := run_le isDigitOrGap cs
  have hfraction := fractionLength_le (cs.drop (run isDigitOrGap cs))
  rw [List.length_drop] at hfraction
  unfold decimalLength
  dsimp only
  rw [run_append (not_isDigitOrGap_of_breaks h), List.drop_append_of_le_length hrun,
    fractionLength_append h, List.drop_append_of_le_length (by omega), exponentLength_append h]

theorem pointedLength_append (cs tail : List Char) :
    pointedLength (cs ++ d :: tail) = pointedLength cs := by
  have hrun := run_le isDigitOrGap cs
  unfold pointedLength
  dsimp only
  rw [run_append (not_isDigitOrGap_of_breaks h), List.drop_append_of_le_length hrun,
    exponentLength_append h]

theorem radixDigit?_eq_none_of_breaks : radixDigit? d = none := by
  have hx : d ≠ 'x' := ne_of_breaks h (by decide)
  have hX : d ≠ 'X' := ne_of_breaks h (by decide)
  have hb : d ≠ 'b' := ne_of_breaks h (by decide)
  have hB : d ≠ 'B' := ne_of_breaks h (by decide)
  have ho : d ≠ 'o' := ne_of_breaks h (by decide)
  have hO : d ≠ 'O' := ne_of_breaks h (by decide)
  unfold radixDigit?
  split <;> simp_all

theorem radixLength_append (cs tail : List Char) :
    radixLength (cs ++ d :: tail) = radixLength cs := by
  match cs with
  | [] => exact radixLength_of_ne (ne_of_breaks h (by decide)) tail
  | [c] =>
    by_cases hzero : c = '0'
    · subst hzero
      show radixLength ('0' :: d :: tail) = 0
      rw [radixLength, radixDigit?_eq_none_of_breaks h]
    · exact (radixLength_of_ne hzero _).trans (radixLength_of_ne hzero _).symm
  | c :: letter :: rest =>
    by_cases hzero : c = '0'
    · subst hzero
      rw [List.cons_append, List.cons_append, radixLength, radixLength]
      cases hclass : radixDigit? letter with
      | none => rfl
      | some inClass =>
        dsimp only
        rw [run_append fun hd => not_continuesWord_of_breaks h
          (continuesWord_of_radixDigit? hclass hd)]
    · exact (radixLength_of_ne hzero _).trans (radixLength_of_ne hzero _).symm

theorem numberLength_append (cs tail : List Char) :
    numberLength (cs ++ d :: tail) = numberLength cs := by
  unfold numberLength
  rw [decimalLength_append h, radixLength_append h]

end

/-- A comment that is closed does not depend on what follows it. -/
theorem commentLength?_append {cs : List Char} {length : Nat}
    (h : commentLength? cs = some length) (tail : List Char) :
    commentLength? (cs ++ tail) = some length := by
  induction cs generalizing length with
  | nil => cases h
  | cons c cs ih =>
    have hhead : (cs ++ tail).head? = cs.head? := by
      cases cs with
      | nil => simp [commentLength?] at h
      | cons first rest => rfl
    rw [List.cons_append, commentLength?, hhead]
    rw [commentLength?] at h
    split at h
    · next hclose => rwa [if_pos hclose]
    · next hopen =>
      obtain ⟨inner, hinner, rfl⟩ := Option.map_eq_some_iff.mp h
      rw [if_neg hopen, ih hinner]
      rfl

/-- Whether a text is a line comment and nothing ends it. -/
def isOpenLine : List Char → Bool
  | '/' :: '/' :: cs => cs.all (· != '\n')
  | _ => false

theorem run_append_of_not_all {inClass : Char → Bool} {cs : List Char} (h : ¬ cs.all inClass)
    (tail : List Char) : run inClass (cs ++ tail) = run inClass cs := by
  unfold run
  rw [List.takeWhile_append, if_neg]
  intro hlength
  apply h
  rw [← (List.takeWhile_prefix inClass).eq_of_length hlength]
  exact List.all_takeWhile

/-- What a line comment is the first piece of is of no kind. -/
theorem not_isOpenLine_of_next {c : Char} {cs : List Char} (h : (next c cs).1 ≠ none) :
    ¬ isOpenLine (c :: cs) := by
  intro hopen
  unfold isOpenLine at hopen
  split at hopen
  · next heq =>
    cases heq
    exact h rfl
  · cases hopen

theorem isDocumentation_append {cs : List Char} (h : 2 ≤ cs.length) (tail : List Char) :
    isDocumentation (cs ++ tail) = isDocumentation cs := by
  match cs, h with
  | _ :: _ :: _, _ => rfl

theorem quoted_append {kind : TokenKind} {quote : Char} {multiline : Bool} {cs : List Char}
    (hkind : (quoted kind quote multiline cs).1 ≠ some .unknown) (tail : List Char) :
    quoted kind quote multiline (cs ++ tail) = quoted kind quote multiline cs := by
  unfold quoted at hkind ⊢
  dsimp only at hkind ⊢
  have hclosed : (quotedLength quote multiline cs).2 := by
    by_cases hclosed : (quotedLength quote multiline cs).2
    · exact hclosed
    · rw [if_neg hclosed] at hkind
      exact absurd rfl hkind
  rw [quotedLength_append hclosed]

section

variable {d : Char} (h : breaks d)

include h

theorem slashed_append {cs : List Char} (hkind : (slashed cs).1 ≠ some .unknown)
    (hline : d = '\n' ∨ ¬ isOpenLine ('/' :: cs)) (tail : List Char) :
    slashed (cs ++ d :: tail) = slashed cs := by
  have hslash : d ≠ '/' := ne_of_breaks h (by decide)
  have hstar : d ≠ '*' := ne_of_breaks h (by decide)
  match cs with
  | [] => exact slashed_of_ne hslash hstar tail
  | c :: cs =>
    by_cases hcomment : c = '/'
    · subst hcomment
      rw [List.cons_append, slashed, slashed]
      rcases hline with hfeed | hends
      · rw [run_append (by simp [hfeed])]
      · rw [run_append_of_not_all hends]
    by_cases hblock : c = '*'
    · subst hblock
      rw [List.cons_append, slashed, slashed]
      cases hclose : commentLength? cs with
      | none => exact absurd (by rw [slashed, hclose]) hkind
      | some length =>
        have hle := commentLength?_le hclose
        rw [commentLength?_append hclose, isDocumentation_append (by omega)]
    · exact (slashed_of_ne hcomment hblock _).trans (slashed_of_ne hcomment hblock _).symm

theorem pointed_append (cs tail : List Char) : pointed (cs ++ d :: tail) = pointed cs := by
  have hdot : d ≠ '.' := ne_of_breaks h (by decide)
  match cs with
  | [] =>
    rw [List.nil_append, pointed_of_ne hdot, if_neg (not_isDigit_of_breaks h)]
    rfl
  | [c] =>
    by_cases hc : c = '.'
    · subst hc
      exact pointed_of_single hdot tail
    · rw [List.cons_append, pointed_of_ne hc, pointed_of_ne hc, ← List.cons_append,
        pointedLength_append h]
  | c :: second :: rest =>
    by_cases hc : c = '.'
    · subst hc
      by_cases hsecond : second = '.'
      · subst hsecond
        rfl
      · exact (pointed_of_single hsecond _).trans (pointed_of_single hsecond _).symm
    · rw [List.cons_append, pointed_of_ne hc, pointed_of_ne hc, ← List.cons_append,
        pointedLength_append h]

/-- A piece that is no white space is the first one, too, if a character that breaks
follows the text. A line comment goes on up to a line feed. -/
theorem next_append {c : Char} {cs : List Char} (hgt : c = '=' → d ≠ '>')
    (hsep : ¬ isSeparator c) (hkind : (next c cs).1 ≠ some .unknown)
    (hline : d = '\n' ∨ ¬ isOpenLine (c :: cs)) (tail : List Char) :
    next c (cs ++ d :: tail) = next c cs := by
  by_cases hword : startsWord c
  · rw [next_of_startsWord hword, next_of_startsWord hword,
      run_append (not_continuesWord_of_breaks h)]
  by_cases hdigit : c.isDigit
  · rw [next_of_isDigit hdigit, next_of_isDigit hdigit, ← List.cons_append, numberLength_append h]
  by_cases hlong : c ∈ ['"', '\x27', '\x60', '/', '.', '=']
  · simp only [List.mem_cons, List.not_mem_nil, or_false] at hlong
    rcases hlong with rfl | rfl | rfl | rfl | rfl | rfl
    · exact quoted_append hkind _
    · exact quoted_append hkind _
    · exact quoted_append hkind _
    · exact slashed_append h hkind hline tail
    · exact pointed_append h cs tail
    · have hhead : ((cs ++ d :: tail).head? == some '>') = (cs.head? == some '>') := by
        cases cs <;> simp [hgt rfl]
      show (if (cs ++ d :: tail).head? == some '>' then _ else _) = _
      rw [hhead]
      rfl
  · rw [next_of_mark hsep hword hdigit hlong, next_of_mark hsep hword hdigit hlong]

end

/-- Whether a text is a word. -/
def isWord : List Char → Bool
  | [] => false
  | c :: cs => startsWord c && cs.all continuesWord

theorem next_word {c d : Char} {cs : List Char} (h : isWord (c :: cs)) (hd : ¬ continuesWord d)
    (tail : List Char) : next c (cs ++ d :: tail) = (some .word, cs.length + 1) := by
  obtain ⟨hstart, hall⟩ := Bool.and_eq_true_iff.mp h
  rw [next_of_startsWord hstart, run_append hd, run_of_all hall, Nat.add_comm]

/-- A mark that begins no longer token is a token whatever follows it. -/
theorem next_mark {c : Char} {kind : TokenKind} (h : TokenKind.ofMark? c = some kind)
    (hlong : c ∉ ['/', '.', '=']) (cs : List Char) : next c cs = (some kind, 1) := by
  have hplain : ¬ isSeparator c ∧ ¬ startsWord c ∧ ¬ c.isDigit ∧ c ∉ ['"', '\x27', '\x60'] := by
    unfold TokenKind.ofMark? at h
    split at h
    case h_27 => cases h
    all_goals decide
  obtain ⟨hsep, hword, hdigit, hquote⟩ := hplain
  rw [next_of_mark hsep hword hdigit (by simp_all), h]
  rfl

end DeclSchema.Pattern
