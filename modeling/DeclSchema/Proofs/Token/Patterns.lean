import DeclSchema.Proofs.Token.Longest
import Mathlib.Computability.Language

/-!
# The patterns of tokens

The lexical rules as regular languages over characters, each with the rule it belongs to.
`Reaches` says of a length that it is the length of the longest start of a text in a
language. It is proved by the structure of the patterns: a run of a class goes as far as it
can, if what may follow it starts with other characters.
-/

namespace DeclSchema.Lexicon

open Computability Pattern

/-- One character with a property. -/
def one (holds : Char → Prop) : Language Char :=
  {w | ∃ c, holds c ∧ w = [c]}

/-- A character is in one of some ranges. -/
def InRanges (ranges : List (Char × Char)) (c : Char) : Prop :=
  ∃ range ∈ ranges, range.1 ≤ c ∧ c ≤ range.2

/-- One character from any of some ranges. -/
def oneOf (ranges : List (Char × Char)) : Language Char :=
  one (InRanges ranges)

/-- One character other than some characters. -/
def noneOf (excluded : List Char) : Language Char :=
  one (· ∉ excluded)

/-- One character. -/
def only (c : Char) : Language Char :=
  one (· = c)

/-- At least one text of a language. -/
def repeated (L : Language Char) : Language Char :=
  L * L∗

/-- A text of a language or nothing. -/
def optional (L : Language Char) : Language Char :=
  1 + L

section

variable {holds : Char → Prop} {L : Language Char}

theorem mem_one_mul {w : List Char} :
    w ∈ one holds * L ↔ ∃ c rest, holds c ∧ rest ∈ L ∧ w = c :: rest := by
  rw [Language.mem_mul]
  constructor
  · rintro ⟨_, ⟨c, hc, rfl⟩, rest, hrest, rfl⟩
    exact ⟨c, rest, hc, hrest, rfl⟩
  · rintro ⟨c, rest, hc, hrest, rfl⟩
    exact ⟨[c], ⟨c, hc, rfl⟩, rest, hrest, rfl⟩

theorem mem_star_one {w : List Char} : w ∈ (one holds)∗ ↔ ∀ c ∈ w, holds c := by
  rw [Language.mem_kstar]
  constructor
  · rintro ⟨parts, rfl, hparts⟩ c hc
    obtain ⟨part, hpart, hmem⟩ := List.mem_flatten.mp hc
    obtain ⟨d, hd, rfl⟩ := hparts part hpart
    exact List.mem_singleton.mp hmem ▸ hd
  · refine fun h => ⟨w.map fun c => [c], (List.flatMap_singleton' w).symm, fun part hpart => ?_⟩
    obtain ⟨c, hc, rfl⟩ := List.mem_map.mp hpart
    exact ⟨c, h c hc, rfl⟩

end

/-- The longest start of a text in a language has a given length. A length of zero means
that no other start of the text is in the language. -/
structure Reaches (L : Language Char) (cs : List Char) (n : Nat) : Prop where
  bound : ∀ w ∈ L, w <+: cs → w.length ≤ n
  mem : n ≠ 0 → cs.take n ∈ L
  le : n ≤ cs.length

namespace Reaches

variable {holds : Char → Prop} {inClass : Char → Bool} {L M : Language Char} {c : Char}
  {cs : List Char} {n m : Nat}

theorem mem_of_nil_mem (h : Reaches L cs n) (hnil : [] ∈ L) : cs.take n ∈ L := by
  by_cases hn : n = 0
  · rwa [hn, List.take_zero]
  · exact h.mem hn

theorem nil (L : Language Char) : Reaches L [] 0 where
  bound w _ hbegins := by rw [List.prefix_nil.mp hbegins]; exact Nat.le_refl 0
  mem hn := absurd rfl hn
  le := Nat.le_refl 0

theorem add (hL : Reaches L cs n) (hM : Reaches M cs m) : Reaches (L + M) cs (max n m) where
  bound w hw hbegins := by
    rcases (Language.mem_add ..).mp hw with hw | hw
    · exact Nat.le_trans (hL.bound w hw hbegins) (Nat.le_max_left n m)
    · exact Nat.le_trans (hM.bound w hw hbegins) (Nat.le_max_right n m)
  mem hne := by
    rw [Language.mem_add]
    rcases Nat.le_total n m with hle | hle
    · rw [Nat.max_eq_right hle] at hne ⊢
      exact .inr (hM.mem hne)
    · rw [Nat.max_eq_left hle] at hne ⊢
      exact .inl (hL.mem hne)
  le := Nat.max_le.mpr ⟨hL.le, hM.le⟩

protected theorem optional (h : Reaches L cs n) : Reaches (optional L) cs n where
  bound w hw hbegins := by
    rcases (Language.mem_add ..).mp hw with hw | hw
    · rw [(Language.mem_one w).mp hw]
      exact Nat.zero_le n
    · exact h.bound w hw hbegins
  mem hn := (Language.mem_add ..).mpr (.inr (h.mem hn))
  le := h.le

theorem cons_of_not (hc : ¬ holds c) : Reaches (one holds * L) (c :: cs) 0 where
  bound w hw hbegins := by
    obtain ⟨d, rest, hd, -, rfl⟩ := mem_one_mul.mp hw
    exact absurd ((List.cons_prefix_cons.mp hbegins).1 ▸ hd) hc
  mem hn := absurd rfl hn
  le := Nat.zero_le _

theorem cons (hc : holds c) (h : Reaches L cs n) (hn : n ≠ 0 ∨ [] ∈ L) :
    Reaches (one holds * L) (c :: cs) (n + 1) where
  bound w hw hbegins := by
    obtain ⟨d, rest, -, hrest, rfl⟩ := mem_one_mul.mp hw
    exact Nat.succ_le_succ (h.bound rest hrest (List.cons_prefix_cons.mp hbegins).2)
  mem _ := by
    refine mem_one_mul.mpr ⟨c, cs.take n, hc, ?_, rfl⟩
    rcases hn with hn | hnil
    · exact h.mem hn
    · exact h.mem_of_nil_mem hnil
  le := Nat.succ_le_succ h.le

/-- Nothing is read of a character if nothing of what must follow it is there. -/
theorem cons_zero (h : Reaches L cs 0) (hnil : [] ∉ L) :
    Reaches (one holds * L) (c :: cs) 0 where
  bound w hw hbegins := by
    obtain ⟨d, rest, -, hrest, rfl⟩ := mem_one_mul.mp hw
    have hle := h.bound rest hrest (List.cons_prefix_cons.mp hbegins).2
    exact absurd (List.eq_nil_of_length_eq_zero (Nat.le_zero.mp hle) ▸ hrest) hnil
  mem hn := absurd rfl hn
  le := Nat.zero_le _

/-- A run of a class goes as far as it can before a language whose texts start with
characters outside of the class. -/
theorem run_mul (houtside : ∀ d rest, d :: rest ∈ L → ¬ inClass d) (hnil : [] ∈ L)
    (h : Reaches L (cs.drop (run inClass cs)) n) :
    Reaches ((one (inClass ·))∗ * L) cs (run inClass cs + n) where
  bound w hw hbegins := by
    obtain ⟨a, ha, b, hb, rfl⟩ := Language.mem_mul.mp hw
    obtain ⟨tail, rfl⟩ := hbegins
    have hall : a.all inClass := List.all_eq_true.mpr (mem_star_one.mp ha)
    have hrun : a.length ≤ run inClass (a ++ b ++ tail) := by
      rw [run, List.append_assoc, List.takeWhile_append_of_pos (List.all_eq_true.mp hall)]
      simp
    cases b with
    | nil =>
      rw [List.append_nil] at hrun ⊢
      omega
    | cons d rest =>
      have heq : run inClass (a ++ d :: rest ++ tail) = a.length := by
        rw [List.append_assoc, List.cons_append, run_append (houtside d rest hb), run_of_all hall]
      rw [heq] at h ⊢
      rw [List.append_assoc, List.drop_left] at h
      rw [List.length_append]
      exact Nat.add_le_add_left (h.bound _ hb (List.prefix_append ..)) _
  mem _ := by
    rw [List.take_add]
    refine Language.append_mem_mul (mem_star_one.mpr fun d hd => ?_) (h.mem_of_nil_mem hnil)
    rw [take_run] at hd
    exact List.all_eq_true.mp List.all_takeWhile d hd
  le := by
    have hle := h.le
    have hrun := run_le inClass cs
    rw [List.length_drop] at hle
    omega

theorem run_star (inClass : Char → Bool) (cs : List Char) :
    Reaches (one (inClass ·))∗ cs (run inClass cs) := by
  have hnothing : Reaches 1 (cs.drop (run inClass cs)) 0 :=
    ⟨fun w hw _ => Nat.le_of_eq (congrArg List.length ((Language.mem_one w).mp hw)),
      fun hn => absurd rfl hn, Nat.zero_le _⟩
  have houtside : ∀ d rest, d :: rest ∈ (1 : Language Char) → ¬ inClass d := fun d rest h =>
    absurd ((Language.mem_one _).mp h) (by simp)
  have h := run_mul houtside Language.nil_mem_one hnothing
  rwa [mul_one, Nat.add_zero] at h

/-- At least one character of a class. -/
protected theorem repeated (inClass : Char → Bool) (cs : List Char) :
    Reaches (repeated (one (inClass ·))) cs (run inClass cs) := by
  cases cs with
  | nil => exact nil _
  | cons c cs =>
    by_cases hc : inClass c
    · have hrun : run inClass (c :: cs) = run inClass cs + 1 := by
        rw [run, List.takeWhile_cons_of_pos hc]
        rfl
      rw [hrun]
      exact cons hc (run_star inClass cs) (.inr (Language.nil_mem_kstar _))
    · have hrun : run inClass (c :: cs) = 0 := by rw [run, List.takeWhile_cons_of_neg hc]; rfl
      rw [hrun]
      exact cons_of_not hc

theorem one_of_not (hc : ¬ holds c) : Reaches (one holds) (c :: cs) 0 := by
  have hnot : Reaches (one holds * 1) (c :: cs) 0 := cons_of_not hc
  rwa [mul_one] at hnot

protected theorem one (hc : holds c) : Reaches (one holds) (c :: cs) 1 where
  bound w hw _ := by
    obtain ⟨d, -, rfl⟩ := hw
    exact Nat.le_refl 1
  mem _ := ⟨c, hc, rfl⟩
  le := Nat.succ_le_succ (Nat.zero_le _)

end Reaches

theorem le_and_le_iff {c d : Char} : d ≤ c ∧ c ≤ d ↔ c = d := by
  constructor
  · exact fun h => Char.le_antisymm h.2 h.1
  · rintro rfl
    exact ⟨Char.le_refl c, Char.le_refl c⟩

/-- The white space between tokens. -/
def blanks : List (Char × Char) :=
  [(' ', ' '), ('\t', '\t'), ('\r', '\r'), ('\n', '\n'), ('\x0c', '\x0c')]

/-- The characters that a word starts with. -/
def letters : List (Char × Char) :=
  [('A', 'Z'), ('a', 'z'), ('_', '_'), ('$', '$')]

/-- The digits of a decimal number. -/
def digits : List (Char × Char) :=
  [('0', '9')]

section

variable (c : Char)

theorem inRanges_blanks : InRanges blanks c ↔ isSeparator c := by
  simp [InRanges, blanks, isSeparator, le_and_le_iff, or_assoc]

theorem inRanges_letters : InRanges letters c ↔ startsWord c := by
  simp [InRanges, letters, startsWord, isAlpha_iff, le_and_le_iff, or_assoc]

theorem inRanges_digits : InRanges digits c ↔ c.isDigit := by
  have hdigit : c.isDigit ↔ '0' ≤ c ∧ c ≤ '9' := by
    rw [Char.isDigit, Bool.and_eq_true, decide_eq_true_eq, decide_eq_true_eq]
    exact Iff.rfl
  rw [hdigit]
  simp [InRanges, digits]

theorem inRanges_append {ranges others : List (Char × Char)} :
    InRanges (ranges ++ others) c ↔ InRanges ranges c ∨ InRanges others c := by
  simp [InRanges, or_and_right, exists_or]

theorem inRanges_gap : InRanges [('_', '_')] c ↔ c = '_' := by
  simp [InRanges, le_and_le_iff]

theorem inRanges_wordParts : InRanges (letters ++ digits) c ↔ continuesWord c := by
  rw [inRanges_append, inRanges_letters, inRanges_digits, continuesWord, Bool.or_eq_true]

theorem inRanges_digitsOrGap : InRanges (digits ++ [('_', '_')]) c ↔ isDigitOrGap c := by
  rw [inRanges_append, inRanges_digits, inRanges_gap, isDigitOrGap, Bool.or_eq_true, beq_iff_eq]

end

theorem oneOf_eq {ranges : List (Char × Char)} {inClass : Char → Bool}
    (h : ∀ c, InRanges ranges c ↔ inClass c) : oneOf ranges = one (inClass ·) :=
  congrArg one (funext fun c => propext (h c))

/-- White space. -/
def blank : Language Char :=
  repeated (oneOf blanks)

/-- A comment up to the end of its line. -/
def lineComment : Language Char :=
  only '/' * (only '/' * (noneOf ['\n'])∗)

/-- A word. -/
def word : Language Char :=
  oneOf letters * (oneOf (letters ++ digits))∗

theorem reaches_blank (cs : List Char) : Reaches blank cs (run isSeparator cs) := by
  rw [blank, oneOf_eq inRanges_blanks]
  exact Reaches.repeated isSeparator cs

theorem reaches_lineComment (cs : List Char) :
    Reaches lineComment ('/' :: '/' :: cs) (run (· != '\n') cs + 2) := by
  have hline : noneOf ['\n'] = one (fun c => (c != '\n') = true) :=
    congrArg one (funext fun c => propext (by simp))
  rw [lineComment, hline]
  exact .cons rfl (.cons rfl (.run_star _ cs) (.inr (Language.nil_mem_kstar _)))
    (.inl (Nat.succ_ne_zero _))

theorem reaches_word {c : Char} (h : startsWord c) (cs : List Char) :
    Reaches word (c :: cs) (run continuesWord cs + 1) := by
  rw [word, oneOf_eq inRanges_wordParts]
  exact .cons ((inRanges_letters c).mpr h) (.run_star _ cs) (.inr (Language.nil_mem_kstar _))

/-- An exponent. -/
def exponent : Language Char :=
  oneOf [('e', 'e'), ('E', 'E')] *
    (optional (oneOf [('+', '+'), ('-', '-')]) * repeated (oneOf digits))

/-- Digits with gaps between them, and an exponent that may follow them. -/
def fraction : Language Char :=
  (oneOf (digits ++ [('_', '_')]))∗ * optional exponent

/-- A decimal number that starts with a digit. -/
def decimal : Language Char :=
  oneOf digits * ((oneOf (digits ++ [('_', '_')]))∗ *
    (optional (only '.' * (oneOf (digits ++ [('_', '_')]))∗) * optional exponent))

/-- A decimal number that starts with its point. -/
def pointedDecimal : Language Char :=
  only '.' * (oneOf digits * fraction)

/-- A number with the letter of its radix, in either case, and the digits of the radix. -/
def radix (lower upper : Char) (ranges : List (Char × Char)) : Language Char :=
  only '0' * (oneOf [(lower, lower), (upper, upper)] * repeated (oneOf (ranges ++ [('_', '_')])))

/-- A number in one of the notations that start with a digit. -/
def number : Language Char :=
  decimal + (radix 'x' 'X' [('0', '9'), ('a', 'f'), ('A', 'F')] +
    (radix 'b' 'B' [('0', '0'), ('1', '1')] + radix 'o' 'O' [('0', '7')]))

theorem mem_number {w : List Char} :
    w ∈ number ↔ w ∈ decimal ∨ w ∈ radix 'x' 'X' [('0', '9'), ('a', 'f'), ('A', 'F')] ∨
      w ∈ radix 'b' 'B' [('0', '0'), ('1', '1')] ∨ w ∈ radix 'o' 'O' [('0', '7')] := by
  simp only [number, Language.mem_add]

theorem inRanges_pair {c lower upper : Char} :
    InRanges [(lower, lower), (upper, upper)] c ↔ c = lower ∨ c = upper := by
  simp [InRanges, le_and_le_iff]

theorem optional_mul (L M : Language Char) : optional L * M = M + L * M := by
  rw [optional, add_mul, one_mul]

theorem nil_not_mem_one_mul {holds : Char → Prop} {L : Language Char} : [] ∉ one holds * L := by
  intro h
  obtain ⟨_, _, _, _, heq⟩ := mem_one_mul.mp h
  cases heq

theorem reaches_digits (cs : List Char) :
    Reaches (repeated (oneOf digits)) cs (run Char.isDigit cs) := by
  rw [oneOf_eq inRanges_digits]
  exact Reaches.repeated Char.isDigit cs

/-- Digits behind a sign. Without a digit there is nothing. -/
theorem reaches_signed (cs : List Char) :
    Reaches (optional (oneOf [('+', '+'), ('-', '-')]) * repeated (oneOf digits)) cs
      (if run Char.isDigit (cs.drop (signLength cs)) = 0 then 0
        else signLength cs + run Char.isDigit (cs.drop (signLength cs))) := by
  rw [optional_mul]
  match cs with
  | [] => exact .nil _
  | c :: cs =>
    have hhere := reaches_digits (c :: cs)
    by_cases hsign : c = '+' ∨ c = '-'
    · have hlength : signLength (c :: cs) = 1 := by
        rcases hsign with rfl | rfl <;> rfl
      have hnone : run Char.isDigit (c :: cs) = 0 := by
        rcases hsign with rfl | rfl <;> rfl
      rw [hnone] at hhere
      rw [hlength, List.drop_one, List.tail_cons]
      have hbehind := reaches_digits cs
      split
      · next hzero =>
        rw [hzero] at hbehind
        exact hhere.add (.cons_zero hbehind nil_not_mem_one_mul)
      · next hdigits =>
        have hboth := hhere.add (.cons (inRanges_pair.mpr hsign) hbehind (.inl hdigits))
        rwa [Nat.zero_max, Nat.add_comm] at hboth
    · have hlength : signLength (c :: cs) = 0 := by
        rw [not_or] at hsign
        simp [signLength, hsign]
      have hnone : Reaches (oneOf [('+', '+'), ('-', '-')] * repeated (oneOf digits)) (c :: cs) 0 :=
        .cons_of_not (mt inRanges_pair.mp hsign)
      have hboth := hhere.add hnone
      rw [Nat.max_zero] at hboth
      rw [hlength, List.drop_zero, Nat.zero_add]
      split
      · next hzero => rwa [hzero] at hboth
      · exact hboth

theorem reaches_exponent (cs : List Char) : Reaches exponent cs (exponentLength cs) := by
  match cs with
  | [] => exact .nil _
  | c :: cs =>
    rw [exponentLength_cons]
    have hsigned := reaches_signed cs
    by_cases hc : c = 'e' ∨ c = 'E'
    · have hletter : (c == 'e' || c == 'E') = true := by simpa using hc
      have hin := inRanges_pair.mpr hc
      rw [if_pos hletter]
      split
      · next hzero =>
        rw [if_pos hzero] at hsigned
        refine .cons_zero hsigned ?_
        rw [optional_mul, Language.mem_add, not_or]
        exact ⟨nil_not_mem_one_mul, nil_not_mem_one_mul⟩
      · next digits hdigits =>
        rw [if_neg hdigits] at hsigned
        have hletters := Reaches.cons hin hsigned
          (.inl fun hsum => hdigits (Nat.eq_zero_of_add_eq_zero_left hsum))
        rwa [Nat.add_comm, ← Nat.add_assoc] at hletters
    · have hletter : ¬ (c == 'e' || c == 'E') = true := by simpa using hc
      rw [if_neg hletter]
      exact .cons_of_not (mt inRanges_pair.mp hc)

/-- Digits go on past no letter of an exponent. -/
theorem not_isDigitOrGap_of_exponent {d : Char} {rest : List Char}
    (h : d :: rest ∈ optional exponent) : ¬ isDigitOrGap d := by
  rcases (Language.mem_add ..).mp h with h | h
  · exact absurd ((Language.mem_one _).mp h) (by simp)
  · obtain ⟨e, _, he, -, heq⟩ := mem_one_mul.mp h
    obtain ⟨rfl, -⟩ := List.cons.inj heq
    rcases inRanges_pair.mp he with rfl | rfl <;> decide

theorem nil_mem_optional (L : Language Char) : [] ∈ optional L :=
  (Language.mem_add ..).mpr (.inl Language.nil_mem_one)

theorem nil_mem_mul {L M : Language Char} (hL : [] ∈ L) (hM : [] ∈ M) : [] ∈ L * M :=
  Language.append_mem_mul hL hM

theorem reaches_fraction (cs : List Char) : Reaches fraction cs (pointedLength cs) := by
  rw [fraction, oneOf_eq inRanges_digitsOrGap]
  exact .run_mul (fun _ _ h => not_isDigitOrGap_of_exponent h) (nil_mem_optional _)
    (reaches_exponent _).optional

theorem reaches_pointedDecimal {c : Char} (h : c.isDigit) (cs : List Char) :
    Reaches pointedDecimal ('.' :: c :: cs) (pointedLength (c :: cs) + 1) := by
  have hrun : run isDigitOrGap (c :: cs) = run isDigitOrGap cs + 1 := by
    rw [run, List.takeWhile_cons_of_pos (by simp [isDigitOrGap, h])]
    rfl
  have hlength : pointedLength (c :: cs) = pointedLength cs + 1 := by
    unfold pointedLength
    dsimp only
    rw [hrun, List.drop_succ_cons]
    omega
  rw [hlength]
  exact .cons rfl (.cons ((inRanges_digits c).mpr h) (reaches_fraction cs)
    (.inr (nil_mem_mul (Language.nil_mem_kstar _) (nil_mem_optional _))))
    (.inl (Nat.succ_ne_zero _))

/-- What may follow the whole part of a number: a point and digits, and an exponent. -/
theorem reaches_behindWhole (cs : List Char) :
    Reaches (optional (only '.' * (oneOf (digits ++ [('_', '_')]))∗) * optional exponent) cs
      (fractionLength cs + exponentLength (cs.drop (fractionLength cs))) := by
  rw [optional_mul, mul_assoc]
  have hhere := (reaches_exponent cs).optional
  match cs with
  | [] => exact .nil _
  | c :: cs =>
    by_cases hpoint : c = '.'
    · subst hpoint
      have hpointed : Reaches (only '.' * ((oneOf (digits ++ [('_', '_')]))∗ * optional exponent))
          ('.' :: cs) (pointedLength cs + 1) :=
        .cons rfl (reaches_fraction cs)
          (.inr (nil_mem_mul (Language.nil_mem_kstar _) (nil_mem_optional _)))
      have hboth := hhere.add hpointed
      have hnone : exponentLength ('.' :: cs) = 0 := rfl
      have hdrop : ('.' :: cs).drop (1 + run isDigitOrGap cs) = cs.drop (run isDigitOrGap cs) := by
        rw [Nat.add_comm, List.drop_succ_cons]
      rw [hnone, Nat.zero_max, Nat.add_comm, pointedLength, ← Nat.add_assoc] at hboth
      rwa [fractionLength, hdrop]
    · have hnone : Reaches (only '.' * ((oneOf (digits ++ [('_', '_')]))∗ * optional exponent))
          (c :: cs) 0 := .cons_of_not hpoint
      have hboth := hhere.add hnone
      have hfraction : fractionLength (c :: cs) = 0 := fractionLength_of_ne (by simpa using hpoint)
      rw [hfraction, List.drop_zero, Nat.zero_add]
      rwa [Nat.max_zero] at hboth

theorem not_isDigitOrGap_behindWhole {d : Char} {rest : List Char}
    (h : d :: rest ∈ optional (only '.' * (oneOf (digits ++ [('_', '_')]))∗) * optional exponent) :
    ¬ isDigitOrGap d := by
  rw [optional_mul, mul_assoc] at h
  rcases (Language.mem_add ..).mp h with h | h
  · exact not_isDigitOrGap_of_exponent h
  · obtain ⟨e, _, rfl, -, heq⟩ := mem_one_mul.mp h
    obtain ⟨rfl, -⟩ := List.cons.inj heq
    decide

theorem reaches_decimal {c : Char} (h : c.isDigit) (cs : List Char) :
    Reaches decimal (c :: cs) (decimalLength (c :: cs)) := by
  have hrun : run isDigitOrGap (c :: cs) = run isDigitOrGap cs + 1 := by
    rw [run, List.takeWhile_cons_of_pos (by simp [isDigitOrGap, h])]
    rfl
  have hlength : decimalLength (c :: cs) = run isDigitOrGap cs +
      (fractionLength (cs.drop (run isDigitOrGap cs)) +
        exponentLength ((cs.drop (run isDigitOrGap cs)).drop
          (fractionLength (cs.drop (run isDigitOrGap cs))))) + 1 := by
    have hdrop : ∀ k, (c :: cs).drop (run isDigitOrGap cs + 1 + k) =
        (cs.drop (run isDigitOrGap cs)).drop k := fun k => by
      rw [Nat.add_right_comm, List.drop_succ_cons, List.drop_drop]
    unfold decimalLength
    dsimp only
    rw [hrun, List.drop_succ_cons, hdrop]
    omega
  rw [hlength, decimal]
  refine .cons ((inRanges_digits c).mpr h) ?_
    (.inr (nil_mem_mul (Language.nil_mem_kstar _) (nil_mem_mul (nil_mem_optional _)
      (nil_mem_optional _))))
  have hwhole := reaches_behindWhole (cs.drop (run isDigitOrGap cs))
  have hreach := Reaches.run_mul (fun _ _ h => not_isDigitOrGap_behindWhole h)
    (nil_mem_mul (nil_mem_optional _) (nil_mem_optional _)) hwhole
  rwa [← oneOf_eq inRanges_digitsOrGap] at hreach

/-- A number with a radix, if its letter is the one of the text. -/
theorem reaches_radix (lower upper : Char) {ranges : List (Char × Char)} {inClass : Char → Bool}
    (hclass : ∀ letter, letter = lower ∨ letter = upper → radixDigit? letter = some inClass)
    (hranges : ∀ c, InRanges (ranges ++ [('_', '_')]) c ↔ inClass c) (letter : Char)
    (cs : List Char) :
    Reaches (radix lower upper ranges) ('0' :: letter :: cs)
      (if letter = lower ∨ letter = upper then radixLength ('0' :: letter :: cs) else 0) := by
  by_cases hletter : letter = lower ∨ letter = upper
  case neg =>
    rw [if_neg hletter]
    exact .cons_zero (.cons_of_not (mt inRanges_pair.mp hletter)) nil_not_mem_one_mul
  have hdigits := Reaches.repeated inClass cs
  have hin := inRanges_pair.mpr hletter
  rw [if_pos hletter, radixLength, hclass letter hletter, radix, oneOf_eq hranges]
  dsimp only
  split
  · next hzero =>
    rw [hzero] at hdigits
    exact .cons_zero (.cons_zero hdigits nil_not_mem_one_mul) nil_not_mem_one_mul
  · next hne =>
    rw [Nat.add_comm]
    exact .cons rfl (.cons hin hdigits (.inl hne)) (.inl (Nat.succ_ne_zero _))

section

variable (c : Char)

theorem inRanges_hexDigits :
    InRanges ([('0', '9'), ('a', 'f'), ('A', 'F')] ++ [('_', '_')]) c ↔
      (isHexDigit c || c == '_') = true := by
  have hdigit := inRanges_digits c
  simp only [InRanges, digits, List.mem_cons, List.not_mem_nil, or_false, exists_eq_left] at hdigit
  simp [InRanges, isHexDigit, ← hdigit, le_and_le_iff, or_assoc]

theorem inRanges_binaryDigits :
    InRanges ([('0', '0'), ('1', '1')] ++ [('_', '_')]) c ↔
      (c == '0' || c == '1' || c == '_') = true := by
  simp [InRanges, le_and_le_iff, or_assoc]

theorem inRanges_octalDigits :
    InRanges ([('0', '7')] ++ [('_', '_')]) c ↔
      (decide ('0' ≤ c) && decide (c ≤ '7') || c == '_') = true := by
  simp [InRanges, le_and_le_iff]

end

theorem reaches_number {c : Char} (h : c.isDigit) (cs : List Char) :
    Reaches number (c :: cs) (numberLength (c :: cs)) := by
  refine (reaches_decimal h cs).add ?_
  by_cases hzero : c = '0'
  case neg =>
    have hnone : ∀ lower upper ranges, Reaches (radix lower upper ranges) (c :: cs) 0 :=
      fun _ _ _ => .cons_of_not hzero
    rw [radixLength_of_ne hzero]
    exact (hnone _ _ _).add ((hnone _ _ _).add (hnone _ _ _))
  subst hzero
  match cs with
  | [] =>
    have hnone : ∀ lower upper ranges, Reaches (radix lower upper ranges) ['0'] 0 :=
      fun _ _ _ => .cons_zero (.nil _) nil_not_mem_one_mul
    exact (hnone _ _ _).add ((hnone _ _ _).add (hnone _ _ _))
  | letter :: cs =>
    have hhex :=
      reaches_radix 'x' 'X' (by rintro _ (rfl | rfl) <;> rfl) inRanges_hexDigits letter cs
    have hbinary :=
      reaches_radix 'b' 'B' (by rintro _ (rfl | rfl) <;> rfl) inRanges_binaryDigits letter cs
    have hoctal :=
      reaches_radix 'o' 'O' (by rintro _ (rfl | rfl) <;> rfl) inRanges_octalDigits letter cs
    have hreach := hhex.add (hbinary.add hoctal)
    have hother : ¬ (letter = 'x' ∨ letter = 'X') → ¬ (letter = 'b' ∨ letter = 'B') →
        ¬ (letter = 'o' ∨ letter = 'O') → radixLength ('0' :: letter :: cs) = 0 := by
      intro hx hb ho
      have hclass : radixDigit? letter = none := by
        unfold radixDigit?
        split <;> simp_all
      rw [radixLength, hclass]
    generalize radixLength ('0' :: letter :: cs) = length at hreach hother ⊢
    have hlength : max (if letter = 'x' ∨ letter = 'X' then length else 0)
        (max (if letter = 'b' ∨ letter = 'B' then length else 0)
          (if letter = 'o' ∨ letter = 'O' then length else 0)) = length := by
      split_ifs with hx hb ho ho hb ho ho
      all_goals first | omega | exact (hother hx hb ho).symm
    rwa [hlength] at hreach

/-- What stands behind the opening quote of a text: escapes and other characters than some,
and the closing quote. -/
def quotedRest (quote : Char) (excluded : List Char) : Language Char :=
  (noneOf excluded + only '\\' * noneOf ['\n'])∗ * only quote

/-- A text between quotes. -/
def quotedText (quote : Char) (excluded : List Char) : Language Char :=
  only quote * quotedRest quote excluded

/-- What a text on one line may not hold but in escapes. -/
theorem not_mem_excluded (quote c : Char) :
    c ∉ [quote, '\\', '\n'] ↔ c ≠ quote ∧ c ≠ '\\' ∧ ¬ (c = '\n' ∧ false = false) := by
  simp

/-- What a text on several lines may not hold but in escapes. -/
theorem not_mem_excluded_multiline (quote c : Char) :
    c ∉ [quote, '\\'] ↔ c ≠ quote ∧ c ≠ '\\' ∧ ¬ (c = '\n' ∧ true = false) := by
  simp

theorem quotedRest_eq (quote : Char) (excluded : List Char) :
    quotedRest quote excluded = only quote + (noneOf excluded * quotedRest quote excluded +
      only '\\' * (noneOf ['\n'] * quotedRest quote excluded)) := by
  have hstar := Language.one_add_self_mul_kstar_eq_kstar
    (noneOf excluded + only '\\' * noneOf ['\n'])
  calc quotedRest quote excluded
      = (1 + (noneOf excluded + only '\\' * noneOf ['\n']) *
          (noneOf excluded + only '\\' * noneOf ['\n'])∗) * only quote := by
        rw [hstar, quotedRest]
    _ = _ := by rw [add_mul, one_mul, mul_assoc, add_mul, mul_assoc, quotedRest]

theorem nil_not_mem_quotedRest (quote : Char) (excluded : List Char) :
    [] ∉ quotedRest quote excluded := by
  intro h
  obtain ⟨_, -, _, ⟨c, -, rfl⟩, heq⟩ := Language.mem_mul.mp h
  exact absurd heq (by simp)

/-- The length of a quoted text behind its opening quote, or zero if it is not closed. -/
def closedLength (quote : Char) (multiline : Bool) (cs : List Char) : Nat :=
  if (quotedLength quote multiline cs).2 then (quotedLength quote multiline cs).1 else 0

/-- One more part of a quoted text leaves it open or makes it longer. -/
theorem Reaches.cons_quotedRest {holds : Char → Prop} {quote c : Char} {excluded cs : List Char}
    {multiline : Bool} (hc : holds c)
    (h : Reaches (quotedRest quote excluded) cs (closedLength quote multiline cs)) :
    Reaches (one holds * quotedRest quote excluded) (c :: cs)
      (if (quotedLength quote multiline cs).2 then (quotedLength quote multiline cs).1 + 1
        else 0) := by
  unfold closedLength at h
  split at h
  · next hclosed =>
    obtain ⟨inner, hinner⟩ := quotedLength_closed hclosed
    have hne : (quotedLength quote multiline cs).1 ≠ 0 := fun hzero => by
      rw [hzero] at hinner
      exact absurd hinner (by simp)
    rw [if_pos hclosed]
    exact .cons hc h (.inl hne)
  · next hopen =>
    rw [if_neg hopen]
    exact .cons_zero h (nil_not_mem_quotedRest quote excluded)

section

variable {quote : Char} {multiline : Bool} {excluded : List Char} (hquote : quote ≠ '\\')
  (hexcluded : ∀ c, c ∉ excluded ↔ c ≠ quote ∧ c ≠ '\\' ∧ ¬ (c = '\n' ∧ multiline = false))

include hquote hexcluded

/-- What stands behind the opening quote is read up to and with the first closing quote. -/
theorem reaches_quotedRest (cs : List Char) :
    Reaches (quotedRest quote excluded) cs (closedLength quote multiline cs) := by
  -- The three ways for the text to go on. At most one of them is open to a character.
  have hparts : ∀ {cs : List Char} {i j k : Nat}, Reaches (only quote) cs i →
      Reaches (noneOf excluded * quotedRest quote excluded) cs j →
      Reaches (only '\\' * (noneOf ['\n'] * quotedRest quote excluded)) cs k →
      Reaches (quotedRest quote excluded) cs (max i (max j k)) := by
    intro cs i j k hend hplain hescape
    rw [quotedRest_eq]
    exact hend.add (hplain.add hescape)
  have hplain_of_not : ∀ {c : Char} {cs : List Char}, ¬ (c ∉ excluded) →
      Reaches (noneOf excluded * quotedRest quote excluded) (c :: cs) 0 := fun h => .cons_of_not h
  have hslash : ¬ ('\\' ∉ excluded) := fun h => ((hexcluded '\\').mp h).2.1 rfl
  have hself : ¬ (quote ∉ excluded) := fun h => ((hexcluded quote).mp h).1 rfl
  have hescape_of_not : ∀ {c : Char} {cs : List Char}, ¬ c = '\\' →
      Reaches (only '\\' * (noneOf ['\n'] * quotedRest quote excluded)) (c :: cs) 0 :=
    fun h => .cons_of_not h
  induction cs using quotedLength.induct quote multiline with
  | case1 => exact .nil _
  | case2 cs =>
    have hend : Reaches (only quote) (quote :: cs) 1 := .one rfl
    rw [closedLength, quotedLength_quote]
    exact hparts hend (hplain_of_not hself) (hescape_of_not hquote)
  | case3 =>
    have hlength : closedLength quote multiline ['\\'] = 0 := by
      simp [closedLength, quotedLength, Ne.symm hquote]
    rw [hlength]
    exact hparts (.one_of_not (Ne.symm hquote)) (hplain_of_not hslash)
      (.cons_zero (.nil _) nil_not_mem_one_mul)
  | case4 cs =>
    have hlength : closedLength quote multiline ('\\' :: '\n' :: cs) = 0 := by
      simp [closedLength, quotedLength, Ne.symm hquote]
    have hfeed : Reaches (noneOf ['\n'] * quotedRest quote excluded) ('\n' :: cs) 0 :=
      .cons_of_not (by simp)
    rw [hlength]
    exact hparts (.one_of_not (Ne.symm hquote)) (hplain_of_not hslash)
      (.cons_zero hfeed nil_not_mem_one_mul)
  | case5 c cs hc length closed hrun hnot ih =>
    have hescaped : Reaches (noneOf ['\n'] * quotedRest quote excluded) (c :: cs) _ :=
      Reaches.cons_quotedRest (by simpa using hc) ih
    rw [closedLength, quotedLength_escape (Ne.symm hnot) hc]
    dsimp only
    split at hescaped
    · next hclosed =>
      rw [if_pos hclosed]
      have hreach := hparts (.one_of_not hnot) (hplain_of_not hslash)
        (.cons rfl hescaped (.inl (Nat.succ_ne_zero _)))
      rwa [Nat.zero_max, Nat.zero_max] at hreach
    · next hopen =>
      rw [if_neg hopen]
      exact hparts (.one_of_not hnot) (hplain_of_not hslash)
        (.cons_zero hescaped nil_not_mem_one_mul)
  | case6 c cs hc hescape hline =>
    have hline' : c = '\n' ∧ multiline = false := by simpa using hline
    rw [closedLength, quotedLength_line hc hescape hline']
    exact hparts (.one_of_not hc) (hplain_of_not fun h => ((hexcluded c).mp h).2.2 hline')
      (hescape_of_not hescape)
  | case7 c cs hc hescape hline length closed hrun ih =>
    have hline' : ¬ (c = '\n' ∧ multiline = false) := by simpa using hline
    have hplain : Reaches (noneOf excluded * quotedRest quote excluded) (c :: cs) _ :=
      Reaches.cons_quotedRest ((hexcluded c).mpr ⟨hc, hescape, hline'⟩) ih
    have hreach := hparts (.one_of_not hc) hplain (hescape_of_not hescape)
    rw [Nat.zero_max, Nat.max_zero] at hreach
    rwa [closedLength, quotedLength_plain hc hescape hline']

theorem reaches_quotedText (cs : List Char) :
    Reaches (quotedText quote excluded) (quote :: cs)
      (if (quotedLength quote multiline cs).2 then (quotedLength quote multiline cs).1 + 1
        else 0) :=
  Reaches.cons_quotedRest rfl (reaches_quotedRest hquote hexcluded cs)

end

/-- What a pattern is a pattern of. A comment in a block has only its opening mark as a
pattern. -/
inductive Rule where
  | separator
  | commentOpening
  | token (kind : TokenKind)

/-- The marks. -/
def marks : List (TokenKind × List Char) :=
  [(.lBrace, ['{']), (.rBrace, ['}']), (.lParen, ['(']), (.rParen, [')']), (.lBracket, ['[']),
    (.rBracket, [']']), (.lt, ['<']), (.gt, ['>']), (.semicolon, [';']), (.colon, [':']),
    (.comma, [',']), (.dot, ['.']), (.ellipsis, ['.', '.', '.']), (.question, ['?']),
    (.pipe, ['|']), (.amp, ['&']), (.eq, ['=']), (.arrow, ['=', '>']), (.minus, ['-']),
    (.plus, ['+']), (.star, ['*']), (.slash, ['/']), (.bang, ['!']), (.atSign, ['@']),
    (.hash, ['#']), (.percent, ['%']), (.caret, ['^']), (.tilde, ['~'])]

/-- All patterns, each with its rule. -/
def patterns : List (Rule × Language Char) :=
  [(.separator, blank), (.separator, lineComment), (.commentOpening, {['/', '*']}),
    (.token .word, word),
    (.token .string, quotedText '"' ['"', '\\', '\n']),
    (.token .string, quotedText '\x27' ['\x27', '\\', '\n']),
    (.token .template, quotedText '\x60' ['\x60', '\\']),
    (.token .number, decimal), (.token .number, pointedDecimal),
    (.token .number, radix 'x' 'X' [('0', '9'), ('a', 'f'), ('A', 'F')]),
    (.token .number, radix 'b' 'B' [('0', '0'), ('1', '1')]),
    (.token .number, radix 'o' 'O' [('0', '7')])] ++
    marks.map fun mark => (.token mark.1, {mark.2})

/-- A pattern of a rule matches a text. -/
def Matches (rule : Rule) (w : List Char) : Prop :=
  ∃ L, (rule, L) ∈ patterns ∧ w ∈ L

theorem matches_mark {kind : TokenKind} {text : List Char} (h : (kind, text) ∈ marks) :
    Matches (.token kind) text :=
  ⟨{text}, List.mem_append_right _ (List.mem_map.mpr ⟨_, h, rfl⟩), rfl⟩

theorem matches_number {w : List Char} (h : w ∈ number) : Matches (.token .number) w := by
  rcases mem_number.mp h with h | h | h | h
  · exact ⟨decimal, by simp [patterns], h⟩
  · exact ⟨radix 'x' 'X' _, by simp [patterns], h⟩
  · exact ⟨radix 'b' 'B' _, by simp [patterns], h⟩
  · exact ⟨radix 'o' 'O' _, by simp [patterns], h⟩

/-- A mark is one character, but for the ellipsis and the arrow. -/
theorem marks_cases : ∀ mark ∈ marks,
    mark.2.length = 1 ∧ mark.2.head?.bind TokenKind.ofMark? = some mark.1 ∨
      mark = (.ellipsis, ['.', '.', '.']) ∨ mark = (.arrow, ['=', '>']) := by
  decide

theorem mem_marks_of_ofMark? {c : Char} {kind : TokenKind} (h : TokenKind.ofMark? c = some kind) :
    (kind, [c]) ∈ marks := by
  unfold TokenKind.ofMark? at h
  split at h
  case h_27 => cases h
  all_goals
    cases h
    decide

end DeclSchema.Lexicon
