import DeclSchema.Json.Reader
import DeclSchema.Json.Writer
import DeclSchema.Proofs.Number.Shortest
import DeclSchema.Proofs.Number.Whole

/-!
# Numbers in JSON texts

Each text of a numeral is made of digits before a point, digits behind it and a power of
ten (`Decimal`), and is read as the numeral that these write. When whole numbers are
written with all their places this is the same number in other units, as there is a zero
behind the point (`Numeral.asRead`).
-/

namespace DeclSchema

section

variable {digits rest : List Char} (hdigits : ∀ c ∈ digits, c.isDigit)
  (hrest : ∀ c ∈ rest.head?, c.isDigit = false)

include hdigits hrest

theorem takeWhile_digits : (digits ++ rest).takeWhile Char.isDigit = digits := by
  rw [List.takeWhile_append_of_pos hdigits]
  cases rest with
  | nil => exact List.append_nil _
  | cons c cs => simp [hrest c rfl]

theorem dropWhile_digits : (digits ++ rest).dropWhile Char.isDigit = rest := by
  rw [List.dropWhile_append_of_pos hdigits]
  cases rest with
  | nil => rfl
  | cons c cs => simp [hrest c rfl]

end

/-- The notation of a number above zero does not start with a zero. -/
theorem head_toDigits_ne_zero {n : Nat} (h : n ≠ 0) : (Nat.toDigits 10 n).head? ≠ some '0' := by
  induction n using Nat.strong_induction_on with
  | _ n ih =>
    rcases Nat.lt_or_ge n 10 with hn | hn
    · rw [Nat.toDigits_of_lt_base hn]
      have hdigit : ∀ d < 10, d ≠ 0 → [d.digitChar].head? ≠ some '0' := by decide
      exact hdigit n hn h
    · rw [Nat.toDigits_of_base_le (by decide) hn,
        List.head?_append_of_ne_nil _ Nat.toDigits_ne_nil]
      exact ih (n / 10) (by omega) (by omega)

namespace Json

/-- What may stand behind a value: nothing, white space, or the end of an item or a
field. -/
def Ended (cs : List Char) : Prop :=
  ∀ c ∈ cs.head?, isSpace c ∨ c = ',' ∨ c = ']' ∨ c = '}'

theorem not_isDigit_of_ended {cs : List Char} (h : Ended cs) : ∀ c ∈ cs.head?, c.isDigit = false := by
  intro c hc
  have := h c hc
  rw [isSpace] at this
  simp only [Bool.or_eq_true, beq_iff_eq] at this
  rcases this with ((((rfl | rfl) | rfl) | rfl) | rfl | rfl | rfl) <;> rfl

theorem ne_of_ended {cs : List Char} (h : Ended cs) :
    ∀ c ∈ cs.head?, c ≠ '.' ∧ c ≠ 'e' ∧ c ≠ 'E' := by
  intro c hc
  have := h c hc
  rw [isSpace] at this
  simp only [Bool.or_eq_true, beq_iff_eq] at this
  rcases this with ((((rfl | rfl) | rfl) | rfl) | rfl | rfl | rfl) <;> decide

/-- A number without its sign, in parts: the digits before the point and behind it, and
the power of ten. -/
structure Decimal where
  whole : List Char
  fraction : List Char
  power : Option Int
  isDigit_whole : ∀ c ∈ whole, c.isDigit
  isDigit_fraction : ∀ c ∈ fraction, c.isDigit
  /-- Only a single zero may stand in front. -/
  whole_eq_or : whole = ['0'] ∨ ∃ c ∈ whole.head?, c ≠ '0'

namespace Decimal

/-- The digits behind the point, with the point. -/
def fractionText : List Char → List Char
  | [] => []
  | digits => '.' :: digits

theorem fractionText_of_ne_nil {digits : List Char} (h : digits ≠ []) :
    fractionText digits = '.' :: digits := by
  obtain ⟨c, cs, rfl⟩ := List.exists_cons_of_ne_nil h
  rfl

/-- The power of ten, with its sign. -/
def powerText : Option Int → List Char
  | none => []
  | some power => 'e' :: (if power < 0 then '-' else '+') :: Nat.toDigits 10 power.natAbs

def text (d : Decimal) : List Char :=
  d.whole ++ (fractionText d.fraction ++ powerText d.power)

/-- A number starts with a digit. -/
theorem exists_head_text (d : Decimal) : ∃ c cs, d.text = c :: cs ∧ c.isDigit := by
  have hwhole : d.whole ≠ [] := by
    rcases d.whole_eq_or with hzero | ⟨c, hc, -⟩
    · simp [hzero]
    · exact List.ne_nil_of_mem (List.mem_of_mem_head? hc)
  obtain ⟨c, cs, hcs⟩ := List.exists_cons_of_ne_nil hwhole
  refine ⟨c, cs ++ (fractionText d.fraction ++ powerText d.power), ?_,
    d.isDigit_whole c (hcs ▸ List.mem_cons_self)⟩
  rw [text, hcs, List.cons_append]

/-- The numeral that is written. -/
def numeral (d : Decimal) : Numeral :=
  ⟨false, Nat.ofDigitChars 10 (d.whole ++ d.fraction) 0, d.power.getD 0 - d.fraction.length⟩

theorem wholeLength?_append (d : Decimal) {rest : List Char}
    (h : ∀ c ∈ rest.head?, c.isDigit = false) :
    wholeLength? (d.whole ++ rest) = some d.whole.length := by
  have hdigits := d.isDigit_whole
  rcases d.whole_eq_or with hzero | ⟨c, hc, hne⟩
  · have hnone : rest.head?.any Char.isDigit = false := by
      cases hhead : rest.head? with
      | none => rfl
      | some c => exact h c hhead
    rw [hzero]
    simp [wholeLength?, hnone]
  · have hcs := List.eq_cons_of_mem_head? hc
    generalize d.whole.tail = cs at hcs
    rw [hcs] at hdigits ⊢
    have hcs : ∀ c ∈ cs, c.isDigit := fun d hd => hdigits d (List.mem_cons_of_mem _ hd)
    rw [List.cons_append, wholeLength?, if_neg hne, if_pos (hdigits c List.mem_cons_self),
      takeWhile_digits hcs h, List.length_cons, Nat.add_comm]

theorem fractionLength?_append {digits rest : List Char} (hdigits : ∀ c ∈ digits, c.isDigit)
    (hdigit : ∀ c ∈ rest.head?, c.isDigit = false) (hpoint : ∀ c ∈ rest.head?, c ≠ '.') :
    fractionLength? (fractionText digits ++ rest) = some (fractionText digits).length := by
  cases digits with
  | nil =>
    rw [fractionText, List.nil_append]
    unfold fractionLength?
    split
    · exact absurd rfl (hpoint '.' rfl)
    · rfl
  | cons c cs =>
    rw [fractionText, List.cons_append, fractionLength?, takeWhile_digits hdigits hdigit]
    · simp [Nat.add_comm]
    · exact fun h => nomatch h

theorem exponentLength?_append {rest : List Char} (hended : Ended rest) (power : Option Int) :
    exponentLength? (powerText power ++ rest) = some (powerText power).length := by
  cases power with
  | none =>
    cases rest with
    | nil => rfl
    | cons c cs =>
      obtain ⟨-, he, hE⟩ := ne_of_ended hended c rfl
      simp [powerText, exponentLength?, he, hE]
  | some power =>
    have hdigits : ∀ c ∈ Nat.toDigits 10 power.natAbs, c.isDigit :=
      fun _ hc => isDigit_of_mem_toDigits hc
    have hdigits := takeWhile_digits hdigits (not_isDigit_of_ended hended)
    have hpos : (Nat.toDigits 10 power.natAbs).length ≠ 0 := Nat.length_toDigits_pos.ne'
    have hsign : ∀ sign, sign = '-' ∨ sign = '+' →
        exponentLength? ('e' :: sign :: Nat.toDigits 10 power.natAbs ++ rest) =
          some ((Nat.toDigits 10 power.natAbs).length + 2) := by
      rintro sign (rfl | rfl) <;>
      · simp only [List.cons_append, exponentLength?]
        simp [hdigits]
        grind
    exact hsign _ (by split <;> simp)

theorem head_powerText_append (power : Option Int) {rest : List Char} (P : Char → Prop)
    (hletter : P 'e') (hrest : ∀ c ∈ rest.head?, P c) :
    ∀ c ∈ (powerText power ++ rest).head?, P c := by
  cases power with
  | none => exact hrest
  | some power =>
    intro d hd
    cases hd
    exact hletter

theorem head_fractionText_append (digits : List Char) {rest : List Char} (P : Char → Prop) (hpoint : P '.')
    (hrest : ∀ c ∈ rest.head?, P c) : ∀ c ∈ (fractionText digits ++ rest).head?, P c := by
  cases digits with
  | nil => exact hrest
  | cons c cs =>
    intro d hd
    cases hd
    exact hpoint

theorem exponentOfText?_powerText (power : Option Int) :
    Numeral.exponentOfText? (powerText power) = some (power.getD 0) := by
  cases power with
  | none => rfl
  | some power =>
    rw [powerText]
    split
    · rw [Numeral.exponentOfText?, if_pos (by decide), Digits.ofText?_toDigits]
      exact congrArg some (by omega : -(power.natAbs : Int) = power)
    · rw [Numeral.exponentOfText?, if_pos (by decide), Digits.ofText?_toDigits]
      exact congrArg some (by omega : (power.natAbs : Int) = power)

theorem ofText?_text (d : Decimal) : Numeral.ofText? d.text = some d.numeral := by
  have hpower : ∀ c ∈ (powerText d.power).head?, c.isDigit = false := by
    have hnone : ∀ c ∈ ([] : List Char).head?, c.isDigit = false := fun _ hc => nomatch hc
    have := head_powerText_append d.power (·.isDigit = false) rfl hnone
    rwa [List.append_nil] at this
  have hfraction := head_fractionText_append d.fraction (·.isDigit = false) rfl hpower
  unfold Numeral.ofText?
  rw [text, takeWhile_digits d.isDigit_whole hfraction, dropWhile_digits d.isDigit_whole hfraction]
  have hvalue : Digits.ofText? 10 (d.whole ++ d.fraction) =
      some (Nat.ofDigitChars 10 (d.whole ++ d.fraction) 0) := by
    have hwhole : d.whole ≠ [] := by
      rcases d.whole_eq_or with hzero | ⟨c, hc, -⟩
      · simp [hzero]
      · exact List.ne_nil_of_mem (List.mem_of_mem_head? hc)
    rw [Digits.ofText?, if_neg (by simp [hwhole]), Digits.read?_of_isDigit]
    intro c hc
    exact (List.mem_append.mp hc).elim (d.isDigit_whole c) (d.isDigit_fraction c)
  have hexponent := exponentOfText?_powerText d.power
  rw [numeral]
  dsimp only
  cases hcase : d.fraction with
  | nil =>
    rw [hcase] at hvalue
    rw [fractionText, List.nil_append]
    cases hpower : d.power with
    | none =>
      simp only [powerText, hvalue]
      rfl
    | some power =>
      rw [hpower] at hexponent
      rw [List.append_nil] at hvalue
      simp only [powerText] at hexponent ⊢
      simp [hexponent, hvalue]
  | cons c cs =>
    have htext : fractionText (c :: cs) ++ powerText d.power =
        '.' :: (d.fraction ++ powerText d.power) := by
      rw [hcase]
      rfl
    rw [htext, ← hcase]
    simp [takeWhile_digits d.isDigit_fraction hpower, dropWhile_digits d.isDigit_fraction hpower,
      hvalue, hexponent]

theorem readMagnitude?_text (d : Decimal) {rest : List Char} (h : Ended rest) :
    readMagnitude? (d.text ++ rest) = some (d.numeral, rest) := by
  have hdigit : ∀ c ∈ (powerText d.power ++ rest).head?, c.isDigit = false :=
    head_powerText_append _ (·.isDigit = false) rfl (not_isDigit_of_ended h)
  have hpoint : ∀ c ∈ (powerText d.power ++ rest).head?, c ≠ '.' :=
    head_powerText_append _ (· ≠ '.') (by decide) fun c hc => (ne_of_ended h c hc).1
  have hwhole : wholeLength? (d.text ++ rest) = some d.whole.length := by
    rw [text, List.append_assoc, List.append_assoc]
    exact wholeLength?_append d (head_fractionText_append _ _ rfl hdigit)
  have hfraction : fractionLength? ((d.text ++ rest).drop d.whole.length) =
      some (fractionText d.fraction).length := by
    rw [text, List.append_assoc, List.drop_left, List.append_assoc]
    exact fractionLength?_append d.isDigit_fraction hdigit hpoint
  have hpower : exponentLength?
      ((d.text ++ rest).drop (d.whole.length + (fractionText d.fraction).length)) =
      some (powerText d.power).length := by
    rw [text, ← List.append_assoc, ← List.length_append, List.append_assoc, List.drop_left]
    exact exponentLength?_append h d.power
  have hlength : d.whole.length + (fractionText d.fraction).length + (powerText d.power).length =
      d.text.length := by
    rw [text, List.length_append, List.length_append, Nat.add_assoc]
  rw [readMagnitude?, hwhole]
  simp only [Option.bind_eq_bind, Option.bind_some, hfraction, hpower, hlength, List.take_left,
    List.drop_left, ofText?_text]
  rfl

end Decimal

end Json

namespace Numeral

open Json (Decimal layout)

theorem isDigit_of_mem_zeros {count : Int} {c : Char} (h : c ∈ zeros count) : c.isDigit := by
  rw [List.eq_of_mem_replicate h]
  rfl

/-- The numeral that the text of a numeral is read as: the same number, in tenths when
there is a zero behind the point of a whole number. -/
def asRead (n : Numeral) : Numeral :=
  if layout.positional n.leading ∧ 0 ≤ n.exponent then
    ⟨n.negative, n.digits * 10 ^ (n.exponent.toNat + 1), -1⟩
  else
    n

@[simp] theorem negative_asRead (n : Numeral) : n.asRead.negative = n.negative := by
  rw [asRead]
  split <;> rfl

theorem magnitude_asRead (n : Numeral) : n.asRead.magnitude = n.magnitude := by
  rw [asRead]
  split
  · next h =>
    obtain ⟨k, hk⟩ := Int.eq_ofNat_of_zero_le h.2
    rw [magnitude, magnitude, hk]
    simp [pow_succ]
    ring
  · rfl

/-- The digits of a numeral without zeros in front. -/
theorem digits_eq_or (n : Nat) :
    Nat.toDigits 10 n = ['0'] ∨ ∃ c ∈ (Nat.toDigits 10 n).head?, c ≠ '0' := by
  rcases eq_or_ne n 0 with rfl | h
  · exact .inl (Nat.toDigits_zero 10)
  · obtain ⟨c, cs, hcs⟩ := List.exists_cons_of_ne_nil (Nat.toDigits_ne_nil (n := n) (b := 10))
    have hhead := head_toDigits_ne_zero h
    rw [hcs] at hhead ⊢
    exact .inr ⟨c, rfl, fun heq => hhead (congrArg some heq)⟩

/-- A whole number with all its places. -/
theorem exists_decimal_whole {n : Numeral} (hexponent : 0 ≤ n.exponent)
    (hzero : n.digits = 0 → n.exponent = 0) :
    ∃ d : Decimal, d.text = positionalText layout.wholeSuffix n ∧
      d.numeral = ⟨false, n.digits * 10 ^ (n.exponent.toNat + 1), -1⟩ := by
  have hdigits : ∀ c ∈ Nat.toDigits 10 n.digits ++ zeros n.exponent, c.isDigit := by
    intro c hc
    exact (List.mem_append.mp hc).elim isDigit_of_mem_toDigits isDigit_of_mem_zeros
  have hwhole : Nat.toDigits 10 n.digits ++ zeros n.exponent = ['0'] ∨
      ∃ c ∈ (Nat.toDigits 10 n.digits ++ zeros n.exponent).head?, c ≠ '0' := by
    rcases eq_or_ne n.digits 0 with h | h
    · rw [h, hzero h]
      exact .inl rfl
    · right
      rw [List.head?_append_of_ne_nil _ Nat.toDigits_ne_nil]
      exact (digits_eq_or n.digits).resolve_left fun heq => head_toDigits_ne_zero h (by rw [heq]; rfl)
  refine ⟨⟨_, ['0'], none, hdigits, by simp, hwhole⟩, ?_, ?_⟩
  · rw [positionalText, if_pos hexponent]
    rfl
  · rw [Decimal.numeral]
    dsimp only
    rw [Nat.ofDigitChars_append, Nat.ofDigitChars_append, Nat.ofDigitChars_ten_toDigits, zeros,
      Nat.ofDigitChars_replicate_zero]
    simp [Nat.ofDigitChars_cons, pow_succ]
    ring

/-- A number with digits behind the point. -/
theorem exists_decimal_fraction {n : Numeral} (hexponent : n.exponent < 0) :
    ∃ d : Decimal, d.text = positionalText layout.wholeSuffix n ∧
      d.numeral = ⟨false, n.digits, n.exponent⟩ := by
  have hdigits : ∀ c ∈ Nat.toDigits 10 n.digits, c.isDigit :=
    fun _ hc => isDigit_of_mem_toDigits hc
  have hvalue : Nat.ofDigitChars 10 (Nat.toDigits 10 n.digits) 0 = n.digits :=
    Nat.ofDigitChars_ten_toDigits
  have hcases := digits_eq_or n.digits
  have hnonempty : Nat.toDigits 10 n.digits ≠ [] := Nat.toDigits_ne_nil
  unfold positionalText
  rw [if_neg (by omega)]
  generalize Nat.toDigits 10 n.digits = digits at *
  split
  · next hpoint =>
    obtain ⟨point, hpoint⟩ := Int.eq_ofNat_of_zero_le hpoint.le
    rw [hpoint, Int.toNat_natCast]
    have hdrop : digits.drop point ≠ [] := by
      rw [ne_eq, List.drop_eq_nil_iff]
      omega
    refine ⟨⟨digits.take point, digits.drop point, none,
      fun c hc => hdigits c (List.mem_of_mem_take hc),
      fun c hc => hdigits c (List.mem_of_mem_drop hc), .inr ?_⟩, ?_, ?_⟩
    · rcases hcases with heq | hhead
      · have hlength := congrArg List.length heq
        rw [List.length_singleton] at hlength
        omega
      · rwa [List.head?_take, if_neg (by omega)]
    · rw [Decimal.text, Decimal.fractionText_of_ne_nil hdrop, Decimal.powerText, List.append_nil]
    · rw [Decimal.numeral]
      dsimp only
      rw [List.take_append_drop, hvalue, List.length_drop, Option.getD_none]
      congr 1
      omega
  · next hpoint =>
    have hfraction : zeros (-(digits.length + n.exponent)) ++ digits ≠ [] := by simp [hnonempty]
    refine ⟨⟨['0'], zeros (-(digits.length + n.exponent)) ++ digits, none, by simp, ?_, .inl rfl⟩,
      ?_, ?_⟩
    · exact fun c hc => (List.mem_append.mp hc).elim isDigit_of_mem_zeros (hdigits c)
    · rw [Decimal.text, Decimal.fractionText_of_ne_nil hfraction, Decimal.powerText,
        List.append_nil]
      rfl
    · rw [Decimal.numeral]
      dsimp only
      rw [List.singleton_append, Nat.ofDigitChars_cons, zeros, Nat.ofDigitChars_append,
        Nat.ofDigitChars_replicate_zero]
      simp [hvalue]
      omega

/-- Digits with a power of ten behind them. -/
theorem exists_decimal_scientific (n : Numeral) :
    ∃ d : Decimal, d.text = scientificText n ∧ d.numeral = ⟨false, n.digits, n.exponent⟩ := by
  have hdigits : ∀ c ∈ Nat.toDigits 10 n.digits, c.isDigit :=
    fun _ hc => isDigit_of_mem_toDigits hc
  have hvalue : Nat.ofDigitChars 10 (Nat.toDigits 10 n.digits) 0 = n.digits :=
    Nat.ofDigitChars_ten_toDigits
  have hcases := digits_eq_or n.digits
  have hleading : n.leading = n.exponent + (Nat.toDigits 10 n.digits).length - 1 := rfl
  have hnonempty : Nat.toDigits 10 n.digits ≠ [] := Nat.toDigits_ne_nil
  unfold scientificText
  generalize Nat.toDigits 10 n.digits = digits at *
  obtain ⟨first, rest, rfl⟩ := List.exists_cons_of_ne_nil hnonempty
  rw [List.length_cons] at hleading
  refine ⟨⟨[first], rest, some n.leading, ?_, fun c hc => hdigits c (List.mem_cons_of_mem _ hc),
    ?_⟩, ?_, ?_⟩
  · simpa using hdigits first List.mem_cons_self
  · rcases hcases with heq | hhead
    · exact .inl (by rw [List.head_eq_of_cons_eq heq])
    · exact .inr hhead
  · cases rest with
    | nil => rfl
    | cons second rest => rfl
  · rw [Decimal.numeral]
    dsimp only
    rw [List.singleton_append, hvalue, Option.getD_some]
    congr 1
    omega

/-- A numeral without its sign. -/
theorem exists_decimal {n : Numeral} (hzero : n.digits = 0 → n.exponent = 0) :
    ∃ d : Decimal,
      d.text = (if layout.positional n.leading then positionalText layout.wholeSuffix n
        else scientificText n) ∧
      d.numeral = { n.asRead with negative := false } := by
  rw [asRead]
  split
  · next hpositional =>
    by_cases hexponent : 0 ≤ n.exponent
    · rw [if_pos ⟨hpositional, hexponent⟩]
      exact exists_decimal_whole hexponent hzero
    · rw [if_neg fun h => hexponent h.2]
      exact exists_decimal_fraction (Int.not_le.mp hexponent)
  · next hscientific =>
    rw [if_neg fun h => hscientific h.1]
    exact exists_decimal_scientific n

end Numeral

namespace Json

/-- The text of a numeral is read up to where it ends. -/
theorem readNumber?_toText {n : Numeral} (hzero : n.digits = 0 → n.exponent = 0)
    {rest : List Char} (h : Ended rest) :
    readNumber? ((n.toText layout).toList ++ rest) = some (.number n.asRead, rest) := by
  obtain ⟨d, htext, hnumeral⟩ := Numeral.exists_decimal hzero
  have hread := d.readMagnitude?_text h
  have hsign := n.negative_asRead
  rw [Numeral.toText, String.toList_ofList, ← htext]
  split
  · next hnegative =>
    have hnegate : ({ n.asRead with negative := false } : Numeral).negate = n.asRead := by
      rw [Numeral.negate, Bool.not_false, ← hnegative, ← hsign]
    rw [List.cons_append, readNumber?, hread, hnumeral]
    exact congrArg (fun m => some (Json.number m, rest)) hnegate
  · next hpositive =>
    have hkeep : ({ n.asRead with negative := false } : Numeral) = n.asRead := by
      rw [← Bool.eq_false_of_not_eq_true hpositive, ← hsign]
    obtain ⟨c, cs, hcs, hdigit⟩ := d.exists_head_text
    unfold readNumber?
    split
    · next tail heq =>
      rw [hcs, List.cons_append] at heq
      rw [List.head_eq_of_cons_eq heq] at hdigit
      exact absurd hdigit (by decide)
    · rw [hread, hnumeral]
      exact congrArg (fun m => some (Json.number m, rest)) hkeep

end Json

end DeclSchema
