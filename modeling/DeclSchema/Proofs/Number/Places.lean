import DeclSchema.Model.Basic
import DeclSchema.Proofs.Json.Number

/-!
# Numbers with all their places

The text of a numeral with all its places, and nothing behind a whole number, is read as the
same number. So a value can be told from the text that it has in a schema: values that differ,
be it in the last place or in the sign of a zero, are written differently.
-/

namespace DeclSchema

namespace Digits

/-- Zeros behind the digits of a number count as places. -/
theorem ofText?_toDigits_append_zeros (n : Nat) (count : Int) :
    ofText? 10 (Nat.toDigits 10 n ++ Numeral.zeros count) = some (n * 10 ^ count.toNat) := by
  have hdigits : ∀ c ∈ Nat.toDigits 10 n ++ Numeral.zeros count, c.isDigit :=
    List.forall_mem_append.mpr
      ⟨fun _ hc => isDigit_of_mem_toDigits hc, fun _ hc => Numeral.isDigit_of_mem_zeros hc⟩
  rw [ofText?, if_neg (by simp), read?_of_isDigit hdigits, Nat.ofDigitChars_append,
    Nat.ofDigitChars_ten_toDigits, Numeral.zeros, Nat.ofDigitChars_replicate_zero, Nat.mul_comm]

end Digits

namespace Numeral

theorem ofText?_positionalText_whole {n : Numeral} (h : 0 ≤ n.exponent) :
    ofText? (positionalText "" n) = some ⟨false, n.digits * 10 ^ n.exponent.toNat, 0⟩ := by
  have htext : positionalText "" n = Nat.toDigits 10 n.digits ++ zeros n.exponent := by
    rw [positionalText, if_pos h]
    exact List.append_nil _
  rw [htext]
  apply ofText?_of_isDigit _ (Digits.ofText?_toDigits_append_zeros n.digits n.exponent)
  exact List.forall_mem_append.mpr
    ⟨fun _ hc => isDigit_of_mem_toDigits hc, fun _ hc => isDigit_of_mem_zeros hc⟩

theorem ofText?_positionalText_fraction {n : Numeral} (h : n.exponent < 0) :
    ofText? (positionalText "" n) = some ⟨false, n.digits, n.exponent⟩ := by
  obtain ⟨d, htext, hnumeral⟩ := exists_decimal_fraction h
  have hsuffix : positionalText "" n = positionalText Json.layout.wholeSuffix n := by
    rw [positionalText, positionalText, if_neg (Int.not_le.mpr h), if_neg (Int.not_le.mpr h)]
  rw [hsuffix, ← htext, d.ofText?_text, hnumeral]

/-- The text of a numeral with all its places is read as the same number without its sign. -/
theorem exists_ofText?_positionalText (n : Numeral) :
    ∃ m : Numeral, ofText? (positionalText "" n) = some m ∧ m.magnitude = n.magnitude := by
  rcases Int.lt_or_le n.exponent 0 with h | h
  · exact ⟨_, ofText?_positionalText_fraction h, rfl⟩
  · refine ⟨_, ofText?_positionalText_whole h, ?_⟩
    obtain ⟨count, hcount⟩ := Int.eq_ofNat_of_zero_le h
    rw [magnitude, magnitude, hcount]
    simp

/-- No number starts with a sign where none is read. -/
theorem ofText?_minus (cs : List Char) : ofText? ('-' :: cs) = none :=
  rfl

/-- Numerals that have the same text with all places are the same number. -/
theorem magnitude_eq_of_positionalText {m n : Numeral}
    (h : positionalText "" m = positionalText "" n) : m.magnitude = n.magnitude := by
  obtain ⟨m', hm, hmagnitude⟩ := exists_ofText?_positionalText m
  obtain ⟨n', hn, hmagnitude'⟩ := exists_ofText?_positionalText n
  rw [h, hn] at hm
  cases hm
  exact hmagnitude.symm.trans hmagnitude'

theorem eq_of_toText {m n : Numeral} (h : m.toText Literal.layout = n.toText Literal.layout) :
    m.negative = n.negative ∧ m.magnitude = n.magnitude := by
  have hminus : ∀ {m n : Numeral}, '-' :: positionalText "" m ≠ positionalText "" n := by
    intro m n heq
    obtain ⟨_, hread, -⟩ := exists_ofText?_positionalText n
    rw [← heq, ofText?_minus] at hread
    cases hread
  have htexts := String.ofList_inj.mp h
  simp only [Literal.layout, if_true] at htexts
  cases hm : m.negative <;> cases hn : n.negative <;> simp only [hm, hn] at htexts
  · exact ⟨rfl, magnitude_eq_of_positionalText htexts⟩
  · exact absurd htexts.symm hminus
  · exact absurd htexts hminus
  · exact ⟨rfl, magnitude_eq_of_positionalText (List.cons.inj htexts).2⟩

end Numeral

/-- Numbers that are written in the same way in a schema are equal. -/
theorem Literal.eq_of_toText_number {x y : Binary64}
    (h : (Literal.number x).toText = (Literal.number y).toText) : x = y := by
  obtain ⟨hsign, hmagnitude⟩ := Numeral.eq_of_toText h
  have hread := Binary64.ofNumeral?_congr hsign hmagnitude
  rw [Binary64.ofNumeral?_shortest, Binary64.ofNumeral?_shortest] at hread
  exact Option.some.inj hread

end DeclSchema
