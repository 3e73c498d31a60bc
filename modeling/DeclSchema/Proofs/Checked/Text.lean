import DeclSchema.Number.Literal
import DeclSchema.Proofs.Token.Longest
import DeclSchema.Proofs.Token.Tiling
import DeclSchema.Token.Quoted
import Mathlib.Data.Nat.PSub

/-!
# Texts cut at bytes

A text can be cut only where a character begins. Here such cuts are partial: they are
undefined beyond the end of a text and inside a character. The quotes of a literal and the
letter that announces a radix are characters of one byte, so what is cut off with them is
defined.
-/

namespace DeclSchema.Checked

open Piece

/-- What a text has behind its first `count` bytes. -/
def dropBytes (count : Nat) : List Char → Option (List Char)
  | [] => if count = 0 then some [] else none
  | c :: cs =>
    if count = 0 then
      some (c :: cs)
    else
      (count.psub c.utf8Size).bind fun count => dropBytes count cs

/-- The first `count` bytes of a text. -/
def takeBytes (count : Nat) : List Char → Option (List Char)
  | [] => if count = 0 then some [] else none
  | c :: cs =>
    if count = 0 then
      some []
    else
      (count.psub c.utf8Size).bind fun count => (takeBytes count cs).map (c :: ·)

/-- A text from one place in it to another. -/
def slice (start stop : Nat) (cs : List Char) : Option (List Char) := do
  let count ← stop.psub start
  takeBytes count (← dropBytes start cs)

theorem dropBytes_append (first cs : List Char) :
    dropBytes (byteLength first) (first ++ cs) = some cs := by
  induction first with
  | nil => cases cs <;> rfl
  | cons c first ih =>
    have hpos := Char.utf8Size_pos c
    rw [byteLength_cons, List.cons_append, dropBytes, if_neg (by omega),
      Nat.psub_eq_sub (Nat.le_add_right _ _), Option.bind_some, Nat.add_sub_cancel_left, ih]

theorem takeBytes_append (first cs : List Char) :
    takeBytes (byteLength first) (first ++ cs) = some first := by
  induction first with
  | nil => cases cs <;> rfl
  | cons c first ih =>
    have hpos := Char.utf8Size_pos c
    rw [byteLength_cons, List.cons_append, takeBytes, if_neg (by omega),
      Nat.psub_eq_sub (Nat.le_add_right _ _), Option.bind_some, Nat.add_sub_cancel_left, ih,
      Option.map_some]

/-- A cut between two characters is defined. -/
theorem slice_append (first middle last : List Char) :
    slice (byteLength first) (byteLength first + byteLength middle) (first ++ middle ++ last) =
      some middle := by
  rw [slice, Nat.psub_eq_sub (Nat.le_add_right _ _), Nat.add_sub_cancel_left, List.append_assoc,
    dropBytes_append]
  exact takeBytes_append middle last

/-- A cut inside a character is not. -/
example : slice 0 1 ['é'] = none := by
  decide

/-- The value of a quoted literal. One byte is cut off at each end. -/
def unquote (literal : String) : Option String := do
  let inner ← if 2 ≤ literal.utf8ByteSize then
      slice 1 (← literal.utf8ByteSize.psub 1) literal.toList
    else
      some literal.toList
  return String.ofList (Quoted.decode inner)

/-- A text between two characters of one byte. -/
def Enclosed (cs : List Char) : Prop :=
  ∃ opening inner closing, cs = [opening] ++ inner ++ [closing] ∧ byteLength [opening] = 1 ∧
    byteLength [closing] = 1

theorem unquote_of_enclosed {literal : String} (h : Enclosed literal.toList) :
    unquote literal = some (DeclSchema.unquote literal) := by
  obtain ⟨opening, inner, closing, heq, hopening, hclosing⟩ := h
  have hsize : literal.utf8ByteSize = 1 + byteLength inner + 1 := by
    rw [utf8ByteSize_eq, heq, byteLength_append, byteLength_append, hopening, hclosing]
  have hinner : slice 1 (1 + byteLength inner) literal.toList = some inner := by
    have hslice := slice_append [opening] inner [closing]
    rwa [hopening, ← heq] at hslice
  have hstrip : Quoted.stripQuotes literal.toList = inner := by
    rw [heq, List.append_assoc, List.singleton_append]
    cases inner with
    | nil => rfl
    | cons c inner => exact List.dropLast_concat
  rw [unquote, if_pos (by omega), Nat.psub_eq_sub (by omega), hsize, Nat.add_sub_cancel]
  simp [hinner, DeclSchema.unquote, hstrip]

/-- The radix that the first two bytes of a number announce. Two bytes that do not end with
a character announce none. -/
def radix? (digits : List Char) : Option Nat :=
  match takeBytes 2 digits with
  | some ['0', 'x'] | some ['0', 'X'] => some 16
  | some ['0', 'b'] | some ['0', 'B'] => some 2
  | some ['0', 'o'] | some ['0', 'O'] => some 8
  | _ => none

/-- The value of a literal without gaps and sign. Its first two bytes are cut off if they
announce a radix. -/
def magnitude (digits : List Char) : Option (Option Binary64) :=
  match radix? digits with
  | some radix => do
    let digits ← dropBytes 2 digits
    return (Digits.ofText? radix digits).bind fun n =>
      if n < UInt64.size then Binary64.ofNat? n else none
  | none => some (Numeral.ofText? digits >>= Binary64.ofNumeral?)

/-- The value of a numeric literal. -/
def numberValue (text : String) : Option (Option Binary64) :=
  match text.toList.filter (· != '_') with
  | '-' :: cs => (magnitude cs).map (·.map Binary64.negate)
  | cs => magnitude cs

/-- What is cut off and what is left. -/
theorem exists_of_takeBytes {count : Nat} {cs first : List Char}
    (h : takeBytes count cs = some first) :
    ∃ rest, cs = first ++ rest ∧ dropBytes count cs = some rest := by
  induction cs generalizing count first with
  | nil =>
    rw [takeBytes] at h
    split at h
    · next hcount =>
      cases h
      exact ⟨[], rfl, if_pos hcount⟩
    · cases h
  | cons c cs ih =>
    rw [takeBytes] at h
    rw [dropBytes]
    split at h
    · next hcount =>
      cases h
      exact ⟨c :: cs, rfl, if_pos hcount⟩
    · next hcount =>
      rw [if_neg hcount]
      cases hleft : count.psub c.utf8Size with
      | none => simp [hleft] at h
      | some left =>
        rw [hleft, Option.bind_some, Option.map_eq_some_iff] at h
        obtain ⟨inner, hinner, rfl⟩ := h
        obtain ⟨rest, rfl, hrest⟩ := ih hinner
        exact ⟨rest, rfl, hrest⟩

theorem cut_two {letter : Char} (h : letter.utf8Size = 1) (rest : List Char) :
    takeBytes 2 ('0' :: letter :: rest) = some ['0', letter] ∧
      dropBytes 2 ('0' :: letter :: rest) = some rest := by
  have hlength : byteLength ['0', letter] = 2 := by
    rw [byteLength_cons, byteLength_cons, h]
    rfl
  have htake := takeBytes_append ['0', letter] rest
  have hdrop := dropBytes_append ['0', letter] rest
  rw [hlength] at htake hdrop
  exact ⟨htake, hdrop⟩

/-- The first two bytes announce a radix if the first two characters do. -/
theorem radix?_of_some {cs rest : List Char} {radix : Nat}
    (h : NumericLiteral.radix? cs = some (radix, rest)) :
    radix? cs = some radix ∧ dropBytes 2 cs = some rest := by
  unfold NumericLiteral.radix? at h
  split at h
  · split at h <;> cases h
    all_goals
      refine (cut_two ?_ rest).imp (fun htake => ?_) id
      · rfl
      · rw [radix?, htake]
        rfl
  · cases h

theorem radix?_of_none {cs : List Char} (h : NumericLiteral.radix? cs = none) :
    radix? cs = none := by
  unfold radix?
  split <;> first
    | rfl
    | next htake =>
      obtain ⟨rest, rfl, -⟩ := exists_of_takeBytes htake
      cases h

theorem magnitude_eq (digits : List Char) :
    magnitude digits = some (NumericLiteral.magnitude? digits) := by
  unfold magnitude NumericLiteral.magnitude?
  cases h : NumericLiteral.radix? digits with
  | none => rw [radix?_of_none h]
  | some announced =>
    obtain ⟨radix, rest⟩ := announced
    obtain ⟨hradix, hrest⟩ := radix?_of_some h
    simp only [hradix, hrest, Option.pure_def, Option.bind_eq_bind, Option.bind_some]
    cases Digits.ofText? radix rest <;> rfl

theorem numberValue_eq (text : String) : numberValue text = some (NumericLiteral.value? text) := by
  unfold numberValue NumericLiteral.value?
  generalize text.toList.filter (· != '_') = cs
  split <;> simp only [magnitude_eq, Option.map_some]

end DeclSchema.Checked
