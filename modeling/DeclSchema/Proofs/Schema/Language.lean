import DeclSchema.Proofs.Number.Whole
import DeclSchema.Proofs.Schema.Parts
import Mathlib.Computability.Language

/-!
# What a model group accepts

A model group stands for the sequences of elements that it accepts. `particle` reads this
language off a tag: a reference accepts its name, a sequence what its parts accept one
after the other, a choice what one of its parts accepts, and each of them as often as its
bounds say. The bounds are read from the attributes, and are one where there are none
(`occurs?_apply`).

One reference has the bounds itself and several references leave them to the choice.
`modelGroup_accepts` says that both accept the same: names of references, as many as the
flags of the property allow.
-/

namespace DeclSchema.Schema

open Xml TypeVariant

namespace Occurs

/-- Whether something may occur a number of times. -/
def Allows (occurs : Occurs) (times : Nat) : Prop :=
  occurs.min ≤ times ∧
    match occurs.max with
    | .unbounded => True
    | .count most => times ≤ most

/-- What a language accepts as often as bounds allow. -/
def repeats (occurs : Occurs) (language : Language String) : Language String :=
  {word | ∃ times, occurs.Allows times ∧ word ∈ language ^ times}

/-- Exactly once. -/
def once : Occurs :=
  ⟨1, .count 1⟩

@[simp] theorem repeats_once (language : Language String) : once.repeats language = language := by
  ext word
  constructor
  · rintro ⟨times, ⟨hmin, hmax⟩, hword⟩
    obtain rfl : times = 1 := Nat.le_antisymm hmax hmin
    rwa [pow_one] at hword
  · intro hword
    exact ⟨1, ⟨Nat.le_refl 1, Nat.le_refl 1⟩, by rwa [pow_one]⟩

theorem allows_ofProperty {property : Property} {times : Nat} :
    (ofProperty property).Allows times ↔
      (property.mandatory → 1 ≤ times) ∧ (¬ property.multiple → times ≤ 1) := by
  unfold Allows ofProperty
  cases property.mandatory <;> cases property.multiple <;> simp

end Occurs

/-- The lower bound among attributes. -/
def minOccurs? (attributes : List (String × String)) : Option Nat :=
  match valueOf? "minOccurs" attributes with
  | none => some 1
  | some text => Digits.ofText? 10 text.toList

/-- The upper bound among attributes. -/
def maxOccurs? (attributes : List (String × String)) : Option MaxOccurs :=
  match valueOf? "maxOccurs" attributes with
  | none => some (.count 1)
  | some text =>
    if text = "unbounded" then some .unbounded
    else (Digits.ofText? 10 text.toList).map .count

/-- The bounds among attributes. -/
def occurs? (attributes : List (String × String)) : Option Occurs :=
  match minOccurs? attributes, maxOccurs? attributes with
  | some min, some max => some ⟨min, max⟩
  | _, _ => none

theorem ofText?_toString (n : Nat) : Digits.ofText? 10 (toString n).toList = some n := by
  rw [Nat.toString_eq_repr, Nat.toList_repr, Digits.ofText?_toDigits]

theorem maxOccurs_toText (max : MaxOccurs) :
    (if max.toText = "unbounded" then some .unbounded
      else (Digits.ofText? 10 max.toText.toList).map .count) = some max := by
  cases max with
  | unbounded => rfl
  | count n =>
    have hne : toString n ≠ "unbounded" := by
      intro heq
      have hread := ofText?_toString n
      have hnone : Digits.ofText? 10 "unbounded".toList = none := by decide
      rw [heq, hnone] at hread
      cases hread
    rw [MaxOccurs.toText, if_neg hne, ofText?_toString, Option.map_some]

/-- Bounds are read as they were set. -/
theorem occurs?_apply (occurs : Occurs) (tag : Tag) :
    occurs? (occurs.apply tag).attributes = some occurs := by
  have hmin : valueOf? "minOccurs" (occurs.apply tag).attributes = some (toString occurs.min) := by
    simp [Occurs.apply, Tag.set, Tag.valueOf?_setValue]
  have hmax : valueOf? "maxOccurs" (occurs.apply tag).attributes = some occurs.max.toText := by
    simp [Occurs.apply, Tag.set, Tag.valueOf?_setValue]
  simp only [occurs?, minOccurs?, maxOccurs?, hmin, hmax, maxOccurs_toText, ofText?_toString]

/-- The sequences of names that a part of a model group accepts. Bounds that are no
numbers, and tags of other names, accept nothing. -/
def particle : Content → Language String
  | .text _ => 0
  | .tag name attributes content =>
    match occurs? attributes with
    | none => 0
    | some occurs =>
      occurs.repeats <|
        match name with
        | "element" =>
          match valueOf? "ref" attributes with
          | some element => {[element]}
          | none => 0
        | "sequence" => inSequence content
        | "choice" => oneOf content
        | _ => 0
where
  /-- What parts accept one after the other. -/
  inSequence : List Content → Language String
    | [] => 1
    | part :: rest => particle part * inSequence rest
  /-- What one of several parts accepts. -/
  oneOf : List Content → Language String
    | [] => 0
    | part :: rest => particle part + oneOf rest

/-- The words of one letter. -/
def letters (names : List String) : Language String :=
  {word | ∃ name ∈ names, word = [name]}

theorem mem_letters {names word : List String} :
    word ∈ letters names ↔ ∃ name ∈ names, word = [name] := Iff.rfl

theorem mem_letters_pow {names : List String} {times : Nat} {word : List String} :
    word ∈ letters names ^ times ↔ word.length = times ∧ ∀ name ∈ word, name ∈ names := by
  induction times generalizing word with
  | zero =>
    rw [pow_zero, Language.mem_one, List.length_eq_zero_iff]
    exact ⟨fun h => ⟨h, by simp [h]⟩, (·.1)⟩
  | succ times ih =>
    rw [pow_succ', Language.mem_mul]
    constructor
    · rintro ⟨-, ⟨name, hname, rfl⟩, rest, hrest, rfl⟩
      obtain ⟨hlength, hnames⟩ := ih.mp hrest
      exact ⟨by simp [hlength], by simpa using ⟨hname, hnames⟩⟩
    · rintro ⟨hlength, hnames⟩
      cases word with
      | nil => cases hlength
      | cons name rest =>
        obtain ⟨hname, hrest⟩ := List.forall_mem_cons.mp hnames
        exact ⟨[name], ⟨name, hname, rfl⟩, rest, ih.mpr ⟨Nat.succ.inj hlength, hrest⟩, rfl⟩

/-- Letters repeated are words of them. -/
theorem mem_repeats_letters {occurs : Occurs} {names word : List String} :
    word ∈ occurs.repeats (letters names) ↔
      occurs.Allows word.length ∧ ∀ name ∈ word, name ∈ names := by
  constructor
  · rintro ⟨times, hallows, hword⟩
    obtain ⟨rfl, hnames⟩ := mem_letters_pow.mp hword
    exact ⟨hallows, hnames⟩
  · rintro ⟨hallows, hnames⟩
    exact ⟨word.length, hallows, mem_letters_pow.mpr ⟨rfl, hnames⟩⟩

theorem letters_nil : letters [] = 0 := by
  ext word
  simp [mem_letters, Language.notMem_zero]

theorem letters_cons (name : String) (names : List String) :
    letters (name :: names) = {[name]} + letters names := by
  ext word
  rw [Language.mem_add, mem_letters, mem_letters, List.exists_mem_cons_iff]
  rfl

section

variable {attributes : List (String × String)} {occurs : Occurs} (h : occurs? attributes = some occurs)

include h

theorem particle_element {name : String} (href : valueOf? "ref" attributes = some name)
    (content : List Content) :
    particle (.tag "element" attributes content) = occurs.repeats {[name]} := by
  rw [particle, h]
  simp only [href]

theorem particle_sequence (content : List Content) :
    particle (.tag "sequence" attributes content) =
      occurs.repeats (particle.inSequence content) := by
  rw [particle, h]

theorem particle_choice (content : List Content) :
    particle (.tag "choice" attributes content) = occurs.repeats (particle.oneOf content) := by
  rw [particle, h]

end

theorem oneOf_references (names : List String) :
    particle.oneOf ((names.map elementReference).map Content.ofTag) = letters names := by
  induction names with
  | nil => exact letters_nil.symm
  | cons name rest ih =>
    rw [List.map_cons, List.map_cons, particle.oneOf, ih, letters_cons]
    exact congrArg (· + letters rest) ((particle_element rfl rfl []).trans (Occurs.repeats_once _))

/-- One reference or several: the group accepts words of their names, as long as the
bounds say. -/
theorem particle_groupOf {occurs : Occurs} {names : List String} {group : Tag}
    (h : groupOf occurs names = some group) :
    particle (Content.ofTag group) = occurs.repeats (letters names) := by
  unfold groupOf at h
  split at h
  · cases h
  · next name =>
    cases h
    have href : valueOf? "ref" (occurs.apply (elementReference name)).attributes = some name := by
      simp [Occurs.apply, elementReference, Tag.set, Tag.valueOf?_setValue]
    have helement : particle (Content.ofTag (occurs.apply (elementReference name))) =
        occurs.repeats {[name]} := particle_element (occurs?_apply _ _) href []
    calc particle (.tag "sequence" [] [Content.ofTag (occurs.apply (elementReference name))])
      _ = Occurs.once.repeats (occurs.repeats {[name]} * 1) := by
        rw [particle_sequence rfl, particle.inSequence, particle.inSequence, helement]
        rfl
      _ = occurs.repeats (letters [name]) := by
        rw [Occurs.repeats_once, mul_one, letters_cons, letters_nil, add_zero]
  · cases h
    exact (particle_choice (occurs?_apply occurs _) _).trans
      (congrArg occurs.repeats (oneOf_references _))

/-- The sequences of elements that a content is meant to allow: elements that it refers to,
one at least if it is mandatory, and one at most unless it is multiple. -/
def allowedSequences (content : Property) : Language String :=
  {word | (∀ name ∈ word, .reference name ∈ content.types) ∧
    (content.mandatory → 1 ≤ word.length) ∧ (¬ content.multiple → word.length ≤ 1)}

/-- What the group of a content accepts. There is a group exactly if there are references,
and it accepts the sequences that the content is meant to allow. -/
theorem modelGroup_accepts (element : String) (content : Property) (mixed : Bool)
    (group? : Option Tag) (h : modelGroup element content mixed = .ok group?) :
    (group? = none ↔ ∀ type ∈ content.types, ¬ type.isReference) ∧
    ∀ group, group? = some group →
      particle (Content.ofTag group) = allowedSequences content := by
  have hgroup : group? = groupOf (Occurs.ofProperty content) (references content.types) := by
    unfold modelGroup at h
    split at h
    · cases h
    · exact (Except.ok.inj h).symm
  constructor
  · rw [hgroup, groupOf_eq_none_iff, ← List.isEmpty_iff, references_isEmpty_iff]
  · intro group hsome
    rw [particle_groupOf (hgroup.symm.trans hsome)]
    ext word
    rw [mem_repeats_letters, Occurs.allows_ofProperty, and_comm]
    simp only [mem_references]
    rfl

/-- Two references with plain text between them, which may be missing or repeated. -/
theorem modelGroup_accepts_mixed :
    let content : Property :=
      ⟨some "children", false, [.reference "A", .simple .string, .reference "B"], true⟩
    ∃ group, modelGroup "Text" content true = .ok (some group) ∧
      particle (Content.ofTag group) = allowedSequences content ∧
      ["B", "A", "B"] ∈ particle (Content.ofTag group) := by
  intro content
  obtain ⟨-, haccepts⟩ := modelGroup_accepts "Text" content true _ rfl
  have hlanguage := haccepts _ rfl
  refine ⟨_, rfl, hlanguage, ?_⟩
  rw [hlanguage]
  exact ⟨by decide, by decide, by decide⟩

end DeclSchema.Schema
