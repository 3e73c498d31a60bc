import DeclSchema.Proofs.Phrase.Types
import DeclSchema.Proofs.Phrase.Spelling

/-!
# Types are read with their precedence

Every phrase that is not nested too deeply is read as the nodes it stands for, whatever
it is made of; one that is nested too deeply is refused for this reason.

The recursion goes along the phrase. A type inside another one is read by a parser with
one level less, so that the levels left and the depth reached always add up to the limit.
-/

namespace DeclSchema

open DeclSchema.Parser

namespace Phrase

variable {levels depth : Nat} {s : State} {left : List Glyph}

/-- One level of types, if there is one left. -/
theorem reads_nested {p : Parser Node} {Q : Node → Prop}
    (hdepth : s.depth + (levels + 1) = maxDepth)
    (h : ∀ t : State, t.glyphs = s.glyphs → t.depth + levels = maxDepth →
      Reads levels depth p t left Q) :
    Reads (levels + 1) (depth + 1) (nested p) s left Q := by
  have hinner := h { s with depth := s.depth + 1 } rfl (by dsimp only; omega)
  have hallowed : ¬ maxDepth ≤ s.depth := by omega
  constructor
  · intro hle
    obtain ⟨node, count, hrun, hleft, hnode⟩ := hinner.enough (Nat.le_of_succ_le_succ hle)
    refine ⟨node, count, ?_, hleft, hnode⟩
    unfold nested
    rw [if_neg hallowed, hrun]
    rfl
  · intro hlt
    obtain ⟨error, t, hrun, herror⟩ := hinner.tooDeep (Nat.lt_of_succ_lt_succ hlt)
    refine ⟨error, { t with depth := t.depth - 1 }, ?_, herror⟩
    unfold nested
    rw [if_neg hallowed, hrun]

/-- A type is read on one level more than what it is made of. -/
theorem readBy_typeWithin {t : Phrase (.one .type)} (hpart : t.depth = depth + 1)
    (h : ∀ (levels : Nat) (s : State) (left : List Glyph), s.glyphs = t.glyphs ++ left →
      s.depth + levels = maxDepth → left.head?.any (endsType ·.kind) →
      Reads levels depth (unionType (typeWithin levels)) s left
        fun node => [node.withoutSpans] = t.nodes) (levels : Nat) :
    t.ReadBy levels (typeWithin levels) endsType := by
  intro s left hs hdepth hleft
  rw [hpart]
  cases levels with
  | zero => exact ⟨fun hle => absurd hle (Nat.not_succ_le_zero _), fun _ => ⟨_, _, rfl, State.fault_errorHere _⟩⟩
  | succ levels =>
    exact reads_nested hdepth fun t ht htdepth => h levels t left (ht.trans hs) htdepth hleft

/-- What it means for a phrase of each category that it is read. -/
def IsRead : {part : Part} → Phrase part → Prop
  | .one .type, t => ∀ levels, t.ReadBy levels (typeWithin levels) endsType
  | .one .intersection, t =>
    ∀ levels, t.ReadBy levels (intersectionType (typeWithin levels)) Category.intersection.ends
  | .one .suffixed, t => ∀ levels, t.SuffixedBy levels (typeWithin levels)
  | .one .parameter, t => ∀ levels, t.ReadBy levels (Parser.parameter (typeWithin levels)) endsType
  | .one .element, t => ∀ levels, t.ReadBy levels (tupleElement (typeWithin levels)) endsType
  | .others .type, t => ∀ levels, t.ListedBy levels (typeWithin levels) .comma endsType
  | .others .intersection, t =>
    ∀ levels, t.ListedBy levels (intersectionType (typeWithin levels)) .pipe
      Category.intersection.ends
  | .others .suffixed, t =>
    ∀ levels, t.ListedBy levels (postfixType (typeWithin levels)) .amp Category.suffixed.ends
  | .others .parameter, t => ∀ levels, t.ClosedBy levels (Parser.parameter (typeWithin levels)) .rParen
  | .others .element, t => ∀ levels, t.ClosedBy levels (tupleElement (typeWithin levels)) .rBracket

theorem isRead {part : Part} (t : Phrase part) : t.IsRead := by
  induction t with
  | nullary returned ih =>
    exact readBy_typeWithin rfl fun levels s left hs hdepth hleft =>
      reads_nullary (ih levels) hdepth hleft hs
  | function first others returned ihFirst ihOthers ihReturned =>
    exact readBy_typeWithin rfl fun levels s left hs hdepth hleft =>
      reads_function (ihReturned levels) hdepth hleft (ihFirst levels) (ihOthers levels) hs
  | union first second others ihFirst ihSecond ihOthers =>
    refine readBy_typeWithin rfl fun levels s left hs hdepth hleft => ?_
    simp only [glyphs, List.append_assoc] at hs
    refine reads_several .pipe rfl Bool.false_ne_true intersection_ends Bool.false_ne_true hdepth
      hleft rfl rfl (ihFirst levels) (ihSecond levels) (ihOthers levels)
      (hs.trans ?_)
    simp only [glyphs, List.append_assoc]
    rfl
  | ofIntersection operand ih =>
    exact readBy_typeWithin rfl fun levels s left hs hdepth hleft =>
      reads_single .pipe rfl Bool.false_ne_true intersection_ends Bool.false_ne_true hdepth hleft
        (ih levels) hs
  | intersection first second others ihFirst ihSecond ihOthers =>
    intro levels s left hs hdepth hleft
    simp only [glyphs, List.append_assoc] at hs
    refine reads_several .amp rfl Bool.false_ne_true suffixed_ends Bool.false_ne_true hdepth
      hleft rfl rfl (readBy_postfixType (ihFirst levels))
      (readBy_postfixType (ihSecond levels)) (ihOthers levels) (hs.trans ?_)
    simp only [glyphs, List.append_assoc]
    rfl
  | ofSuffixed operand ih =>
    intro levels s left hs hdepth hleft
    exact reads_single .amp rfl Bool.false_ne_true suffixed_ends Bool.false_ne_true hdepth
      hleft (readBy_postfixType (ih levels)) hs
  | array target ih => exact fun levels => suffixedBy_array (ih levels)
  | indexed target index ihTarget ihIndex =>
    exact fun levels => suffixedBy_indexed (ihTarget levels) (ihIndex levels)
  | keyword word kind h => exact fun levels => suffixedBy_keyword word kind h
  | truth value => exact fun levels => suffixedBy_truth value
  | string value => exact fun levels => suffixedBy_string value
  | number negative numeral => exact fun levels => suffixedBy_number negative numeral
  | reference name h => exact fun levels => suffixedBy_reference name h
  | applied name h hnew first others ihFirst ihOthers =>
    exact fun levels => suffixedBy_applied name h hnew (ihFirst levels) (ihOthers levels)
  | query name => exact fun levels => suffixedBy_query name
  | parenthesized inside ih => exact fun levels => suffixedBy_parenthesized (ih levels)
  | emptyTuple => exact fun levels => suffixedBy_emptyTuple
  | tuple first others ihFirst ihOthers =>
    exact fun levels => suffixedBy_tuple (ihFirst levels) (ihOthers levels)
  | parameter name type ih => exact fun levels => readBy_parameter (ih levels)
  | element type ih => exact fun levels => readBy_element (ih levels)
  | spread type ih => exact fun levels => readBy_spread (ih levels)
  | @done category =>
    cases category with
    | type | intersection | suffixed => exact fun levels => listedBy_done
    | parameter | element => exact fun levels => closedBy_done (by decide)
  | @more category next others ihNext ihOthers =>
    cases category with
    | type => exact fun levels => listedBy_more rfl rfl (ihNext levels) (ihOthers levels)
    | intersection => exact fun levels => listedBy_more rfl rfl (ihNext levels) (ihOthers levels)
    | suffixed =>
      exact fun levels => listedBy_more rfl rfl (readBy_postfixType (ihNext levels)) (ihOthers levels)
    | parameter =>
      exact fun levels => closedBy_more rfl ⟨rfl, rfl⟩ (fun _ => not_head_parameter) (ihNext levels)
        (ihOthers levels)
    | element =>
      exact fun levels => closedBy_more rfl ⟨rfl, rfl⟩ not_head_element (ihNext levels) (ihOthers levels)

end Phrase

end DeclSchema
