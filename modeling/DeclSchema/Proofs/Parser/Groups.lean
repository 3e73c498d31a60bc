import DeclSchema.Proofs.Parser.Brackets
import DeclSchema.Proofs.Parser.Measures
import DeclSchema.Proofs.Phrase.Reading

/-!
# The two measures of a group

A group is measured in two ways: one count serves for all kinds of brackets when it is passed
over, and another one for the round brackets alone when the end of a parameter list is looked
for. Neither tells a bracket from one of another kind that the same count serves for. Where the
brackets are properly nested both counts are heights of the stack of open brackets, one of the
whole stack and one of its round brackets, so that both measures find the same end.
-/

namespace DeclSchema

open TokenKind

instance (stack tokens : List Token) : Decidable (ClosesAll stack tokens) :=
  inferInstanceAs (Decidable (_ = _))

/-- The bracket at a place of some tokens is closed by the one at another place: all that is
opened between them is closed there, each bracket by one of its own kind. -/
def ClosedAt (tokens : List Token) (first last : Nat) : Prop :=
  ∃ before opening inside closing after,
    tokens = before ++ opening :: (inside ++ closing :: after) ∧ before.length = first ∧
      last = first + (inside.length + 1) ∧ opening.kind.opens ∧ ClosesAll [] inside ∧
      opening.kind.closer? = some closing.kind

/-- The group that a bracket opens is properly nested: the bracket is closed, or else up to the
end of the tokens no bracket closes anything but the innermost open one. -/
def NestedAt (tokens : List Token) (first : Nat) : Prop :=
  ∃ opening rest, tokens.drop first = opening :: rest ∧ opening.kind.opens ∧
    ((∃ last, ClosedAt tokens first last) ∨ (openBrackets [opening] rest).isSome)

/-- Tokens that close what is awaited close the brackets that await it. -/
theorem Bracketed.closesAll {awaited : List TokenKind} {stack tokens : List Token}
    (h : Bracketed awaited tokens) (hstack : stack.map (·.kind.closer?) = awaited.map some) :
    ClosesAll stack tokens := by
  induction tokens generalizing awaited stack with
  | nil =>
    rw [h.eq_nil, List.map_nil, List.map_eq_nil_iff] at hstack
    exact ClosesAll.nil_iff.mpr hstack
  | cons token rest ih =>
    by_cases hopens : token.kind.opens
    · obtain ⟨close, hcloser, hrest⟩ := h.of_opens hopens
      have hinner : (token :: stack).map (·.kind.closer?) = (close :: awaited).map some := by
        rw [List.map_cons, hstack, hcloser, List.map_cons]
      exact (openBrackets_of_opens hopens).trans (ih hrest hinner)
    by_cases hcloses : token.kind.closes
    · obtain ⟨outer, rfl, hrest⟩ := h.of_closes hcloses
      obtain ⟨innermost, stack, rfl, hmatch, houter⟩ := List.map_eq_cons_iff.mp hstack
      exact (openBrackets_of_closes hcloses hmatch).trans (ih hrest houter)
    · exact (openBrackets_of_plain hopens hcloses).trans (ih (h.of_neither hopens hcloses) hstack)

/-- How many round brackets are open. -/
def roundBrackets (stack : List Token) : Nat :=
  stack.countP (·.kind == .lParen)

section

variable {stack above left : List Token} {token opening closing : Token}
  {tokens rest front inside : List Token}

/-- A bracket further out either stays open, or it is closed where all within it is closed. -/
theorem open_or_closed (h : openBrackets (stack ++ [opening]) tokens = some left) :
    (∃ above, openBrackets stack tokens = some above) ∨
      ∃ inside closing after, tokens = inside ++ closing :: after ∧ ClosesAll stack inside ∧
        opening.kind.closer? = some closing.kind := by
  induction tokens generalizing stack with
  | nil => exact .inl ⟨stack, rfl⟩
  | cons token rest ih =>
    -- What holds of the tokens behind the first one holds of all of them.
    have hlift : ∀ {inner : List Token},
        (∀ tokens, openBrackets stack (token :: tokens) = openBrackets inner tokens) →
        openBrackets (inner ++ [opening]) rest = some left →
        (∃ above, openBrackets stack (token :: rest) = some above) ∨
          ∃ inside closing after, token :: rest = inside ++ closing :: after ∧
            ClosesAll stack inside ∧ opening.kind.closer? = some closing.kind := by
      intro inner hfirst hinner
      obtain ⟨above, habove⟩ | ⟨inside, closing, after, rfl, hinside, hcloser⟩ := ih hinner
      · exact .inl ⟨above, (hfirst rest).trans habove⟩
      · exact .inr ⟨token :: inside, closing, after, rfl, (hfirst inside).trans hinside, hcloser⟩
    by_cases hopens : token.kind.opens
    · exact hlift (fun _ => openBrackets_of_opens hopens)
        ((openBrackets_of_opens hopens).symm.trans h)
    by_cases hcloses : token.kind.closes
    · obtain ⟨innermost, outer, hstack, hmatch, hrest⟩ := exists_of_closes hcloses h
      cases stack with
      | nil =>
        obtain ⟨rfl, rfl⟩ := List.cons.inj hstack
        exact .inr ⟨[], token, rest, rfl, rfl, hmatch⟩
      | cons first inner =>
        obtain ⟨rfl, rfl⟩ := List.cons.inj hstack
        exact hlift (fun _ => openBrackets_of_closes hcloses hmatch) hrest
    · exact hlift (fun _ => openBrackets_of_plain hopens hcloses)
        ((openBrackets_of_plain hopens hcloses).symm.trans h)

theorem closedAt_of_drop {first : Nat} {after : List Token}
    (h : tokens.drop first = opening :: (inside ++ closing :: after)) (hopens : opening.kind.opens)
    (hinside : ClosesAll [] inside) (hcloser : opening.kind.closer? = some closing.kind) :
    ClosedAt tokens first (first + (inside.length + 1)) := by
  have hfirst : first < tokens.length := by
    apply Nat.lt_of_not_le
    intro hle
    rw [List.drop_eq_nil_of_le hle] at h
    cases h
  refine ⟨tokens.take first, opening, inside, closing, after, ?_, ?_, rfl, hopens, hinside, hcloser⟩
  · rw [← h, List.take_append_drop]
  · exact List.length_take_of_le (Nat.le_of_lt hfirst)

/-- If the bracket of a properly nested group is closed nowhere, then all that is closed behind
it is opened there, too. -/
theorem NestedAt.open_of_never {first : Nat} (h : NestedAt tokens first)
    (hnever : ∀ last, ¬ ClosedAt tokens first last) :
    ∃ opening rest above, tokens.drop first = opening :: rest ∧ opening.kind.opens ∧
      openBrackets [] rest = some above := by
  obtain ⟨opening, rest, hfirst, hopens, ⟨last, hclosed⟩ | hnested⟩ := h
  · exact absurd hclosed (hnever last)
  obtain ⟨left, hleft⟩ := Option.isSome_iff_exists.mp hnested
  obtain ⟨above, habove⟩ | ⟨inside, closing, after, rfl, hinside, hcloser⟩ :=
    open_or_closed (show openBrackets ([] ++ [opening]) rest = some left from hleft)
  · exact ⟨opening, rest, above, hfirst, hopens, habove⟩
  · exact absurd (closedAt_of_drop hfirst hopens hinside hcloser) (hnever _)

/-- A bracket is closed nowhere if all that is closed behind it is opened there. -/
theorem not_closedAt_of_open {first : Nat} (h : tokens.drop first = opening :: rest)
    (habove : openBrackets [] rest = some above) (last : Nat) : ¬ ClosedAt tokens first last := by
  rintro ⟨before, opening', inside, closing, after, rfl, rfl, -, hopens, hinside, hcloser⟩
  rw [List.drop_left] at h
  obtain ⟨rfl, rfl⟩ := List.cons.inj h
  have hinside : openBrackets [] inside = some [] := hinside
  rw [openBrackets_append, hinside] at habove
  have hclosing : openBrackets [] (closing :: after) = some above := habove
  obtain ⟨_, _, hstack, -⟩ := exists_of_closes (closes_of_closer? hopens hcloser) hclosing
  cases hstack

theorem roundBrackets_of_lParen (h : token.kind = .lParen) (stack : List Token) :
    roundBrackets (token :: stack) = roundBrackets stack + 1 :=
  List.countP_cons_of_pos (beq_iff_eq.mpr h)

theorem roundBrackets_of_ne (h : token.kind ≠ .lParen) (stack : List Token) :
    roundBrackets (token :: stack) = roundBrackets stack :=
  List.countP_cons_of_neg (mt beq_iff_eq.mp h)

namespace Parser

theorem groupLength_of_opens (depth : Nat) (h : token.kind.opens) (rest : List Token) :
    groupLength depth (token :: rest) = 1 + groupLength (depth + 1) rest := by
  simp [groupLength, h]

theorem groupLength_of_closes (depth : Nat) (h : token.kind.closes) (rest : List Token) :
    groupLength (depth + 2) (token :: rest) = 1 + groupLength (depth + 1) rest := by
  simp [groupLength, not_opens_of_closes h, h]

theorem groupLength_of_plain (depth : Nat) (hopens : ¬ token.kind.opens)
    (hcloses : ¬ token.kind.closes) (rest : List Token) :
    groupLength (depth + 1) (token :: rest) = 1 + groupLength (depth + 1) rest := by
  simp [groupLength, hopens, hcloses]

/-- While a group is passed over, the count is the height of the stack. -/
theorem groupLength_of_openBrackets (around : Nat) (h : openBrackets stack front = some above)
    (rest : List Token) :
    groupLength (stack.length + around + 1) (front ++ rest) =
      front.length + groupLength (above.length + around + 1) rest := by
  induction front generalizing stack with
  | nil =>
    obtain rfl : stack = above := Option.some_inj.mp h
    exact (Nat.zero_add _).symm
  | cons token front ih =>
    suffices hfirst : groupLength (stack.length + around + 1) (token :: (front ++ rest)) =
        1 + (front.length + groupLength (above.length + around + 1) rest) by
      rw [List.cons_append, hfirst, List.length_cons]
      omega
    by_cases hopens : token.kind.opens
    · have hrest := ih ((openBrackets_of_opens hopens).symm.trans h)
      rw [List.length_cons, Nat.add_right_comm stack.length 1 around] at hrest
      rw [groupLength_of_opens _ hopens, hrest]
    by_cases hcloses : token.kind.closes
    · obtain ⟨innermost, outer, rfl, -, hbehind⟩ := exists_of_closes hcloses h
      rw [List.length_cons, Nat.add_right_comm outer.length 1 around,
        groupLength_of_closes _ hcloses, ih hbehind]
    · rw [groupLength_of_plain _ hopens hcloses,
        ih ((openBrackets_of_plain hopens hcloses).symm.trans h)]

/-- While the end of a parameter list is looked for, the count is the number of round brackets
in the stack. -/
theorem closingParen?_of_openBrackets (around : Nat)
    (h : openBrackets stack front = some above) (rest : List Token) :
    closingParen? (roundBrackets stack + around + 1) (front ++ rest) =
      (closingParen? (roundBrackets above + around + 1) rest).map (· + front.length) := by
  induction front generalizing stack with
  | nil =>
    obtain rfl : stack = above := Option.some_inj.mp h
    exact Option.map_id'.symm
  | cons token front ih =>
    -- The token counts as one place, whatever it does to the count of brackets.
    have hplace : ∀ {inner : List Token}, openBrackets inner front = some above →
        closingParen? (roundBrackets stack + around + 1) (token :: (front ++ rest)) =
          (closingParen? (roundBrackets inner + around + 1) (front ++ rest)).map (· + 1) →
        closingParen? (roundBrackets stack + around + 1) (token :: front ++ rest) =
          (closingParen? (roundBrackets above + around + 1) rest).map
            (· + (token :: front).length) := by
      intro inner hinner hfirst
      rw [List.cons_append, hfirst, ih hinner, Option.map_map]
      rfl
    by_cases hopens : token.kind.opens
    · refine hplace ((openBrackets_of_opens hopens).symm.trans h) ?_
      by_cases hround : token.kind = .lParen
      · rw [closingParen?_lParen _ _ hround, roundBrackets_of_lParen hround,
          Nat.add_right_comm _ 1 around]
      · rw [roundBrackets_of_ne hround]
        refine closingParen?_of_other hround (fun hclosing => ?_) _ _
        rw [hclosing] at hopens
        cases hopens
    by_cases hcloses : token.kind.closes
    · obtain ⟨innermost, outer, rfl, hmatch, hbehind⟩ := exists_of_closes hcloses h
      refine hplace hbehind ?_
      by_cases hround : token.kind = .rParen
      · rw [roundBrackets_of_lParen ((eq_lParen_iff_of_closer? hmatch).mpr hround),
          Nat.add_right_comm _ 1 around, closingParen?_rParen _ _ hround]
      · rw [roundBrackets_of_ne (mt (eq_lParen_iff_of_closer? hmatch).mp hround)]
        refine closingParen?_of_other (fun hopening => ?_) hround _ _
        rw [hopening] at hcloses
        cases hcloses
    · refine hplace ((openBrackets_of_plain hopens hcloses).symm.trans h) ?_
      apply closingParen?_of_other
      · intro hopening
        exact hopens (congrArg opens hopening)
      · intro hclosing
        exact hcloses (congrArg closes hclosing)

theorem groupLength_of_closed (hopens : opening.kind.opens) (hinside : ClosesAll [] inside)
    (hcloser : opening.kind.closer? = some closing.kind) (after : List Token) :
    groupLength 0 (opening :: (inside ++ closing :: after)) = inside.length + 2 := by
  have hcloses := closes_of_closer? hopens hcloser
  have hlast : groupLength 1 (closing :: after) = 1 := by
    simp [groupLength, not_opens_of_closes hcloses, hcloses]
  calc groupLength 0 (opening :: (inside ++ closing :: after))
      = 1 + groupLength 1 (inside ++ closing :: after) := groupLength_of_opens 0 hopens _
    _ = 1 + (inside.length + groupLength 1 (closing :: after)) :=
        congrArg (1 + ·) (groupLength_of_openBrackets 0 hinside _)
    _ = inside.length + 2 := by rw [hlast, Nat.add_comm]

theorem groupLength_of_closedAt {first last : Nat} (h : ClosedAt tokens first last) :
    first + groupLength 0 (tokens.drop first) = last + 1 := by
  obtain ⟨before, opening, inside, closing, after, rfl, rfl, rfl, hopens, hinside, hcloser⟩ := h
  rw [List.drop_left, groupLength_of_closed hopens hinside hcloser after, Nat.add_assoc]

/-- A bracket is closed by one bracket only. -/
theorem closedAt_unique {first last other : Nat} (h : ClosedAt tokens first last)
    (h' : ClosedAt tokens first other) : last = other :=
  Nat.succ.inj ((groupLength_of_closedAt h).symm.trans (groupLength_of_closedAt h'))

theorem groupLength_of_open (hopens : opening.kind.opens)
    (hrest : openBrackets [] rest = some above) :
    groupLength 0 (opening :: rest) = (opening :: rest).length := by
  have hinside : groupLength 1 (rest ++ []) = rest.length + 0 :=
    groupLength_of_openBrackets 0 hrest []
  rw [List.append_nil] at hinside
  rw [groupLength_of_opens 0 hopens, hinside, List.length_cons, Nat.add_comm]

theorem closingParen?_of_closed (hround : opening.kind = .lParen) (hinside : ClosesAll [] inside)
    (hcloser : opening.kind.closer? = some closing.kind) (after : List Token) :
    closingParen? 0 (opening :: (inside ++ closing :: after)) = some (inside.length + 1) := by
  have hclosing : closing.kind = .rParen := (eq_lParen_iff_of_closer? hcloser).mp hround
  have hlast : closingParen? 1 (closing :: after) = some 0 := by
    rw [closingParen?, hclosing]
    rfl
  calc closingParen? 0 (opening :: (inside ++ closing :: after))
      = (closingParen? 1 (inside ++ closing :: after)).map (· + 1) :=
        closingParen?_lParen _ 0 hround
    _ = ((closingParen? 1 (closing :: after)).map (· + inside.length)).map (· + 1) :=
        congrArg (Option.map (· + 1)) (closingParen?_of_openBrackets 0 hinside _)
    _ = some (inside.length + 1) := by rw [hlast, Option.map_some, Option.map_some, Nat.zero_add]

theorem closingParen?_of_open (hround : opening.kind = .lParen)
    (hrest : openBrackets [] rest = some above) : closingParen? 0 (opening :: rest) = none := by
  have hinside : closingParen? 1 (rest ++ []) = none :=
    closingParen?_of_openBrackets 0 hrest []
  rw [List.append_nil] at hinside
  rw [closingParen?_lParen _ 0 hround, hinside, Option.map_none]

theorem skipGroup_apply (s : State) :
    skipGroup s = (.ok (), s.advance (groupLength 0 s.rest)) :=
  rfl

theorem lParen_of_isAt {s : State} (hs : s.rest = opening :: rest) (hat : s.isAt .lParen) :
    opening.kind = .lParen := by
  rw [State.isAt, State.nthIs, hs] at hat
  exact eq_of_beq hat

/-- Round brackets begin a function type if an arrow stands behind what is passed over as their
group. -/
theorem startsFunctionType_eq_isAt_arrow {s : State} {first : Nat}
    (hs : s.rest = tokens.drop first) (hnested : NestedAt tokens first) (hat : s.isAt .lParen) :
    startsFunctionType s.rest = (skipGroup s).2.isAt .arrow := by
  have hbehind : (skipGroup s).2.isAt .arrow =
      s.rest[groupLength 0 s.rest]?.any (·.kind == .arrow) := by
    simp [skipGroup_apply, State.isAt, State.nthIs]
  rw [hbehind]
  by_cases hclosed : ∃ last, ClosedAt tokens first last
  · obtain ⟨_, before, opening, inside, closing, after, rfl, rfl, -, hopens, hinside, hcloser⟩ :=
      hclosed
    rw [List.drop_left] at hs
    have hround := lParen_of_isAt hs hat
    rw [startsFunctionType, hs, closingParen?_of_closed hround hinside hcloser after,
      groupLength_of_closed hopens hinside hcloser after]
  · obtain ⟨opening, rest, above, hfirst, hopens, habove⟩ :=
      hnested.open_of_never (not_exists.mp hclosed)
    rw [hfirst] at hs
    have hround := lParen_of_isAt hs hat
    rw [startsFunctionType, hs, closingParen?_of_open hround habove,
      groupLength_of_open hopens habove, List.getElem?_eq_none (Nat.le_refl _)]
    rfl

/-- The two measures of a properly nested group find the same end. Behind the group stands what
stands behind the bracket that closes it, and if it is a round group, then that bracket is the
one the search for the end of a parameter list finds. A group that is never closed reaches to
the end of the tokens. -/
theorem group_measures_agree {s : State} {first : Nat} (hs : s.rest = tokens.drop first)
    (hnested : NestedAt tokens first) :
    (∀ last, ClosedAt tokens first last →
      skipGroup s = (.ok (), s.advance (last + 1 - first)) ∧
        (skipGroup s).2.rest = tokens.drop (last + 1) ∧
        (s.isAt .lParen → (closingParen? 0 s.rest).map (first + ·) = some last)) ∧
    ((∀ last, ¬ ClosedAt tokens first last) →
      skipGroup s = (.ok (), s.advance s.rest.length) ∧ (skipGroup s).2.rest = [] ∧
        (s.isAt .lParen → closingParen? 0 s.rest = none)) := by
  constructor
  · intro last hclosed
    have hlength : first + groupLength 0 s.rest = last + 1 := by
      rw [hs]
      exact groupLength_of_closedAt hclosed
    refine ⟨?_, ?_, fun hat => ?_⟩
    · rw [skipGroup_apply, ← hlength, Nat.add_sub_cancel_left]
    · rw [skipGroup_apply, State.rest_advance, ← hlength, ← List.drop_drop, ← hs]
    · obtain ⟨before, opening, inside, closing, after, rfl, rfl, rfl, -, hinside, hcloser⟩ := hclosed
      rw [List.drop_left] at hs
      rw [hs, closingParen?_of_closed (lParen_of_isAt hs hat) hinside hcloser after,
        Option.map_some]
  · intro hnever
    obtain ⟨opening, rest, above, hfirst, hopens, habove⟩ := hnested.open_of_never hnever
    rw [hfirst] at hs
    have hlength : groupLength 0 s.rest = s.rest.length := by
      rw [hs]
      exact groupLength_of_open hopens habove
    refine ⟨?_, ?_, fun hat => ?_⟩
    · rw [skipGroup_apply, hlength]
    · rw [skipGroup_apply, hlength, State.rest_advance, List.drop_length]
    · rw [hs]
      exact closingParen?_of_open (lParen_of_isAt hs hat) habove

/-- A round group that is closed in front of a block, and the block, which is closed nowhere. The
braces are written by their code points. -/
theorem group_measures_agree_call :
    let s := State.ofSource "f([\x7b \x7d], (a)) \x7b ["
    (ClosedAt s.rest 1 10 ∧ (skipGroup (s.advance 1)).2.rest = s.rest.drop 11 ∧
      (closingParen? 0 (s.advance 1).rest).map (1 + ·) = some 10) ∧
    ((∀ last, ¬ ClosedAt s.rest 11 last) ∧ (skipGroup (s.advance 11)).2.rest = []) := by
  intro s
  have hround : ClosedAt s.rest 1 10 :=
    ⟨s.rest.take 1, s.rest[1]!, (s.rest.drop 2).take 8, s.rest[10]!, s.rest.drop 11,
      by decide +kernel⟩
  have hblock : s.rest.drop 11 = s.rest[11]! :: s.rest.drop 12 ∧ s.rest[11]!.kind.opens ∧
      openBrackets [] (s.rest.drop 12) = some (s.rest.drop 12) ∧
      (openBrackets [s.rest[11]!] (s.rest.drop 12)).isSome := by decide +kernel
  obtain ⟨hdrop, hopens, habove, hsome⟩ := hblock
  have hnever := not_closedAt_of_open hdrop habove
  have hat : (s.advance 1).isAt .lParen := by decide +kernel
  obtain ⟨hclosed, -⟩ := group_measures_agree (State.rest_advance s 1)
    ⟨s.rest[1]!, s.rest.drop 2, by decide +kernel, by decide +kernel, .inl ⟨10, hround⟩⟩
  obtain ⟨-, hopen⟩ := group_measures_agree (State.rest_advance s 11)
    ⟨_, _, hdrop, hopens, .inr hsome⟩
  obtain ⟨-, hrest, hparen⟩ := hclosed 10 hround
  exact ⟨⟨hround, hrest, hparen hat⟩, hnever, (hopen hnever).2.1⟩

end Parser

end

end DeclSchema
