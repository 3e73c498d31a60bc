import DeclSchema.Proofs.Parser.Nesting
import Mathlib.Data.List.Basic

/-!
# Tokens that other tokens follow

What is passed over is measured token by token, and no measure looks further than one
token behind what it measures. So a measure that ends before the tokens do is the same if
more tokens follow. Which measures do end before the tokens depends on what the tokens
end with, and on their brackets: those of statements are nested, angle brackets apart.
-/

namespace DeclSchema

namespace TokenKind

/-- Angle brackets are also used to compare, so that they need not be nested. -/
def isAngle : TokenKind → Bool
  | .lt | .gt => true
  | _ => false

theorem isAngle_iff {kind : TokenKind} : kind.isAngle ↔ kind = .lt ∨ kind = .gt := by
  cases kind <;> decide

theorem not_isAngle_of_opens {kind : TokenKind} (h : kind.opens) : ¬ kind.isAngle := by
  intro hangle
  rcases isAngle_iff.mp hangle with rfl | rfl <;> cases h

theorem not_isAngle_of_closes {kind : TokenKind} (h : kind.closes) : ¬ kind.isAngle := by
  intro hangle
  rcases isAngle_iff.mp hangle with rfl | rfl <;> cases h

end TokenKind

open TokenKind

/-- The last token is one that ends a statement. -/
def Ended (tokens : List Token) : Prop :=
  ∃ last ∈ tokens.getLast?, last.kind = .rBrace ∨ last.kind = .semicolon

/-- The brackets of the tokens are nested, angle brackets apart, and close what is
awaited. -/
def Bracketed (awaited : List TokenKind) (tokens : List Token) : Prop :=
  nests awaited ((tokens.map (·.kind)).filter (!·.isAngle))

/-- The end of some statements: brackets that were opened before it may be closed in
it. -/
structure Loose (tokens : List Token) : Prop where
  ended : Ended tokens
  bracketed : ∃ awaited, Bracketed awaited tokens

/-- Whether a type ends before a token of the kind, wherever types stand. -/
def TokenKind.stopsType : TokenKind → Bool
  | .semicolon | .comma | .rParen => true
  | _ => false

/-- The first token is one that a type ends before. -/
def StartsWithStop (tokens : List Token) : Prop :=
  ∃ first ∈ tokens.head?, first.kind.stopsType

/-- There is a last token, and it is not the word that may be a type or stand before one. -/
def EndsPlainly (tokens : List Token) : Prop :=
  ∃ last ∈ tokens.getLast?, last.word? ≠ some "readonly"

/-- A stretch whose end is seen although other tokens follow: at its own last token, or at the
first one behind it. -/
structure Parted (tail tokens : List Token) : Prop where
  ends : Ended tokens ∨ StartsWithStop tail ∧ EndsPlainly tokens
  bracketed : ∃ awaited, Bracketed awaited tokens

section

variable {awaited : List TokenKind} {token : Token} {tokens rest tail : List Token}

theorem Ended.ne_nil (h : Ended tokens) : tokens ≠ [] := by
  rintro rfl
  obtain ⟨last, hlast, -⟩ := h
  cases hlast

theorem getLast?_of_suffix (hsuffix : rest <:+ tokens) (hne : rest ≠ []) :
    rest.getLast? = tokens.getLast? := by
  obtain ⟨before, rfl⟩ := hsuffix
  exact (List.getLast?_append_of_ne_nil _ hne).symm

theorem Ended.of_suffix (h : Ended tokens) (hsuffix : rest <:+ tokens) (hne : rest ≠ []) :
    Ended rest := by
  obtain ⟨last, hlast, hkind⟩ := h
  exact ⟨last, getLast?_of_suffix hsuffix hne ▸ hlast, hkind⟩

/-- Another token than one that ends a statement is not the last one. -/
theorem Ended.of_cons (h : Ended (token :: rest)) (hbrace : token.kind ≠ .rBrace)
    (hsemicolon : token.kind ≠ .semicolon) : Ended rest := by
  refine h.of_suffix (List.suffix_cons token rest) ?_
  rintro rfl
  obtain ⟨last, hlast, hkind⟩ := h
  cases hlast
  exact hkind.elim hbrace hsemicolon

theorem Ended.succ_lt_length (h : Ended tokens) {i : Nat} (hi : tokens[i]? = some token)
    (hbrace : token.kind ≠ .rBrace) (hsemicolon : token.kind ≠ .semicolon) :
    i + 1 < tokens.length := by
  obtain ⟨hlt, htoken⟩ := List.getElem?_eq_some_iff.mp hi
  have hdrop : Ended (token :: tokens.drop (i + 1)) := by
    rw [← htoken, ← List.drop_eq_getElem_cons hlt]
    refine h.of_suffix (List.drop_suffix i tokens) (List.ne_nil_of_length_pos ?_)
    rw [List.length_drop]
    omega
  have hpos := List.length_pos_iff.mpr (hdrop.of_cons hbrace hsemicolon).ne_nil
  rw [List.length_drop] at hpos
  omega

theorem Sealed.ended (h : Sealed awaited tokens) : Ended tokens := by
  induction h with
  | brace hbrace => exact ⟨_, rfl, .inl hbrace⟩
  | token _ _ ih =>
    obtain ⟨last, hlast, hkind⟩ := ih
    exact ⟨last, List.mem_getLast?_cons hlast, hkind⟩

theorem SealedAt.ended {level : Nat} (h : SealedAt level tokens) : Ended tokens :=
  h.choose_spec.1.ended

theorem Bracketed.eq_nil (h : Bracketed awaited []) : awaited = [] :=
  List.isEmpty_iff.mp h

theorem Bracketed.of_angle (h : Bracketed awaited (token :: rest)) (hangle : token.kind.isAngle) :
    Bracketed awaited rest := by
  rwa [Bracketed, List.map_cons, List.filter_cons_of_neg (by simp [hangle])] at h

theorem Bracketed.of_not_angle (h : Bracketed awaited (token :: rest))
    (hangle : ¬ token.kind.isAngle) :
    ∃ awaited', awaitedBehind awaited token.kind = some awaited' ∧ Bracketed awaited' rest := by
  rw [Bracketed, List.map_cons, List.filter_cons_of_pos (by simp [hangle]), nests] at h
  cases hstep : awaitedBehind awaited token.kind with
  | none => simp [hstep] at h
  | some awaited' =>
    rw [hstep] at h
    exact ⟨awaited', rfl, h⟩

/-- A token that opens a group has its closing bracket awaited. -/
theorem Bracketed.of_opens (h : Bracketed awaited (token :: rest)) (hopen : token.kind.opens) :
    ∃ close, token.kind.closer? = some close ∧ Bracketed (close :: awaited) rest := by
  obtain ⟨awaited', hstep, hrest⟩ := h.of_not_angle (not_isAngle_of_opens hopen)
  obtain ⟨close, hcloser⟩ := exists_closer? (.inl hopen)
  rw [awaitedBehind_of_closer? hstep hcloser] at hrest
  exact ⟨close, hcloser, hrest⟩

/-- A token that closes a group is what is awaited next. -/
theorem Bracketed.of_closes (h : Bracketed awaited (token :: rest)) (hclose : token.kind.closes) :
    ∃ outer, awaited = token.kind :: outer ∧ Bracketed outer rest := by
  obtain ⟨awaited', hstep, hrest⟩ := h.of_not_angle (not_isAngle_of_closes hclose)
  exact ⟨awaited', awaitedBehind_of_isCloser hstep (isCloser_iff.mpr (.inl hclose)), hrest⟩

theorem Bracketed.of_neither (h : Bracketed awaited (token :: rest)) (hopen : ¬ token.kind.opens)
    (hclose : ¬ token.kind.closes) : Bracketed awaited rest := by
  by_cases hangle : token.kind.isAngle
  · exact h.of_angle hangle
  · obtain ⟨awaited', hstep, hrest⟩ := h.of_not_angle hangle
    obtain ⟨hlt, hgt⟩ := not_or.mp (mt isAngle_iff.mpr hangle)
    rwa [awaitedBehind_of_neither hstep (closer?_eq_none (not_or.mpr ⟨hopen, hlt⟩))
      (mt isCloser_iff.mp (not_or.mpr ⟨hclose, hgt⟩))] at hrest

theorem Bracketed.of_suffix (h : Bracketed awaited tokens) (hsuffix : rest <:+ tokens) :
    ∃ awaited, Bracketed awaited rest := by
  obtain ⟨before, rfl⟩ := hsuffix
  induction before generalizing awaited with
  | nil => exact ⟨awaited, h⟩
  | cons token before ih =>
    by_cases hangle : token.kind.isAngle
    · exact ih (h.of_angle hangle)
    · obtain ⟨awaited', -, hrest⟩ := h.of_not_angle hangle
      exact ih hrest

theorem Loose.of_suffix (h : Loose tokens) (hsuffix : rest <:+ tokens) (hne : rest ≠ []) :
    Loose rest where
  ended := h.ended.of_suffix hsuffix hne
  bracketed := h.bracketed.choose_spec.of_suffix hsuffix

theorem Loose.parted (h : Loose tokens) (tail : List Token) : Parted tail tokens where
  ends := .inl h.ended
  bracketed := h.bracketed

theorem EndsPlainly.ne_nil (h : EndsPlainly tokens) : tokens ≠ [] := by
  rintro rfl
  obtain ⟨last, hlast, -⟩ := h
  cases hlast

theorem Parted.ne_nil (h : Parted tail tokens) : tokens ≠ [] :=
  h.ends.elim Ended.ne_nil fun hstop => hstop.2.ne_nil

theorem Parted.of_suffix (h : Parted tail tokens) (hsuffix : rest <:+ tokens) (hne : rest ≠ []) :
    Parted tail rest where
  ends := by
    refine h.ends.imp (·.of_suffix hsuffix hne) ?_
    rintro ⟨hstop, last, hlast, hword⟩
    exact ⟨hstop, last, getLast?_of_suffix hsuffix hne ▸ hlast, hword⟩
  bracketed := h.bracketed.choose_spec.of_suffix hsuffix

/-- What is passed over has a last token that is no stop. -/
theorem Parted.loose (h : Parted tail tokens) (hstop : ¬ StartsWithStop tail) : Loose tokens where
  ended := h.ends.resolve_right fun hends => hstop hends.1
  bracketed := h.bracketed

end

namespace Parser

variable {awaited : List TokenKind} {tokens : List Token} {depth : Nat}

theorem groupLength_append_of_lt (tail : List Token)
    (h : groupLength depth tokens < tokens.length) :
    groupLength depth (tokens ++ tail) = groupLength depth tokens := by
  induction tokens generalizing depth with
  | nil => exact absurd h (Nat.not_lt_zero _)
  | cons token rest ih =>
    rw [groupLength, List.length_cons] at h
    rw [List.cons_append, groupLength, groupLength]
    grind

theorem malformedLength_append_of_lt (tail : List Token)
    (h : malformedLength depth tokens < tokens.length) :
    malformedLength depth (tokens ++ tail) = malformedLength depth tokens := by
  induction tokens generalizing depth with
  | nil => exact absurd h (Nat.not_lt_zero _)
  | cons token rest ih =>
    rw [malformedLength, List.length_cons] at h
    rw [List.cons_append, malformedLength, malformedLength]
    grind

theorem initializerLength_append_of_lt (ends : TokenKind → Bool) {first : Bool}
    (tail : List Token) (h : initializerLength ends first depth tokens < tokens.length) :
    initializerLength ends first depth (tokens ++ tail) =
      initializerLength ends first depth tokens := by
  induction tokens generalizing depth first with
  | nil => exact absurd h (Nat.not_lt_zero _)
  | cons token rest ih =>
    rw [initializerLength, List.length_cons] at h
    rw [List.cons_append, initializerLength, initializerLength]
    grind

theorem returnTypeLength_append_of_lt {withBody first : Bool} (tail : List Token)
    (h : returnTypeLength withBody first depth tokens < tokens.length) :
    returnTypeLength withBody first depth (tokens ++ tail) =
      returnTypeLength withBody first depth tokens := by
  induction tokens generalizing depth first with
  | nil => exact absurd h (Nat.not_lt_zero _)
  | cons token rest ih =>
    rw [returnTypeLength, List.length_cons] at h
    rw [List.cons_append, returnTypeLength, returnTypeLength]
    grind

theorem takeWhile_append_of_lt (separates : TokenKind → Bool) (tail : List Token)
    (h : (tokens.takeWhile (separates ·.kind)).length < tokens.length) :
    ((tokens ++ tail).takeWhile (separates ·.kind)).length =
      (tokens.takeWhile (separates ·.kind)).length := by
  induction tokens with
  | nil => exact absurd h (Nat.not_lt_zero _)
  | cons token rest ih =>
    rw [List.cons_append, List.takeWhile_cons, List.takeWhile_cons]
    by_cases hsep : separates token.kind
    · rw [List.takeWhile_cons, if_pos hsep, List.length_cons, List.length_cons] at h
      rw [if_pos hsep, if_pos hsep, List.length_cons, List.length_cons,
        ih (Nat.lt_of_succ_lt_succ h)]
    · rw [if_neg hsep, if_neg hsep]

theorem dottedLength_append_of_lt (tail : List Token)
    (h : dottedLength tokens < tokens.length) :
    dottedLength (tokens ++ tail) = dottedLength tokens := by
  induction tokens using dottedLength.induct with
  | case1 => exact absurd h (Nat.not_lt_zero _)
  | case2 token hword => simp [dottedLength, hword] at h
  | case3 token hword => cases tail <;> simp [dottedLength, hword]
  | case4 token point rest hword hdot ih =>
    simp only [dottedLength, hword, hdot, if_true, List.length_cons] at h
    simp only [List.cons_append, dottedLength, hword, hdot, if_true]
    rw [ih (by omega)]
  | case5 token point rest hword hdot => simp [dottedLength, hword, hdot]
  | case6 token point rest hword => simp [dottedLength, hword]

theorem decoratorLength_append_of_lt (tail : List Token)
    (h : decoratorLength tokens < tokens.length) :
    decoratorLength (tokens ++ tail) = decoratorLength tokens := by
  cases tokens with
  | nil => exact absurd h (Nat.not_lt_zero _)
  | cons token rest =>
    rw [List.cons_append]
    by_cases hat : token.kind = .atSign
    · rw [decoratorLength, if_pos hat] at h ⊢
      rw [decoratorLength, if_pos hat]
      dsimp only at h ⊢
      rw [List.length_cons] at h
      have hlt : dottedLength rest < rest.length := by omega
      rw [dottedLength_append_of_lt tail hlt, List.drop_append_of_le_length (Nat.le_of_lt hlt)]
      have hne : rest.drop (dottedLength rest) ≠ [] := by
        rw [← List.length_pos_iff, List.length_drop]
        omega
      rw [List.head?_append_of_ne_nil _ hne]
      by_cases hparen : (rest.drop (dottedLength rest)).head?.any (·.kind == .lParen)
      · rw [if_pos hparen] at h ⊢
        rw [if_pos hparen, groupLength_append_of_lt tail (by rw [List.length_drop]; omega)]
      · rw [if_neg hparen, if_neg hparen]
    · rw [decoratorLength, if_neg hat, decoratorLength, if_neg hat]

/-- The bound on the number of decorators is not reached. -/
theorem decoratorsUpTo_append_of_lt (tail : List Token) {m n : Nat} (hm : tokens.length ≤ m)
    (hn : tokens.length ≤ n) (h : decoratorsUpTo n tokens < tokens.length) :
    decoratorsUpTo m (tokens ++ tail) = decoratorsUpTo n tokens := by
  induction n generalizing tokens m with
  | zero => exact absurd (Nat.lt_of_lt_of_le h hn) (Nat.not_lt_zero _)
  | succ n ih =>
    obtain ⟨m, rfl⟩ := Nat.exists_eq_add_one_of_ne_zero
      (Nat.ne_of_gt (Nat.lt_of_lt_of_le (Nat.zero_lt_of_lt h) hm))
    by_cases hzero : decoratorLength tokens = 0
    · have hsame := decoratorLength_append_of_lt tail (hzero ▸ Nat.zero_lt_of_lt h)
      rw [decoratorsUpTo_of_eq_zero _ hzero, decoratorsUpTo_of_eq_zero _ (hsame.trans hzero)]
    · rw [decoratorsUpTo_of_ne_zero _ hzero] at h ⊢
      have hsame := decoratorLength_append_of_lt tail (Nat.lt_of_le_of_lt (Nat.le_add_right ..) h)
      have hlength := List.length_drop (i := decoratorLength tokens) (l := tokens)
      rw [decoratorsUpTo_of_ne_zero _ (hsame ▸ hzero), hsame,
        List.drop_append_of_le_length (by omega), ih (by omega) (by omega) (by omega)]

theorem decoratorsLength_append_of_lt (tail : List Token)
    (h : decoratorsLength tokens < tokens.length) :
    decoratorsLength (tokens ++ tail) = decoratorsLength tokens :=
  decoratorsUpTo_append_of_lt tail (by simp) (Nat.le_refl _) h

theorem readonlyLength_append {tail : List Token} (h : Parted tail tokens) :
    readonlyLength (tokens ++ tail) = readonlyLength tokens := by
  induction tokens using readonlyLength.induct with
  | case1 token following rest hword ih =>
    have hrest := h.of_suffix (List.suffix_cons token (following :: rest)) (List.cons_ne_nil _ _)
    rw [List.cons_append, List.cons_append, readonlyLength, if_pos hword, readonlyLength,
      if_pos hword, ← List.cons_append, ih hrest]
  | case2 token following rest hword =>
    rw [List.cons_append, List.cons_append, readonlyLength, if_neg hword, readonlyLength,
      if_neg hword]
  | case3 tokens hshort =>
    obtain _ | ⟨token, _ | ⟨following, rest⟩⟩ := tokens
    · exact absurd rfl h.ne_nil
    · have hword : token.word? ≠ some "readonly" := by
        rcases h.ends with ⟨last, hlast, hkind⟩ | ⟨-, last, hlast, hword⟩
        · obtain rfl : token = last := by simpa using hlast
          have hkind : token.kind ≠ .word := by
            rcases hkind with hkind | hkind <;> simp [hkind]
          rw [Token.word?_eq_none_iff.mpr hkind]
          exact (Option.some_ne_none _).symm
        · cases hlast
          exact hword
      cases tail with
      | nil => rfl
      | cons following tail => simp [readonlyLength, hword]
    · exact (hshort _ _ _ rfl).elim

theorem statementLength_append_of_lt {first : Bool} (tail : List Token)
    (h : statementLength first depth tokens < tokens.length) :
    statementLength first depth (tokens ++ tail) = statementLength first depth tokens := by
  induction tokens generalizing depth first with
  | nil => exact absurd h (Nat.not_lt_zero _)
  | cons token rest ih =>
    rw [statementLength, List.length_cons] at h
    rw [List.cons_append, statementLength, statementLength]
    have hnext : ∀ {depth : Nat}, 1 + statementLength false depth rest < rest.length + 1 →
        1 + statementLength false depth (rest ++ tail) = 1 + statementLength false depth rest :=
      fun hlt => congrArg (1 + ·) (ih (by omega))
    by_cases hstop : depth = 0 && !first && token.newlineBefore &&
        token.word?.any statementWords.contains
    · rw [if_pos hstop, if_pos hstop]
    rw [if_neg hstop] at h ⊢
    rw [if_neg hstop]
    by_cases hopen : token.kind.opens
    · rw [if_pos hopen] at h ⊢
      rw [if_pos hopen, hnext h]
    rw [if_neg hopen] at h ⊢
    rw [if_neg hopen]
    by_cases hzero : depth = 0
    · rw [if_pos hzero] at h ⊢
      rw [if_pos hzero]
      split at h
      · rfl
      · rfl
      · rw [hnext h]
    rw [if_neg hzero] at h ⊢
    rw [if_neg hzero]
    by_cases hclose : token.kind.closes
    · rw [if_pos hclose] at h ⊢
      rw [if_pos hclose]
      by_cases hblock : depth = 1 && token.kind = .rBrace
      · rw [if_pos hblock] at h ⊢
        rw [if_pos hblock, List.head?_append_of_ne_nil rest (List.ne_nil_of_length_pos (by omega))]
      · rw [if_neg hblock] at h ⊢
        rw [if_neg hblock, hnext h]
    · rw [if_neg hclose] at h ⊢
      rw [if_neg hclose, hnext h]

theorem groupLength_append_of_bracketed (h : Bracketed awaited tokens)
    (hdepth : depth < awaited.length) (tail : List Token) :
    groupLength (depth + 1) (tokens ++ tail) = groupLength (depth + 1) tokens := by
  induction tokens generalizing awaited depth with
  | nil =>
    rw [h.eq_nil] at hdepth
    exact absurd hdepth (Nat.not_lt_zero _)
  | cons token rest ih =>
    rw [List.cons_append, groupLength, groupLength]
    by_cases hopen : token.kind.opens
    · obtain ⟨close, -, hrest⟩ := h.of_opens hopen
      rw [if_pos hopen, if_neg (Nat.succ_ne_zero _), if_neg (Nat.succ_ne_zero _),
        ih hrest (Nat.succ_lt_succ hdepth)]
    · by_cases hclose : token.kind.closes
      · obtain ⟨outer, rfl, hrest⟩ := h.of_closes hclose
        rw [if_neg hopen, if_pos hclose]
        cases depth with
        | zero => rfl
        | succ depth =>
          rw [Nat.add_sub_cancel, if_neg (Nat.succ_ne_zero _), if_neg (Nat.succ_ne_zero _),
            ih hrest (Nat.lt_of_succ_lt_succ hdepth)]
      · rw [if_neg hopen, if_neg hclose, if_neg (Nat.succ_ne_zero _),
          if_neg (Nat.succ_ne_zero _), ih (h.of_neither hopen hclose) hdepth]

theorem groupLength_append_of_loose {token : Token} {rest : List Token}
    (h : Loose (token :: rest)) (hopen : token.kind.opens) (tail : List Token) :
    groupLength 0 (token :: rest ++ tail) = groupLength 0 (token :: rest) := by
  obtain ⟨awaited, hawaited⟩ := h.bracketed
  obtain ⟨close, -, hgroup⟩ := hawaited.of_opens hopen
  rw [List.cons_append, groupLength, groupLength, if_pos hopen, if_neg (Nat.succ_ne_zero _),
    if_neg (Nat.succ_ne_zero _), groupLength_append_of_bracketed hgroup (Nat.succ_pos _)]

theorem groupLength_le (depth : Nat) (tokens : List Token) :
    groupLength depth tokens ≤ tokens.length := by
  induction tokens generalizing depth with
  | nil => exact Nat.le_refl 0
  | cons token rest ih =>
    have hrest : ∀ inner : Nat,
        (if inner = 0 then 1 else 1 + groupLength inner rest) ≤ rest.length + 1 := fun inner => by
      have := ih inner
      split <;> omega
    rw [groupLength, List.length_cons]
    exact hrest _

/-- A group that a brace does not close ends before the tokens do. -/
theorem groupLength_lt {inner outer : List TokenKind} {close : TokenKind} (hended : Ended tokens)
    (h : Bracketed (inner ++ close :: outer) tokens)
    (hclose : close ≠ .rBrace ∧ close ≠ .semicolon) :
    groupLength (inner.length + 1) tokens < tokens.length := by
  induction tokens generalizing inner with
  | nil => exact absurd rfl hended.ne_nil
  | cons token rest ih =>
    have hrest : ∀ inner : List TokenKind, Bracketed (inner ++ close :: outer) rest →
        groupLength (inner.length + 1) rest < rest.length := by
      intro inner hbracketed
      refine ih (hended.of_suffix (List.suffix_cons token rest) ?_) hbracketed
      rintro rfl
      exact absurd hbracketed.eq_nil (by simp)
    rw [groupLength, List.length_cons]
    by_cases hopen : token.kind.opens
    · obtain ⟨close', -, hbracketed⟩ := h.of_opens hopen
      have := hrest (close' :: inner) hbracketed
      rw [if_pos hopen, if_neg (Nat.succ_ne_zero _)]
      rw [List.length_cons] at this
      omega
    · by_cases hcloses : token.kind.closes
      · obtain ⟨awaited', hawaited, hbracketed⟩ := h.of_closes hcloses
        rw [if_neg hopen, if_pos hcloses]
        cases inner with
        | nil =>
          obtain ⟨rfl, rfl⟩ := List.cons.inj hawaited
          have := List.length_pos_iff.mpr (hended.of_cons hclose.1 hclose.2).ne_nil
          rw [List.length_nil, if_pos rfl]
          omega
        | cons next inner =>
          obtain ⟨rfl, rfl⟩ := List.cons.inj hawaited
          have := hrest inner hbracketed
          rw [List.length_cons, Nat.add_sub_cancel, if_neg (Nat.succ_ne_zero _)]
          omega
      · have := hrest inner (h.of_neither hopen hcloses)
        rw [if_neg hopen, if_neg hcloses, if_neg (Nat.succ_ne_zero _)]
        omega

theorem dottedLength_lt (h : Ended tokens) : dottedLength tokens < tokens.length := by
  induction tokens using dottedLength.induct with
  | case1 => exact absurd rfl h.ne_nil
  | case2 token hword => exact absurd rfl (h.of_cons (by simp [hword]) (by simp [hword])).ne_nil
  | case3 token hword => simp [dottedLength, hword]
  | case4 token point rest hword hdot ih =>
    have hpoint := h.of_cons (by simp [hword]) (by simp [hword])
    have := ih (hpoint.of_cons (by simp [hdot]) (by simp [hdot]))
    rw [dottedLength, if_pos hword, if_pos hdot, List.length_cons, List.length_cons]
    omega
  | case5 token point rest hword hdot => simp [dottedLength, hword, hdot]
  | case6 token point rest hword => simp [dottedLength, hword]

theorem decoratorLength_lt (h : Loose tokens) : decoratorLength tokens < tokens.length := by
  cases tokens with
  | nil => exact absurd rfl h.ended.ne_nil
  | cons token rest =>
    by_cases hat : token.kind = .atSign
    · have hended := h.ended.of_cons (by simp [hat]) (by simp [hat])
      have hlt := dottedLength_lt hended
      have hbehind : Loose (rest.drop (dottedLength rest)) :=
        h.of_suffix ((List.drop_suffix _ rest).trans (List.suffix_cons token rest))
          (by rw [← List.length_pos_iff, List.length_drop]; omega)
      have hlength := List.length_drop (i := dottedLength rest) (l := rest)
      rw [decoratorLength, if_pos hat, List.length_cons]
      dsimp only
      generalize rest.drop (dottedLength rest) = behind at hbehind hlength ⊢
      split
      · next hparen =>
        obtain ⟨first, arguments, rfl⟩ := List.exists_cons_of_ne_nil hbehind.ended.ne_nil
        have hkind : first.kind = .lParen := by simpa using hparen
        obtain ⟨awaited, hawaited⟩ := hbehind.bracketed
        obtain ⟨close, hclose, hgroup⟩ := hawaited.of_opens (by simp [hkind, opens])
        obtain rfl : close = .rParen := by simpa [hkind, closer?, eq_comm] using hclose
        have hended := hbehind.ended.of_cons (by simp [hkind]) (by simp [hkind])
        have hgroup' : Bracketed ([] ++ .rParen :: awaited) arguments := hgroup
        have hlast := groupLength_lt hended hgroup' (by decide)
        have hopens : first.kind.opens := by simp [hkind, opens]
        rw [groupLength, if_pos hopens, if_neg (Nat.succ_ne_zero _)]
        rw [List.length_cons] at hlength
        rw [List.length_nil] at hlast
        omega
      · omega
    · rw [decoratorLength, if_neg hat]
      exact Nat.succ_pos _

theorem decoratorsUpTo_lt (count : Nat) (h : Loose tokens) :
    decoratorsUpTo count tokens < tokens.length := by
  induction count generalizing tokens with
  | zero => exact List.length_pos_iff.mpr h.ended.ne_nil
  | succ count ih =>
    by_cases hzero : decoratorLength tokens = 0
    · rw [decoratorsUpTo_of_eq_zero _ hzero]
      exact List.length_pos_iff.mpr h.ended.ne_nil
    · have hlt := decoratorLength_lt h
      have hlength := List.length_drop (i := decoratorLength tokens) (l := tokens)
      have := ih (h.of_suffix (List.drop_suffix (decoratorLength tokens) tokens)
        (by rw [← List.length_pos_iff]; omega))
      rw [decoratorsUpTo_of_ne_zero _ hzero]
      omega

/-- The first token is a word. -/
def StartsWithWord (tokens : List Token) : Prop :=
  ∃ first ∈ tokens.head?, first.kind = .word

/-- What is passed over as a statement ends with the brackets, and does not go on with a
word that comes next. -/
theorem statementLength_append_of_bracketed {tail : List Token} (hword : StartsWithWord tail)
    {first : Bool} (hended : Ended tokens) (h : Bracketed awaited tokens)
    (hdepth : depth ≤ awaited.length) :
    statementLength first depth (tokens ++ tail) = statementLength first depth tokens := by
  induction tokens generalizing awaited depth first with
  | nil => exact absurd rfl hended.ne_nil
  | cons token rest ih =>
    have hrest : ∀ {awaited : List TokenKind} {depth : Nat}, Ended rest → Bracketed awaited rest →
        depth ≤ awaited.length → 1 + statementLength false depth (rest ++ tail) =
          1 + statementLength false depth rest := fun hended hbracketed hle =>
      congrArg (1 + ·) (ih hended hbracketed hle)
    -- Where something is awaited, the token is not the last one.
    have hawaits : ∀ {awaited : List TokenKind}, Bracketed awaited rest → 0 < awaited.length →
        Ended rest := by
      intro awaited hbracketed hpos
      refine hended.of_suffix (List.suffix_cons token rest) ?_
      rintro rfl
      rw [hbracketed.eq_nil] at hpos
      exact Nat.lt_irrefl 0 hpos
    rw [List.cons_append, statementLength, statementLength]
    split
    · rfl
    split
    · next hopen =>
      obtain ⟨close, -, hbracketed⟩ := h.of_opens hopen
      exact hrest (hawaits hbracketed (Nat.succ_pos _)) hbracketed (Nat.succ_le_succ hdepth)
    next hopen =>
    split
    · split
      · rfl
      · rfl
      · next hbrace hsemicolon =>
        have hended := hended.of_cons hbrace hsemicolon
        by_cases hclose : token.kind.closes
        · obtain ⟨outer, -, hbracketed⟩ := h.of_closes hclose
          exact hrest hended hbracketed (Nat.zero_le _)
        · exact hrest hended (h.of_neither hopen hclose) (Nat.zero_le _)
    next hzero =>
    split
    · next hclose =>
      obtain ⟨outer, rfl, hbracketed⟩ := h.of_closes hclose
      rw [List.length_cons] at hdepth
      split
      · cases rest with
        | nil =>
          obtain ⟨next, hnext, hkind⟩ := hword
          rw [List.nil_append, Option.mem_def.mp hnext]
          simp [hkind]
        | cons second rest => rfl
      · next hblock =>
        refine hrest ?_ hbracketed (Nat.sub_le_of_le_add hdepth)
        by_cases hbrace : token.kind = .rBrace
        · have hone : depth ≠ 1 := by simpa [hbrace] using hblock
          exact hawaits hbracketed (by omega)
        · exact hended.of_cons hbrace fun hkind => by simp [hkind, closes] at hclose
    · next hclose =>
      have hbracketed := h.of_neither hopen hclose
      exact hrest (hawaits hbracketed (Nat.lt_of_lt_of_le (Nat.pos_of_ne_zero hzero) hdepth))
        hbracketed hdepth

theorem statementLength_append_of_loose {tail : List Token} (hword : StartsWithWord tail)
    (h : Loose tokens) :
    statementLength true 0 (tokens ++ tail) = statementLength true 0 tokens := by
  obtain ⟨awaited, hawaited⟩ := h.bracketed
  exact statementLength_append_of_bracketed hword h.ended hawaited (Nat.zero_le _)

theorem statementLength_le (first : Bool) (depth : Nat) (tokens : List Token) :
    statementLength first depth tokens ≤ tokens.length := by
  induction tokens generalizing first depth with
  | nil => exact Nat.le_refl 0
  | cons token rest ih =>
    have hrest : ∀ depth, 1 + statementLength false depth rest ≤ rest.length + 1 := fun depth => by
      have := ih false depth
      omega
    rw [statementLength, List.length_cons]
    split
    · exact Nat.zero_le _
    split
    · exact hrest _
    split
    · split
      · exact Nat.zero_le _
      · omega
      · exact hrest 0
    split
    · split
      · cases rest with
        | nil => exact Nat.le_refl 1
        | cons second rest =>
          rw [List.length_cons]
          split <;> omega
      · exact hrest _
    · exact hrest _

theorem closingParen?_of_other {token : Token} (hopen : token.kind ≠ .lParen)
    (hclose : token.kind ≠ .rParen) (depth : Nat) (rest : List Token) :
    closingParen? depth (token :: rest) = (closingParen? depth rest).map (· + 1) := by
  rw [closingParen?]
  split
  · next hkind => exact absurd hkind hopen
  · next hkind => exact absurd hkind hclose
  · rfl

/-- The round bracket that closes a group is among the tokens, whatever follows. -/
theorem closingParen?_append_of_bracketed (h : Bracketed awaited tokens)
    (hdepth : depth < awaited.count .rParen) (tail : List Token) :
    ∃ count, closingParen? (depth + 1) (tokens ++ tail) = some count ∧
      closingParen? (depth + 1) tokens = some count ∧
      ∃ token, tokens[count]? = some token ∧ token.kind = .rParen := by
  induction tokens generalizing awaited depth with
  | nil =>
    rw [h.eq_nil] at hdepth
    exact absurd hdepth (Nat.not_lt_zero _)
  | cons token rest ih =>
    have hother : ∀ {awaited' : List TokenKind}, token.kind ≠ .lParen → token.kind ≠ .rParen →
        Bracketed awaited' rest → awaited'.count .rParen = awaited.count .rParen →
        ∃ count, closingParen? (depth + 1) (token :: rest ++ tail) = some count ∧
          closingParen? (depth + 1) (token :: rest) = some count ∧
          ∃ found, (token :: rest)[count]? = some found ∧ found.kind = .rParen := by
      intro awaited' hopen hclose hbracketed hcount
      rw [← hcount] at hdepth
      obtain ⟨count, hlonger, hshorter, hfound⟩ := ih hbracketed hdepth
      refine ⟨count + 1, ?_, ?_, hfound⟩
      · rw [List.cons_append, closingParen?_of_other hopen hclose, hlonger]
        rfl
      · rw [closingParen?_of_other hopen hclose, hshorter]
        rfl
    by_cases hopen : token.kind.opens
    · obtain ⟨close, hcloser, hbracketed⟩ := h.of_opens hopen
      by_cases hparen : token.kind = .lParen
      · obtain rfl : close = .rParen := by simpa [hparen, closer?, eq_comm] using hcloser
        have hcount : depth + 1 < (TokenKind.rParen :: awaited).count .rParen := by
          rw [List.count_cons_self]
          exact Nat.succ_lt_succ hdepth
        obtain ⟨count, hlonger, hshorter, hfound⟩ := ih hbracketed hcount
        exact ⟨count + 1, by simp [closingParen?, hparen, hlonger],
          by simp [closingParen?, hparen, hshorter], hfound⟩
      · refine hother hparen (by rintro hkind; simp [hkind, opens] at hopen) hbracketed ?_
        exact List.count_cons_of_ne (mt (eq_lParen_iff_of_closer? hcloser).mpr hparen)
    · by_cases hclose : token.kind.closes
      · obtain ⟨outer, rfl, hbracketed⟩ := h.of_closes hclose
        by_cases hparen : token.kind = .rParen
        · cases depth with
          | zero =>
            exact ⟨0, by simp [closingParen?, hparen], by simp [closingParen?, hparen], token, rfl,
              hparen⟩
          | succ depth =>
            rw [hparen, List.count_cons_self] at hdepth
            have hcount := Nat.lt_of_succ_lt_succ hdepth
            obtain ⟨count, hlonger, hshorter, hfound⟩ := ih hbracketed hcount
            exact ⟨count + 1, by simp [closingParen?, hparen, hlonger],
              by simp [closingParen?, hparen, hshorter], hfound⟩
        · exact hother (by rintro hkind; simp [hkind, closes] at hclose) hparen hbracketed
            (List.count_cons_of_ne hparen).symm
      · refine hother (by rintro hkind; simp [hkind, opens] at hopen)
          (by rintro hkind; simp [hkind, closes] at hclose) (h.of_neither hopen hclose) rfl

/-- Neither does an arrow stand behind the tokens of a stretch: they do not end with a round
bracket, or something else comes next. -/
theorem startsFunctionType_append_of_parted {token : Token} {rest tail : List Token}
    (h : Parted tail (token :: rest)) (hkind : token.kind = .lParen) :
    startsFunctionType (token :: (rest ++ tail)) = startsFunctionType (token :: rest) := by
  obtain ⟨awaited, hbracketed⟩ := h.bracketed
  obtain ⟨close, hcloser, hrest⟩ := hbracketed.of_opens (by simp [hkind, opens])
  obtain rfl : close = .rParen := by simpa [hkind, closer?, eq_comm] using hcloser
  obtain ⟨count, hlonger, hshorter, found, hfound, hparen⟩ :=
    closingParen?_append_of_bracketed hrest
      (by rw [List.count_cons_self]; exact Nat.succ_pos _) tail
  simp only [startsFunctionType, closingParen?, hkind, Nat.zero_add] at *
  rw [hlonger, hshorter]
  simp only [Option.map_some, List.getElem?_cons_succ]
  have hlt := (List.getElem?_eq_some_iff.mp hfound).1
  by_cases hlast : count + 1 < rest.length
  · rw [List.getElem?_append_left hlast]
  · rcases h.ends with hended | ⟨⟨first, hfirst, hstop⟩, -⟩
    · have := (hended.of_suffix (List.suffix_cons token rest)
        (List.ne_nil_of_length_pos (by omega))).succ_lt_length hfound (by simp [hparen])
        (by simp [hparen])
      omega
    · have hnone : rest[count + 1]? = none := List.getElem?_eq_none (by omega)
      have hzero : count + 1 - rest.length = 0 := by omega
      have harrow : first.kind ≠ .arrow := by
        intro hkind
        rw [hkind] at hstop
        cases hstop
      rw [List.getElem?_append_right (by omega), hnone, hzero, ← List.head?_eq_getElem?,
        Option.mem_def.mp hfirst]
      simpa using harrow

end Parser

end DeclSchema
