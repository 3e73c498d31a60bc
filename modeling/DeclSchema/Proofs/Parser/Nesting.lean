import DeclSchema.Parser.Skip

/-!
# Brackets that close each other

The brackets of a text are nested if each closing bracket closes the last one that is
still open. A list of tokens is `Sealed` if it is nested up to a brace that closes
nothing, and ends with it; the brackets that are open already are given by what is
awaited.

Everything that is passed over is measured by counting brackets, some measures counting
fewer kinds than others. On sealed tokens none of them goes past the last brace or takes
a brace that closes a group it has not opened: `SealedAt` keeps the number of braces
awaited. Nor does any of them look behind the last brace, so that it measures the same
if more tokens follow.
-/

namespace DeclSchema

namespace TokenKind

/-- The bracket that closes what a bracket opens. Angle brackets are among them. -/
def closer? : TokenKind → Option TokenKind
  | .lParen => some .rParen
  | .lBracket => some .rBracket
  | .lBrace => some .rBrace
  | .lt => some .gt
  | _ => none

/-- Whether a bracket closes something. -/
def isCloser : TokenKind → Bool
  | .rParen | .rBracket | .rBrace | .gt => true
  | _ => false

section

variable {opening close kind : TokenKind}

theorem isSome_closer?_iff : kind.closer?.isSome ↔ kind.opens ∨ kind = .lt := by
  cases kind <;> decide

theorem isCloser_iff : kind.isCloser ↔ kind.closes ∨ kind = .gt := by
  cases kind <;> decide

theorem exists_closer? (h : kind.opens ∨ kind = .lt) : ∃ close, kind.closer? = some close :=
  Option.isSome_iff_exists.mp (isSome_closer?_iff.mpr h)

theorem closer?_eq_none (h : ¬ (kind.opens ∨ kind = .lt)) : kind.closer? = none :=
  Option.not_isSome_iff_eq_none.mp (mt isSome_closer?_iff.mp h)

theorem closes_of_closer? (hopens : opening.opens) (hmatch : opening.closer? = some close) :
    close.closes := by
  cases opening <;> cases hopens <;> cases hmatch <;> rfl

/-- Round brackets, and nothing else, are closed by round brackets. -/
theorem eq_lParen_iff_of_closer? (h : opening.closer? = some close) :
    opening = .lParen ↔ close = .rParen := by
  cases opening <;> cases h <;> decide

end

/-- The closing brackets awaited behind a token, the next one first. There are none where
the token closes something else than what is open. -/
def awaitedBehind (awaited : List TokenKind) (kind : TokenKind) : Option (List TokenKind) :=
  match kind.closer? with
  | some close => some (close :: awaited)
  | none =>
    if kind.isCloser then
      match awaited with
      | [] => none
      | close :: outer => if close = kind then some outer else none
    else
      some awaited

/-- Whether the brackets are nested, and close all that is awaited. -/
def nests (awaited : List TokenKind) : List TokenKind → Bool
  | [] => awaited.isEmpty
  | kind :: rest =>
    match awaitedBehind awaited kind with
    | none => false
    | some awaited => nests awaited rest

end TokenKind

open TokenKind

/-- The tokens close what is awaited, and one brace more, which is the last of them. -/
inductive Sealed : List TokenKind → List Token → Prop
  | brace {token : Token} : token.kind = .rBrace → Sealed [] [token]
  | token {awaited awaited' : List TokenKind} {token : Token} {rest : List Token} :
    awaitedBehind awaited token.kind = some awaited' → Sealed awaited' rest →
      Sealed awaited (token :: rest)

/-- The tokens are sealed, and so many of the brackets awaited are braces. -/
def SealedAt (level : Nat) (tokens : List Token) : Prop :=
  ∃ awaited, Sealed awaited tokens ∧ awaited.count .rBrace = level

section

variable {awaited : List TokenKind} {first : Token} {rest : List Token} {level : Nat}

theorem sealed_of_nests {tokens : List Token} {brace : Token}
    (h : nests awaited (tokens.map (·.kind))) (hbrace : brace.kind = .rBrace) :
    Sealed awaited (tokens ++ [brace]) := by
  induction tokens generalizing awaited with
  | nil =>
    have hawaited : awaited = [] := List.isEmpty_iff.mp h
    rw [hawaited]
    exact .brace hbrace
  | cons token tokens ih =>
    simp only [List.map_cons, nests] at h
    cases hstep : awaitedBehind awaited token.kind with
    | none => simp [hstep] at h
    | some awaited' =>
      rw [hstep] at h
      exact .token hstep (ih h)

theorem Sealed.ne_nil {tokens : List Token} (h : Sealed awaited tokens) : tokens ≠ [] := by
  cases h <;> simp

theorem SealedAt.ne_nil {tokens : List Token} (h : SealedAt level tokens) : tokens ≠ [] :=
  h.choose_spec.1.ne_nil

/-- A token other than a brace is not the last one. -/
theorem Sealed.of_cons (h : Sealed awaited (first :: rest)) (hkind : first.kind ≠ .rBrace) :
    ∃ awaited', awaitedBehind awaited first.kind = some awaited' ∧ Sealed awaited' rest := by
  cases h with
  | brace hbrace => exact absurd hbrace hkind
  | token hstep hrest => exact ⟨_, hstep, hrest⟩

/-- A closing brace is the last token, or it closes what is awaited next. -/
theorem Sealed.of_rBrace (h : Sealed awaited (first :: rest)) (hkind : first.kind = .rBrace) :
    awaited = [] ∧ rest = [] ∨ ∃ outer, awaited = .rBrace :: outer ∧ Sealed outer rest := by
  cases h with
  | brace hbrace => exact .inl ⟨rfl, rfl⟩
  | token hstep hrest =>
    refine .inr ?_
    rw [hkind] at hstep
    cases awaited with
    | nil => simp [awaitedBehind, closer?, isCloser] at hstep
    | cons close outer =>
      by_cases hclose : close = .rBrace
      · subst hclose
        simp only [awaitedBehind, closer?, isCloser, if_true, Option.some.injEq] at hstep
        exact ⟨outer, rfl, hstep ▸ hrest⟩
      · simp [awaitedBehind, closer?, isCloser, hclose] at hstep

theorem SealedAt.kind_of_singleton (h : SealedAt level [first]) : first.kind = .rBrace := by
  obtain ⟨awaited, hsealed, -⟩ := h
  cases hsealed with
  | brace hbrace => exact hbrace
  | token _ hrest => exact absurd rfl hrest.ne_nil

/-- Reading a token that is no brace keeps the level. -/
theorem SealedAt.of_cons (h : SealedAt level (first :: rest)) (hopen : first.kind ≠ .lBrace)
    (hclose : first.kind ≠ .rBrace) : SealedAt level rest := by
  obtain ⟨awaited, hsealed, hlevel⟩ := h
  obtain ⟨awaited', hstep, hrest⟩ := hsealed.of_cons hclose
  refine ⟨awaited', hrest, ?_⟩
  rw [← hlevel]
  unfold awaitedBehind at hstep
  generalize first.kind = kind at *
  cases kind <;> simp_all [closer?, isCloser] <;> grind

theorem SealedAt.of_lBrace (h : SealedAt level (first :: rest)) (hkind : first.kind = .lBrace) :
    SealedAt (level + 1) rest := by
  obtain ⟨awaited, hsealed, hlevel⟩ := h
  obtain ⟨awaited', hstep, hrest⟩ := hsealed.of_cons (by simp [hkind])
  refine ⟨awaited', hrest, ?_⟩
  rw [hkind] at hstep
  simp only [awaitedBehind, closer?, Option.some.injEq] at hstep
  rw [← hstep, List.count_cons_self, hlevel]

theorem SealedAt.of_rBrace (h : SealedAt (level + 1) (first :: rest))
    (hkind : first.kind = .rBrace) : SealedAt level rest := by
  obtain ⟨awaited, hsealed, hlevel⟩ := h
  rcases hsealed.of_rBrace hkind with ⟨rfl, -⟩ | ⟨outer, rfl, hrest⟩
  · simp at hlevel
  · rw [List.count_cons_self] at hlevel
    exact ⟨outer, hrest, by omega⟩

/-- Where no brace is awaited, a closing brace is the last token. -/
theorem SealedAt.eq_nil_of_rBrace (h : SealedAt 0 (first :: rest))
    (hkind : first.kind = .rBrace) : rest = [] := by
  obtain ⟨awaited, hsealed, hlevel⟩ := h
  rcases hsealed.of_rBrace hkind with ⟨-, hrest⟩ | ⟨outer, rfl, -⟩
  · exact hrest
  · simp at hlevel

end

/-- The innermost `depth` of the brackets that are counted are awaited before all else,
and behind them so many braces as the level says. -/
def Covers (counted : TokenKind → Bool) (level : Nat) : Nat → List TokenKind → Prop
  | 0, awaited => awaited.count .rBrace = level
  | _ + 1, [] => False
  | depth + 1, close :: outer =>
    if counted close then Covers counted level depth outer
    else Covers counted level (depth + 1) outer

section

variable {counted : TokenKind → Bool} {level depth : Nat} {awaited awaited' : List TokenKind}
  {kind close : TokenKind}

theorem covers_zero : Covers counted level 0 awaited ↔ awaited.count .rBrace = level := by
  simp [Covers]

theorem covers_counted (h : counted close) :
    Covers counted level (depth + 1) (close :: awaited) ↔ Covers counted level depth awaited := by
  simp [Covers, h]

theorem covers_free (h : ¬ counted close) (hclose : close ≠ .rBrace) :
    Covers counted level depth (close :: awaited) ↔ Covers counted level depth awaited := by
  cases depth with
  | zero => simp [Covers, hclose]
  | succ depth => simp [Covers, h]

theorem covers_succ_free (h : ¬ counted close) :
    Covers counted level (depth + 1) (close :: awaited) ↔
      Covers counted level (depth + 1) awaited := by
  simp [Covers, h]

theorem covers_zero_cons (hclose : close ≠ .rBrace) :
    Covers counted level 0 (close :: awaited) ↔ Covers counted level 0 awaited := by
  simp [Covers, hclose]

theorem awaitedBehind_of_closer? (h : awaitedBehind awaited kind = some awaited')
    (hclose : kind.closer? = some close) : awaited' = close :: awaited := by
  simpa [awaitedBehind, hclose, eq_comm] using h

theorem awaitedBehind_of_isCloser (h : awaitedBehind awaited kind = some awaited')
    (hclose : kind.isCloser) : awaited = kind :: awaited' := by
  have hnone : kind.closer? = none := by cases kind <;> simp_all [isCloser, closer?]
  cases awaited with
  | nil => simp [awaitedBehind, hnone, hclose] at h
  | cons first outer => grind [awaitedBehind]

theorem awaitedBehind_of_neither (h : awaitedBehind awaited kind = some awaited')
    (hopen : kind.closer? = none) (hclose : ¬ kind.isCloser) : awaited' = awaited := by
  simpa [awaitedBehind, hopen, hclose, eq_comm] using h

theorem covers_of_opens (h : awaitedBehind awaited kind = some awaited') (hkind : kind.opens)
    (hc : Covers closes level depth awaited) : Covers closes level (depth + 1) awaited' := by
  obtain ⟨close, hcloser⟩ := exists_closer? (.inl hkind)
  rw [awaitedBehind_of_closer? h hcloser]
  exact (covers_counted (closes_of_closer? hkind hcloser)).mpr hc

theorem covers_of_closes (h : awaitedBehind awaited kind = some awaited') (hkind : kind.closes)
    (hc : Covers closes level (depth + 1) awaited) : Covers closes level depth awaited' := by
  rw [awaitedBehind_of_isCloser h (isCloser_iff.mpr (.inl hkind))] at hc
  exact (covers_counted hkind).mp hc

theorem covers_zero_of_isCloser (h : awaitedBehind awaited kind = some awaited')
    (hkind : kind.isCloser) (hbrace : kind ≠ .rBrace) (hc : Covers counted level 0 awaited) :
    Covers counted level 0 awaited' := by
  rw [awaitedBehind_of_isCloser h hkind] at hc
  exact (covers_zero_cons hbrace).mp hc

/-- Angle brackets are no brackets of groups. -/
theorem covers_of_neither (h : awaitedBehind awaited kind = some awaited')
    (hopen : ¬ kind.opens) (hclose : ¬ kind.closes) (hc : Covers closes level depth awaited) :
    Covers closes level depth awaited' := by
  by_cases hlt : kind = .lt
  · rw [awaitedBehind_of_closer? h (by rw [hlt]; rfl)]
    exact (covers_free (by decide) (by decide)).mpr hc
  · by_cases hgt : kind = .gt
    · rw [awaitedBehind_of_isCloser h (by rw [hgt]; rfl), hgt] at hc
      exact (covers_free (by decide) (by decide)).mp hc
    · rwa [awaitedBehind_of_neither h (closer?_eq_none (not_or.mpr ⟨hopen, hlt⟩))
        (mt isCloser_iff.mp (not_or.mpr ⟨hclose, hgt⟩))]

/-- With no group open, what is passed over may close a group that was open before. -/
theorem covers_zero_of_not_opens (h : awaitedBehind awaited kind = some awaited')
    (hopen : ¬ kind.opens) (hbrace : kind ≠ .rBrace) (hc : Covers closes level 0 awaited) :
    Covers closes level 0 awaited' := by
  by_cases hclose : kind.isCloser
  · exact covers_zero_of_isCloser h hclose hbrace hc
  · exact covers_of_neither h hopen (fun hcloses => hclose (isCloser_iff.mpr (.inl hcloses))) hc

/-- Where only round brackets count, all other tokens count nothing. -/
theorem covers_paren_of_other (h : awaitedBehind awaited kind = some awaited')
    (hopen : kind ≠ .lParen) (hclose : kind ≠ .rParen)
    (hc : Covers (· == .rParen) level (depth + 1) awaited) :
    Covers (· == .rParen) level (depth + 1) awaited' := by
  cases hcloser : kind.closer? with
  | some close =>
    rw [awaitedBehind_of_closer? h hcloser]
    refine (covers_succ_free ?_).mpr hc
    cases kind <;> simp_all [closer?] <;> simp [← hcloser]
  | none =>
    by_cases hcloses : kind.isCloser
    · rw [awaitedBehind_of_isCloser h hcloses] at hc
      exact (covers_succ_free (by simpa using hclose)).mp hc
    · rwa [awaitedBehind_of_neither h hcloser hcloses]

end

namespace Parser

section

variable {awaited : List TokenKind} {level depth : Nat} {tokens : List Token}

/-- A measure that is the same whatever follows, and keeps the level. -/
def MeasuresTo (level : Nat) (measure : List Token → Nat) (tokens : List Token) : Prop :=
  (∀ tail, measure (tokens ++ tail) = measure tokens) ∧
    SealedAt level (tokens.drop (measure tokens))

theorem MeasuresTo.zero {measure : List Token → Nat} (h : SealedAt level tokens)
    (hzero : ∀ tail, measure (tokens ++ tail) = 0) : MeasuresTo level measure tokens := by
  have hnil := hzero []
  rw [List.append_nil] at hnil
  exact ⟨fun tail => by rw [hzero, hnil], by rwa [hnil]⟩

/-- A measure may go on with another one behind some tokens. -/
theorem MeasuresTo.add {measure measure' : List Token → Nat} (count : Nat)
    (h : MeasuresTo level measure' (tokens.drop count))
    (hadd : ∀ tail, measure (tokens ++ tail) = count + measure' (tokens.drop count ++ tail)) :
    MeasuresTo level measure tokens := by
  have hnil := hadd []
  rw [List.append_nil, List.append_nil] at hnil
  refine ⟨fun tail => by rw [hadd, hnil, h.1], ?_⟩
  rw [hnil, ← List.drop_drop]
  exact h.2

theorem MeasuresTo.succ {measure measure' : List Token → Nat} {first : Token} {rest : List Token}
    (h : MeasuresTo level measure' rest)
    (hsucc : ∀ tail, measure (first :: (rest ++ tail)) = 1 + measure' (rest ++ tail)) :
    MeasuresTo level measure (first :: rest) :=
  .add 1 h hsucc

theorem MeasuresTo.one {measure : List Token → Nat} {first : Token} {rest : List Token}
    (h : SealedAt level rest) (hone : ∀ tail, measure (first :: (rest ++ tail)) = 1) :
    MeasuresTo level measure (first :: rest) := by
  have hnil := hone []
  rw [List.append_nil] at hnil
  exact ⟨fun tail => by rw [List.cons_append, hone, hnil], by rwa [hnil]⟩

/-- A group ends with the bracket that closes it. -/
theorem measures_groupLength (h : Sealed awaited tokens)
    (hc : Covers closes level (depth + 1) awaited) :
    MeasuresTo level (groupLength (depth + 1)) tokens := by
  induction tokens generalizing awaited depth with
  | nil => exact absurd rfl h.ne_nil
  | cons first rest ih =>
    cases h with
    | brace hbrace => exact hc.elim
    | token hstep hrest =>
      by_cases hopen : first.kind.opens
      · refine .succ (ih hrest (covers_of_opens hstep hopen hc)) fun tail => ?_
        simp [groupLength, hopen]
      · by_cases hclose : first.kind.closes
        · have hcovers := covers_of_closes hstep hclose hc
          cases depth with
          | zero =>
            refine .one ⟨_, hrest, covers_zero.mp hcovers⟩ fun tail => ?_
            simp [groupLength, hopen, hclose]
          | succ depth =>
            refine .succ (ih hrest hcovers) fun tail => ?_
            simp [groupLength, hopen, hclose]
        · refine .succ (ih hrest (covers_of_neither hstep hopen hclose hc)) fun tail => ?_
          simp [groupLength, hopen, hclose]

theorem measures_group {first : Token} {rest : List Token} (h : SealedAt level (first :: rest))
    (hopen : first.kind.opens) : MeasuresTo level (groupLength 0) (first :: rest) := by
  obtain ⟨awaited, hsealed, hlevel⟩ := h
  obtain ⟨awaited', hstep, hrest⟩ := hsealed.of_cons (by rintro hkind; simp [hkind, opens] at hopen)
  have hcovers := covers_of_opens hstep hopen (covers_zero.mpr hlevel)
  refine .succ (measures_groupLength hrest hcovers) fun tail => ?_
  simp [groupLength, hopen]

/-- What is left of a malformed member ends before a brace that closes its list. -/
theorem measures_malformedLength (h : Sealed awaited tokens)
    (hc : Covers closes level depth awaited) :
    MeasuresTo level (malformedLength depth) tokens := by
  induction tokens generalizing awaited depth with
  | nil => exact absurd rfl h.ne_nil
  | cons first rest ih =>
    by_cases hbrace : first.kind = .rBrace ∧ depth = 0
    · obtain ⟨hkind, rfl⟩ := hbrace
      refine .zero ⟨_, h, covers_zero.mp hc⟩ fun tail => ?_
      simp [malformedLength, hkind, opens]
    · cases h with
      | brace hkind =>
        cases depth with
        | zero => exact absurd ⟨hkind, rfl⟩ hbrace
        | succ depth => exact hc.elim
      | token hstep hrest =>
        by_cases hopen : first.kind.opens
        · refine .succ (ih hrest (covers_of_opens hstep hopen hc)) fun tail => ?_
          simp [malformedLength, hopen]
        · cases depth with
          | zero =>
            have hkind : first.kind ≠ .rBrace := fun hkind => hbrace ⟨hkind, rfl⟩
            have hcovers := covers_zero_of_not_opens hstep hopen hkind hc
            by_cases hend : first.kind = .semicolon ∨ first.kind = .comma
            · refine .one ⟨_, hrest, covers_zero.mp hcovers⟩ fun tail => ?_
              rcases hend with hend | hend <;> simp [malformedLength, hend, opens]
            · refine .succ (ih hrest hcovers) fun tail => ?_
              grind [malformedLength]
          | succ depth =>
            by_cases hclose : first.kind.closes
            · refine .succ (ih hrest (covers_of_closes hstep hclose hc)) fun tail => ?_
              simp [malformedLength, hopen, hclose]
            · refine .succ (ih hrest (covers_of_neither hstep hopen hclose hc)) fun tail => ?_
              simp [malformedLength, hopen, hclose]

/-- An initial value ends before a bracket that closes what was open before it. -/
theorem measures_initializerLength (ends : TokenKind → Bool) (start : Bool)
    (h : Sealed awaited tokens) (hc : Covers closes level depth awaited) :
    MeasuresTo level (initializerLength ends start depth) tokens := by
  induction tokens generalizing awaited depth start with
  | nil => exact absurd rfl h.ne_nil
  | cons first rest ih =>
    by_cases hend : depth = 0 ∧ (first.kind.closes ∨ ends first.kind ∨
        !start && first.newlineBefore && first.kind != .dot)
    · obtain ⟨rfl, hend⟩ := hend
      refine .zero ⟨_, h, covers_zero.mp hc⟩ fun tail => ?_
      have hopen := @closes_eq_false_of_opens first.kind
      grind [initializerLength]
    · cases h with
      | brace hkind =>
        cases depth with
        | zero => exact absurd ⟨rfl, .inl (by rw [hkind]; rfl)⟩ hend
        | succ depth => exact hc.elim
      | token hstep hrest =>
        by_cases hopen : first.kind.opens
        · refine .succ (ih false hrest (covers_of_opens hstep hopen hc)) fun tail => ?_
          grind [initializerLength]
        · by_cases hclose : first.kind.closes
          · cases depth with
            | zero => exact absurd ⟨rfl, .inl hclose⟩ hend
            | succ depth =>
              refine .succ (ih false hrest (covers_of_closes hstep hclose hc)) fun tail => ?_
              simp [initializerLength, hopen, hclose]
          · refine .succ (ih false hrest (covers_of_neither hstep hopen hclose hc)) fun tail => ?_
            grind [initializerLength]

/-- A return type ends before a brace that closes what was open before it. -/
theorem measures_returnTypeLength (withBody start : Bool)
    (h : Sealed awaited tokens) (hc : Covers (fun _ => true) level depth awaited) :
    MeasuresTo level (returnTypeLength withBody start depth) tokens := by
  induction tokens generalizing awaited depth start with
  | nil => exact absurd rfl h.ne_nil
  | cons first rest ih =>
    by_cases hend : depth = 0 ∧
        (endsReturnType withBody first.kind ∨ !start && first.newlineBefore)
    · obtain ⟨rfl, hend⟩ := hend
      refine .zero ⟨_, h, covers_zero.mp hc⟩ fun tail => ?_
      grind [returnTypeLength]
    · cases h with
      | brace hkind =>
        cases depth with
        | zero => exact absurd ⟨rfl, .inl (by rw [hkind]; rfl)⟩ hend
        | succ depth => exact hc.elim
      | token hstep hrest =>
        by_cases hopen : first.kind.opens ∨ first.kind = .lt
        · obtain ⟨close, hcloser⟩ := exists_closer? hopen
          rw [awaitedBehind_of_closer? hstep hcloser] at hrest
          refine .succ (ih false hrest ((covers_counted rfl).mpr hc)) fun tail => ?_
          grind [returnTypeLength]
        · by_cases hclose : first.kind.closes ∨ first.kind = .gt
          · have hcloses := isCloser_iff.mpr hclose
            cases depth with
            | zero =>
              have hkind : first.kind ≠ .rBrace := fun hkind =>
                hend ⟨rfl, .inl (by rw [hkind]; rfl)⟩
              refine .succ (ih false hrest (covers_zero_of_isCloser hstep hcloses hkind hc)) ?_
              grind [returnTypeLength]
            | succ depth =>
              rw [awaitedBehind_of_isCloser hstep hcloses] at hc
              refine .succ (ih false hrest ((covers_counted rfl).mp hc)) fun tail => ?_
              grind [returnTypeLength]
          · have hneither : awaited = _ := (awaitedBehind_of_neither hstep
              (closer?_eq_none hopen) (mt isCloser_iff.mp hclose)).symm
            refine .succ (ih false hrest (hneither ▸ hc)) fun tail => ?_
            grind [returnTypeLength]

/-- The round bracket that closes a group is found before the last brace. -/
theorem closingParen?_append (h : Sealed awaited tokens)
    (hc : Covers (· == .rParen) level (depth + 1) awaited) (tail : List Token) :
    closingParen? (depth + 1) (tokens ++ tail) = closingParen? (depth + 1) tokens ∧
      ∃ count, closingParen? (depth + 1) tokens = some count ∧ count + 1 < tokens.length := by
  induction tokens generalizing awaited depth with
  | nil => exact absurd rfl h.ne_nil
  | cons first rest ih =>
    cases h with
    | brace hkind => exact hc.elim
    | token hstep hrest =>
      have hpos := List.length_pos_iff.mpr hrest.ne_nil
      by_cases hopen : first.kind = .lParen
      · rw [awaitedBehind_of_closer? hstep (by rw [hopen]; rfl)] at hrest
        obtain ⟨hsame, count, hcount, hlt⟩ := ih hrest ((covers_counted rfl).mpr hc)
        simp [closingParen?, hopen, hsame, hcount, hlt]
      · by_cases hclose : first.kind = .rParen
        · cases depth with
          | zero => simp [closingParen?, hclose, hpos]
          | succ depth =>
            rw [awaitedBehind_of_isCloser hstep (by rw [hclose]; rfl), hclose] at hc
            obtain ⟨hsame, count, hcount, hlt⟩ := ih hrest ((covers_counted rfl).mp hc)
            simp [closingParen?, hclose, hsame, hcount, hlt]
        · have hcovers : Covers (· == .rParen) level (depth + 1) _ :=
            covers_paren_of_other hstep hopen hclose hc
          obtain ⟨hsame, count, hcount, hlt⟩ := ih hrest hcovers
          grind [closingParen?]

/-- Whether parameters of a function type stand ahead is seen before the last brace. -/
theorem startsFunctionType_append {first : Token} {rest : List Token}
    (h : SealedAt level (first :: rest)) (hkind : first.kind = .lParen) (tail : List Token) :
    startsFunctionType (first :: (rest ++ tail)) = startsFunctionType (first :: rest) := by
  obtain ⟨awaited, hsealed, hlevel⟩ := h
  obtain ⟨awaited', hstep, hrest⟩ := hsealed.of_cons (by simp [hkind])
  rw [awaitedBehind_of_closer? hstep (by rw [hkind]; rfl)] at hrest
  have hcovers : Covers (· == .rParen) level 1 (.rParen :: awaited) :=
    (covers_counted rfl).mpr (covers_zero.mpr hlevel)
  obtain ⟨hsame, count, hcount, hlt⟩ := closingParen?_append hrest hcovers tail
  simp only [startsFunctionType, closingParen?, hkind, Nat.zero_add, hsame] at *
  rw [hcount]
  simp only [Option.map_some, List.getElem?_cons_succ]
  rw [List.getElem?_append_left (by omega)]

/-- Words with points between them hold no brackets. -/
theorem measures_dottedLength (h : SealedAt level tokens) :
    MeasuresTo level dottedLength tokens := by
  induction tokens using dottedLength.induct with
  | case1 => exact absurd rfl h.ne_nil
  | case2 token hword => simp [h.kind_of_singleton] at hword
  | case3 token hword =>
    refine .zero h fun tail => ?_
    cases tail <;> simp [dottedLength, hword]
  | case4 token point rest hword hdot ih =>
    have hpoint := h.of_cons (by simp [hword]) (by simp [hword])
    have hrest := hpoint.of_cons (by simp [hdot]) (by simp [hdot])
    refine .add 2 (ih hrest) fun tail => ?_
    simp [dottedLength, hword, hdot]
  | case5 token point rest hword hdot =>
    refine .one (h.of_cons (by simp [hword]) (by simp [hword])) fun tail => ?_
    simp [dottedLength, hword, hdot]
  | case6 token point rest hword =>
    refine .zero h fun tail => ?_
    simp [dottedLength, hword]

/-- The arguments of a decorator are a group. -/
theorem measures_arguments (h : SealedAt level tokens) :
    MeasuresTo level
      (fun behind => if behind.head?.any (·.kind == .lParen) then groupLength 0 behind else 0)
      tokens := by
  cases tokens with
  | nil => exact absurd rfl h.ne_nil
  | cons first rest =>
    by_cases hparen : first.kind = .lParen
    · refine .add 0 (measures_group h (by simp [hparen, opens])) fun tail => ?_
      simp [hparen]
    · refine .zero h fun tail => ?_
      simp [hparen]

theorem measures_decoratorLength (h : SealedAt level tokens) :
    MeasuresTo level decoratorLength tokens := by
  cases tokens with
  | nil => exact absurd rfl h.ne_nil
  | cons first rest =>
    by_cases hat : first.kind = .atSign
    · have hname := measures_dottedLength (h.of_cons (by simp [hat]) (by simp [hat]))
      have hlt : dottedLength rest < rest.length := by
        have := List.length_pos_iff.mpr hname.2.ne_nil
        rw [List.length_drop] at this
        omega
      have hbehind := measures_arguments hname.2
      refine .add (dottedLength rest + 1) hbehind fun tail => ?_
      rw [List.drop_succ_cons, List.cons_append, decoratorLength, if_pos hat]
      dsimp only
      rw [hname.1, List.drop_append_of_le_length (Nat.le_of_lt hlt), Nat.add_comm 1]
    · refine .zero h fun tail => ?_
      simp [decoratorLength, hat]

theorem decoratorsUpTo_of_eq_zero (count : Nat) (h : decoratorLength tokens = 0) :
    decoratorsUpTo (count + 1) tokens = 0 := by
  simp [decoratorsUpTo, h]

theorem decoratorsUpTo_of_ne_zero (count : Nat) (h : decoratorLength tokens ≠ 0) :
    decoratorsUpTo (count + 1) tokens =
      decoratorLength tokens + decoratorsUpTo count (tokens.drop (decoratorLength tokens)) := by
  rw [decoratorsUpTo]
  split
  · next hzero => exact absurd hzero h
  · rfl

/-- The bound on the number of decorators is not reached. -/
theorem decoratorsUpTo_append (h : SealedAt level tokens) (tail : List Token) {m n : Nat}
    (hm : tokens.length ≤ m) (hn : tokens.length ≤ n) :
    decoratorsUpTo m (tokens ++ tail) = decoratorsUpTo n tokens ∧
      SealedAt level (tokens.drop (decoratorsUpTo n tokens)) := by
  induction n generalizing tokens m with
  | zero => exact absurd (List.eq_nil_of_length_eq_zero (Nat.le_zero.mp hn)) h.ne_nil
  | succ n ih =>
    have hpos := List.length_pos_iff.mpr h.ne_nil
    obtain ⟨m, rfl⟩ := Nat.exists_eq_add_one_of_ne_zero (Nat.ne_of_gt (Nat.lt_of_lt_of_le hpos hm))
    obtain ⟨hsame, hdrop⟩ := measures_decoratorLength h
    have hlt : decoratorLength tokens < tokens.length := by
      have := List.length_pos_iff.mpr hdrop.ne_nil
      rw [List.length_drop] at this
      omega
    by_cases hzero : decoratorLength tokens = 0
    · rw [decoratorsUpTo_of_eq_zero _ hzero, decoratorsUpTo_of_eq_zero _ (hsame tail ▸ hzero)]
      exact ⟨rfl, h⟩
    · rw [decoratorsUpTo_of_ne_zero _ hzero, decoratorsUpTo_of_ne_zero _ (hsame tail ▸ hzero),
        hsame, List.drop_append_of_le_length (Nat.le_of_lt hlt), ← List.drop_drop]
      have hshorter := List.length_drop (i := decoratorLength tokens) (l := tokens)
      obtain ⟨hrest, hsealed⟩ := ih hdrop (m := m) (by omega) (by omega)
      exact ⟨by rw [hrest], hsealed⟩

theorem measures_decoratorsLength (h : SealedAt level tokens) :
    MeasuresTo level decoratorsLength tokens :=
  ⟨fun tail => (decoratorsUpTo_append h tail (by simp) (Nat.le_refl _)).1,
    (decoratorsUpTo_append h [] (Nat.le_refl _) (Nat.le_refl _)).2⟩

theorem measures_readonlyLength (h : SealedAt level tokens) :
    MeasuresTo level readonlyLength tokens := by
  induction tokens using readonlyLength.induct with
  | case1 token following rest hword ih =>
    have hkind : token.kind = .word := by
      simp only [Bool.and_eq_true, decide_eq_true_eq, Token.word?_eq_some_iff] at hword
      exact hword.1.1
    refine .succ (ih (h.of_cons (by simp [hkind]) (by simp [hkind]))) fun tail => ?_
    rw [List.cons_append, readonlyLength, if_pos hword]
  | case2 token following rest hword =>
    refine .zero h fun tail => ?_
    rw [List.cons_append, List.cons_append, readonlyLength, if_neg hword]
  | case3 tokens hshort =>
    refine .zero h fun tail => ?_
    match tokens, tail with
    | [], _ => exact absurd rfl h.ne_nil
    | [token], [] => rfl
    | [token], following :: tail => simp [readonlyLength, Token.word?, h.kind_of_singleton]
    | token :: following :: rest, _ => exact (hshort _ _ _ rfl).elim

end

end Parser

end DeclSchema
