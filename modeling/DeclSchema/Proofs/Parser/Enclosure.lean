import DeclSchema.Proofs.Parser.Measures

/-!
# Tokens inside a pair of braces

What stands between two braces that belong together closes all that it opens, and so does
what is left of it when some of it is read, but for brackets that are awaited already.
`Inside tail` says this of the tokens before `tail`, which begins with the closing brace or,
for a whole source, is empty: no brace is awaited. Reading a token other than a brace keeps
it, and so does passing over what is measured, since no measure goes past a brace that it has
not opened. A brace that is opened is closed again before the tail.
-/

namespace DeclSchema

open TokenKind

namespace TokenKind

theorem nests_cons {awaited : List TokenKind} {kind : TokenKind} {rest : List TokenKind} :
    nests awaited (kind :: rest) ↔
      ∃ awaited', awaitedBehind awaited kind = some awaited' ∧ nests awaited' rest := by
  rw [nests]
  cases awaitedBehind awaited kind <;> simp

theorem awaitedBehind_append {awaited outer awaited' : List TokenKind} {kind : TokenKind}
    (h : awaitedBehind awaited kind = some awaited') :
    awaitedBehind (awaited ++ outer) kind = some (awaited' ++ outer) := by
  unfold awaitedBehind at h ⊢
  split at h
  · cases h
    rfl
  · split at h
    · cases awaited <;> grind
    · next hclose =>
      cases h
      rw [if_neg hclose]

/-- Only a brace that opens makes a closing brace awaited. -/
theorem rBrace_notMem_of_awaitedBehind {awaited awaited' : List TokenKind} {kind : TokenKind}
    (h : awaitedBehind awaited kind = some awaited') (hopen : kind ≠ .lBrace)
    (hawaited : .rBrace ∉ awaited) : .rBrace ∉ awaited' := by
  cases hcloser : kind.closer? with
  | some close =>
    rw [awaitedBehind_of_closer? h hcloser, List.mem_cons, not_or]
    refine ⟨?_, hawaited⟩
    rintro rfl
    cases kind <;> simp_all [closer?]
  | none =>
    by_cases hclose : kind.isCloser
    · rw [awaitedBehind_of_isCloser h hclose] at hawaited
      exact fun hmem => hawaited (List.mem_cons_of_mem _ hmem)
    · rwa [awaitedBehind_of_neither h hcloser hclose]

end TokenKind

/-- What is awaited stands behind tokens that close all they open. -/
theorem exists_closing_of_nests {inner awaited : List TokenKind} {close : TokenKind}
    {tokens : List Token} (h : nests (inner ++ close :: awaited) (tokens.map (·.kind))) :
    ∃ inside closing behind, tokens = inside ++ closing :: behind ∧
      nests inner (inside.map (·.kind)) ∧ closing.kind = close ∧
      nests awaited (behind.map (·.kind)) := by
  induction tokens generalizing inner with
  | nil => simp [nests] at h
  | cons token rest ih =>
    rw [List.map_cons, nests_cons] at h
    obtain ⟨awaited', hstep, hrest⟩ := h
    by_cases hlast : inner = [] ∧ token.kind.isCloser
    · obtain ⟨rfl, hclose⟩ := hlast
      obtain ⟨rfl, rfl⟩ := List.cons.inj (awaitedBehind_of_isCloser hstep hclose)
      exact ⟨[], token, rest, rfl, rfl, rfl, hrest⟩
    -- The token closes or opens one of the inner brackets.
    obtain ⟨inner', hinner⟩ : ∃ inner', awaitedBehind inner token.kind = some inner' := by
      cases inner <;> grind [awaitedBehind]
    have hsame := (awaitedBehind_append hinner).symm.trans hstep
    rw [← Option.some.inj hsame] at hrest
    obtain ⟨inside, closing, behind, rfl, hinside, hclosing, hbehind⟩ := ih hrest
    exact ⟨token :: inside, closing, behind, rfl, nests_cons.mpr ⟨inner', hinner, hinside⟩,
      hclosing, hbehind⟩

/-- The brackets of sealed tokens are nested up to the last brace. -/
theorem Sealed.nests {awaited : List TokenKind} {inner : List Token} {closing : Token}
    (h : Sealed awaited (inner ++ [closing])) : nests awaited (inner.map (·.kind)) := by
  induction inner generalizing awaited with
  | nil =>
    cases h with
    | brace _ => rfl
    | token _ hrest => exact absurd rfl hrest.ne_nil
  | cons token inner ih =>
    rw [List.cons_append] at h
    generalize hrest : inner ++ [closing] = rest at h
    cases h with
    | brace _ => simp at hrest
    | token hstep hsealed =>
      subst hrest
      exact nests_cons.mpr ⟨_, hstep, ih hsealed⟩

/-- The tokens before the tail close what is awaited, and none of it is a brace. -/
def Inside (tail tokens : List Token) : Prop :=
  ∃ awaited inner, tokens = inner ++ tail ∧ nests awaited (inner.map (·.kind)) ∧
    .rBrace ∉ awaited

/-- The first token, if there is one, is a closing brace. -/
def Closing (tail : List Token) : Prop :=
  ∀ token ∈ tail.head?, token.kind = .rBrace

section

variable {tail tokens rest : List Token} {first : Token}

theorem Inside.of_nests (h : nests [] (tokens.map (·.kind))) (tail : List Token) :
    Inside tail (tokens ++ tail) :=
  ⟨[], tokens, rfl, h, List.not_mem_nil⟩

/-- Another token than a closing brace stands before the tail. -/
theorem Inside.exists_cons (h : Inside tail (first :: rest)) (htail : Closing tail)
    (hkind : first.kind ≠ .rBrace) :
    ∃ awaited awaited' inner, rest = inner ++ tail ∧
      awaitedBehind awaited first.kind = some awaited' ∧ nests awaited' (inner.map (·.kind)) ∧
      .rBrace ∉ awaited := by
  obtain ⟨awaited, inner, htokens, hnests, hawaited⟩ := h
  cases inner with
  | nil =>
    rw [List.nil_append] at htokens
    exact absurd (htail first (by simp [← htokens])) hkind
  | cons token inner =>
    obtain ⟨rfl, rfl⟩ := List.cons.inj htokens
    obtain ⟨awaited', hstep, hrest⟩ := nests_cons.mp hnests
    exact ⟨awaited, awaited', inner, rfl, hstep, hrest, hawaited⟩

theorem Inside.of_cons (h : Inside tail (first :: rest)) (htail : Closing tail)
    (hopen : first.kind ≠ .lBrace) (hclose : first.kind ≠ .rBrace) : Inside tail rest := by
  obtain ⟨awaited, awaited', inner, hrest, hstep, hnests, hawaited⟩ := h.exists_cons htail hclose
  exact ⟨awaited', inner, hrest, hnests, rBrace_notMem_of_awaitedBehind hstep hopen hawaited⟩

/-- A brace that is opened is closed before the tail. -/
theorem Inside.exists_closing (h : Inside tail (first :: rest)) (htail : Closing tail)
    (hopen : first.kind = .lBrace) :
    ∃ inside closing behind, rest = inside ++ closing :: behind ∧
      nests [] (inside.map (·.kind)) ∧ closing.kind = .rBrace ∧ Inside tail behind := by
  obtain ⟨awaited, awaited', inner, rfl, hstep, hnests, hawaited⟩ :=
    h.exists_cons htail (by simp [hopen])
  rw [hopen] at hstep
  obtain rfl := Option.some.inj hstep
  have hnests : nests ([] ++ .rBrace :: awaited) (inner.map (·.kind)) := hnests
  obtain ⟨inside, closing, behind, rfl, hinside, hclosing, hbehind⟩ :=
    exists_closing_of_nests hnests
  exact ⟨inside, closing, behind ++ tail, by simp, hinside, hclosing,
    awaited, behind, rfl, hbehind, hawaited⟩

/-- A closing brace that comes next is the one that the tail begins with, and the source does
not end before the tail. -/
theorem Inside.eq_tail (h : Inside tail tokens) (hends : Closing tokens) : tokens = tail := by
  obtain ⟨awaited, inner, rfl, hnests, hawaited⟩ := h
  cases inner with
  | nil => rfl
  | cons token inner =>
    have hkind : token.kind = .rBrace := hends token rfl
    rw [List.map_cons, hkind, nests_cons] at hnests
    obtain ⟨awaited', hstep, -⟩ := hnests
    rw [awaitedBehind_of_isCloser hstep rfl] at hawaited
    exact absurd List.mem_cons_self hawaited

theorem Inside.drop (h : Inside tail tokens) (htail : Closing tail) (count : Nat)
    (hplain : ∀ token ∈ tokens.take count, token.kind ≠ .lBrace ∧ token.kind ≠ .rBrace) :
    Inside tail (tokens.drop count) := by
  induction count generalizing tokens with
  | zero => exact h
  | succ count ih =>
    cases tokens with
    | nil => exact h
    | cons first rest =>
      rw [List.take_succ_cons, List.forall_mem_cons] at hplain
      exact ih (h.of_cons htail hplain.1.1 hplain.1.2) hplain.2

/-- With a brace behind it, what stands before the tail is sealed. -/
theorem sealedAt_of_nests {awaited : List TokenKind} {inner : List Token}
    (h : nests awaited (inner.map (·.kind))) (hawaited : .rBrace ∉ awaited) {closing : Token}
    (hclosing : closing.kind = .rBrace) : SealedAt 0 (inner ++ [closing]) :=
  ⟨awaited, sealed_of_nests h hclosing, List.count_eq_zero.mpr hawaited⟩

theorem Inside.of_sealedAt {inner : List Token} {closing : Token}
    (h : SealedAt 0 (inner ++ [closing])) (tail : List Token) : Inside tail (inner ++ tail) := by
  obtain ⟨awaited, hsealed, hlevel⟩ := h
  exact ⟨awaited, inner, rfl, hsealed.nests, List.count_eq_zero.mp hlevel⟩

/-- A measure that ends before the brace behind sealed tokens ends inside of braces. At the
end of the source it may reach the end. -/
theorem Inside.measured {measure : List Token → Nat} {P : TokenKind → Prop}
    (h : Inside tail tokens) (htail : Closing tail) (hfirst : ∀ token ∈ tokens.head?, P token.kind)
    (hmeasures : ∀ tokens, (∀ token ∈ tokens.head?, P token.kind) → SealedAt 0 tokens →
      Parser.MeasuresTo 0 measure tokens)
    (hstays : ∀ tokens tail, measure tokens < tokens.length →
      measure (tokens ++ tail) = measure tokens) :
    Inside tail (tokens.drop (measure tokens)) := by
  obtain ⟨awaited, inner, rfl, hnests, hawaited⟩ := h
  cases tail with
  | nil =>
    rw [List.append_nil] at hfirst ⊢
    by_cases hlt : measure inner < inner.length
    · -- A brace at the end of the source would change nothing.
      let closing : Token := ⟨⟨.rBrace, "\x7d", ⟨0, 0⟩⟩, false⟩
      have hne := List.length_pos_iff.mp (Nat.zero_lt_of_lt hlt)
      have hsealed := (hmeasures (inner ++ [closing]) (by rwa [List.head?_append_of_ne_nil _ hne])
        (sealedAt_of_nests hnests hawaited rfl)).2
      rw [hstays inner [closing] hlt, List.drop_append_of_le_length (Nat.le_of_lt hlt)] at hsealed
      simpa using Inside.of_sealedAt hsealed []
    · rw [List.drop_eq_nil_of_le (Nat.le_of_not_lt hlt)]
      exact ⟨[], [], rfl, rfl, List.not_mem_nil⟩
  | cons closing behind =>
    have hhead : (inner ++ [closing]).head? = (inner ++ closing :: behind).head? := by
      cases inner <;> rfl
    obtain ⟨hsame, hsealed⟩ := hmeasures (inner ++ [closing]) (by rwa [hhead])
      (sealedAt_of_nests hnests hawaited (htail closing rfl))
    have hlength := List.length_pos_iff.mpr hsealed.ne_nil
    rw [List.length_drop, List.length_append, List.length_singleton] at hlength
    have hmeasure := hsame behind
    rw [List.append_assoc, List.singleton_append] at hmeasure
    rw [List.drop_append_of_le_length (by omega)] at hsealed
    rw [hmeasure, List.drop_append_of_le_length (by omega)]
    exact .of_sealedAt hsealed _

end

namespace Parser

/-- What is passed over as a statement ends before a brace that closes the block around it. -/
theorem measures_statementLength {awaited : List TokenKind} {level depth : Nat} {first : Bool}
    {tokens : List Token} (h : Sealed awaited tokens) (hc : Covers closes level depth awaited) :
    MeasuresTo level (statementLength first depth) tokens := by
  induction tokens generalizing awaited depth first with
  | nil => exact absurd rfl h.ne_nil
  | cons token rest ih =>
    have hnext : ∀ {awaited depth}, Sealed awaited rest → Covers closes level depth awaited →
        MeasuresTo level (statementLength false depth) rest := ih
    by_cases hline : depth = 0 ∧ !first ∧ token.newlineBefore ∧
        token.word?.any statementWords.contains
    · obtain ⟨rfl, hline⟩ := hline
      refine .zero ⟨_, h, covers_zero.mp hc⟩ fun tail => ?_
      simp [statementLength, hline]
    by_cases hbrace : token.kind = .rBrace ∧ depth = 0
    · obtain ⟨hkind, rfl⟩ := hbrace
      refine .zero ⟨_, h, covers_zero.mp hc⟩ fun tail => ?_
      simp [statementLength, hkind, opens]
    cases h with
    | brace hkind =>
      cases depth with
      | zero => exact absurd ⟨hkind, rfl⟩ hbrace
      | succ depth => exact hc.elim
    | token hstep hrest =>
      by_cases hopen : token.kind.opens
      · refine .succ (hnext hrest (covers_of_opens hstep hopen hc)) fun tail => ?_
        simp_all [statementLength]
      cases depth with
      | zero =>
        have hkind : token.kind ≠ .rBrace := fun hkind => hbrace ⟨hkind, rfl⟩
        have hcovers := covers_zero_of_not_opens hstep hopen hkind hc
        by_cases hend : token.kind = .semicolon
        · refine .one ⟨_, hrest, covers_zero.mp hcovers⟩ fun tail => ?_
          simp_all [statementLength, opens]
        · refine .succ (hnext hrest hcovers) fun tail => ?_
          simp_all [statementLength]
      | succ depth =>
        by_cases hclose : token.kind.closes
        · have hcovers := covers_of_closes hstep hclose hc
          by_cases hblock : depth = 0 ∧ token.kind = .rBrace
          · -- Behind a block a semicolon belongs to the statement, too.
            obtain ⟨rfl, hkind⟩ := hblock
            have hsealed : SealedAt level rest := ⟨_, hrest, covers_zero.mp hcovers⟩
            obtain ⟨second, behind, rfl⟩ := List.exists_cons_of_ne_nil hrest.ne_nil
            by_cases hend : second.kind = .semicolon
            · have hbehind : MeasuresTo level (fun _ => 0) behind :=
                .zero (hsealed.of_cons (by simp [hend]) (by simp [hend])) fun _ => rfl
              refine .add 2 hbehind fun tail => ?_
              simp_all [statementLength]
            · refine .one hsealed fun tail => ?_
              simp_all [statementLength]
          · refine .succ (hnext hrest hcovers) fun tail => ?_
            simp_all [statementLength]
        · refine .succ (hnext hrest (covers_of_neither hstep hopen hclose hc)) ?_
          simp_all [statementLength]

end Parser

open DeclSchema.Parser

namespace Inside

variable {tail tokens : List Token} (h : Inside tail tokens) (htail : Closing tail)

include h htail

theorem drop_group (hopen : ∀ token ∈ tokens.head?, token.kind.opens) :
    Inside tail (tokens.drop (groupLength 0 tokens)) := by
  refine h.measured (P := (·.opens)) htail hopen (fun tokens hfirst hsealed => ?_)
    fun _ tail => groupLength_append_of_lt tail
  obtain ⟨first, rest, rfl⟩ := List.exists_cons_of_ne_nil hsealed.ne_nil
  exact measures_group hsealed (hfirst first rfl)

theorem drop_malformed : Inside tail (tokens.drop (malformedLength 0 tokens)) :=
  h.measured (P := fun _ => True) htail (fun _ _ => trivial)
    (fun _ _ ⟨_, hsealed, hlevel⟩ => measures_malformedLength hsealed (covers_zero.mpr hlevel))
    fun _ tail => malformedLength_append_of_lt tail

theorem drop_statement : Inside tail (tokens.drop (statementLength true 0 tokens)) :=
  h.measured (P := fun _ => True) htail (fun _ _ => trivial)
    (fun _ _ ⟨_, hsealed, hlevel⟩ => measures_statementLength hsealed (covers_zero.mpr hlevel))
    fun _ tail => statementLength_append_of_lt tail

theorem drop_initializer (ends : TokenKind → Bool) :
    Inside tail (tokens.drop (initializerLength ends true 0 tokens)) :=
  h.measured (P := fun _ => True) htail (fun _ _ => trivial)
    (fun _ _ ⟨_, hsealed, hlevel⟩ =>
      measures_initializerLength ends true hsealed (covers_zero.mpr hlevel))
    fun _ tail => initializerLength_append_of_lt ends tail

theorem drop_returnType (withBody : Bool) :
    Inside tail (tokens.drop (returnTypeLength withBody true 0 tokens)) :=
  h.measured (P := fun _ => True) htail (fun _ _ => trivial)
    (fun _ _ ⟨_, hsealed, hlevel⟩ =>
      measures_returnTypeLength withBody true hsealed (covers_zero.mpr hlevel))
    fun _ tail => returnTypeLength_append_of_lt tail

theorem drop_decorators : Inside tail (tokens.drop (decoratorsLength tokens)) :=
  h.measured (P := fun _ => True) htail (fun _ _ => trivial)
    (fun _ _ hsealed => measures_decoratorsLength hsealed)
    fun _ tail => decoratorsLength_append_of_lt tail

end Inside

end DeclSchema
