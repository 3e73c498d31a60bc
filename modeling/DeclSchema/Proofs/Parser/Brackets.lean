import DeclSchema.Proofs.Parser.Nesting

/-!
# Open brackets

The round, square and curly brackets that are open at a place of a source, as a stack. What
is passed over by its brackets leaves this stack as it is, if all that is open will be closed.
Behind something malformed the stack may be another one, but what is open from its innermost
brace outwards is still open: the stack has only been raised.
-/

namespace DeclSchema

open TokenKind

/-- The open brackets behind a token, the innermost first, if those of a stack are open in
front of it. There are none where a bracket closes something else than the innermost one. -/
def bracketsBehind (stack : List Token) (token : Token) : Option (List Token) :=
  if token.kind.opens then
    some (token :: stack)
  else if token.kind.closes then
    match stack with
    | [] => none
    | opening :: outer => if opening.kind.closer? = some token.kind then some outer else none
  else
    some stack

/-- The open brackets behind some tokens. -/
def openBrackets (stack tokens : List Token) : Option (List Token) :=
  tokens.foldlM bracketsBehind stack

section

variable {stack outer left : List Token} {token opening : Token} {rest : List Token}

@[simp] theorem openBrackets_nil : openBrackets stack [] = some stack := rfl

theorem openBrackets_append (stack front back : List Token) :
    openBrackets stack (front ++ back) =
      (openBrackets stack front).bind (openBrackets · back) :=
  List.foldlM_append

theorem openBrackets_of_opens (h : token.kind.opens) :
    openBrackets stack (token :: rest) = openBrackets (token :: stack) rest := by
  have hbehind : bracketsBehind stack token = some (token :: stack) := if_pos h
  simp only [openBrackets, List.foldlM_cons, hbehind, Option.bind_eq_bind, Option.bind_some]

theorem openBrackets_of_plain (hopens : ¬ token.kind.opens) (hcloses : ¬ token.kind.closes) :
    openBrackets stack (token :: rest) = openBrackets stack rest := by
  have hbehind : bracketsBehind stack token = some stack :=
    (if_neg hopens).trans (if_neg hcloses)
  simp only [openBrackets, List.foldlM_cons, hbehind, Option.bind_eq_bind, Option.bind_some]

theorem bracketsBehind_of_closes (h : token.kind.closes)
    (hmatch : opening.kind.closer? = some token.kind) :
    bracketsBehind (opening :: outer) token = some outer := by
  unfold bracketsBehind
  rw [if_neg (not_opens_of_closes h), if_pos h]
  exact if_pos hmatch

theorem openBrackets_of_closes (h : token.kind.closes)
    (hmatch : opening.kind.closer? = some token.kind) :
    openBrackets (opening :: outer) (token :: rest) = openBrackets outer rest := by
  simp only [openBrackets, List.foldlM_cons, bracketsBehind_of_closes h hmatch,
    Option.bind_eq_bind, Option.bind_some]

/-- What closes a bracket closes the innermost one. -/
theorem exists_of_closes (h : token.kind.closes)
    (hrun : openBrackets stack (token :: rest) = some left) :
    ∃ opening outer, stack = opening :: outer ∧ opening.kind.closer? = some token.kind ∧
      openBrackets outer rest = some left := by
  obtain ⟨behind, hbehind, hrest⟩ := Option.bind_eq_some_iff.mp hrun
  unfold bracketsBehind at hbehind
  rw [if_neg (not_opens_of_closes h), if_pos h] at hbehind
  cases stack with
  | nil => cases hbehind
  | cons opening outer =>
    obtain ⟨hmatch, hbehind⟩ := Option.ite_none_right_eq_some.mp hbehind
    cases hbehind
    exact ⟨opening, _, rfl, hmatch, hrest⟩

end

/-- The one stack becomes the other where brackets are closed that are no braces, and others
are opened. -/
def Raises (stack above : List Token) : Prop :=
  ∃ closed opened kept, stack = closed ++ kept ∧ above = opened ++ kept ∧
    ∀ token ∈ closed, token.kind ≠ .lBrace

/-- How many braces are open. -/
def braces (stack : List Token) : Nat :=
  stack.countP (·.kind == .lBrace)

namespace Raises

variable {stack above higher outer : List Token} {opening : Token}

theorem refl (stack : List Token) : Raises stack stack :=
  ⟨[], [], stack, rfl, rfl, List.forall_mem_nil _⟩

theorem push (token : Token) (stack : List Token) : Raises stack (token :: stack) :=
  ⟨[], [token], stack, rfl, rfl, List.forall_mem_nil _⟩

theorem pop (h : opening.kind ≠ .lBrace) (outer : List Token) : Raises (opening :: outer) outer :=
  ⟨[opening], [], outer, rfl, rfl, List.forall_mem_singleton.mpr h⟩

theorem trans (h : Raises stack above) (h' : Raises above higher) : Raises stack higher := by
  obtain ⟨closed, opened, kept, rfl, rfl, hclosed⟩ := h
  obtain ⟨closed', opened', kept', habove, rfl, hclosed'⟩ := h'
  rcases List.append_eq_append_iff.mp habove with ⟨more, rfl, rfl⟩ | ⟨more, rfl, rfl⟩
  · refine ⟨closed ++ more, opened', kept', by simp, rfl, ?_⟩
    exact List.forall_mem_append.mpr
      ⟨hclosed, fun token htoken => hclosed' token (List.mem_append_right _ htoken)⟩
  · exact ⟨closed, opened' ++ more, kept, rfl, by simp, hclosed⟩

theorem braces_le (h : Raises stack above) : braces stack ≤ braces above := by
  obtain ⟨closed, opened, kept, rfl, rfl, hclosed⟩ := h
  have hnone : closed.countP (·.kind == .lBrace) = 0 :=
    List.countP_eq_zero.mpr (by simpa using hclosed)
  simp only [braces, List.countP_append, hnone]
  omega

/-- Where as many braces are open in the end, as many are open on the way. -/
theorem braces_eq (h : Raises stack above) (h' : Raises above higher)
    (hcount : braces higher = braces stack) : braces above = braces stack :=
  Nat.le_antisymm (hcount ▸ h'.braces_le) h.braces_le

/-- A brace stays open, and what is open around it. -/
theorem exists_of_lBrace (h : Raises (opening :: outer) above) (hopening : opening.kind = .lBrace) :
    ∃ opened, above = opened ++ opening :: outer := by
  obtain ⟨closed, opened, kept, hstack, rfl, hclosed⟩ := h
  cases closed with
  | nil => exact ⟨opened, congrArg (opened ++ ·) hstack.symm⟩
  | cons first closed =>
    obtain ⟨rfl, -⟩ := List.cons.inj hstack
    exact absurd hopening (hclosed opening List.mem_cons_self)

/-- Where a brace is closed behind an opened one, all that is open around the latter still is. -/
theorem of_braced {last : Token} (h : Raises (opening :: outer) (last :: above))
    (hopening : opening.kind = .lBrace) : Raises outer above := by
  obtain ⟨opened, hopened⟩ := h.exists_of_lBrace hopening
  cases opened with
  | nil =>
    obtain ⟨-, rfl⟩ := List.cons.inj hopened
    exact .refl _
  | cons first opened =>
    obtain ⟨-, rfl⟩ := List.cons.inj hopened
    exact ⟨[], opened ++ [opening], outer, rfl, by simp, List.forall_mem_nil _⟩

/-- If moreover as many braces are open, then the closed brace is the opened one. -/
theorem eq_of_braced {last : Token} (h : Raises (opening :: outer) (last :: above))
    (hopening : opening.kind = .lBrace)
    (hcount : braces above = braces outer) : above = outer := by
  obtain ⟨opened, hopened⟩ := h.exists_of_lBrace hopening
  cases opened with
  | nil => exact (List.cons.inj hopened).2
  | cons first opened =>
    have habove : above = opened ++ opening :: outer := (List.cons.inj hopened).2
    have hmore : braces above = braces opened + braces outer + 1 := by
      simp [habove, braces, hopening, Nat.add_assoc]
    omega

end Raises

/-- The open brackets behind the next tokens, as many as are counted, satisfy a predicate. -/
def LeavesOpen (Q : List Token → Prop) (stack : List Token) (count : Nat)
    (tokens : List Token) : Prop :=
  ∃ above, openBrackets stack (tokens.take count) = some above ∧ Q above

/-- All that is open, or will be opened, is closed in the end. -/
def ClosesAll (stack tokens : List Token) : Prop :=
  openBrackets stack tokens = some []

/-- The next tokens, as many as are counted, leave the open brackets as they are. -/
def Balances (count : Nat) (tokens : List Token) : Prop :=
  ∀ stack, ClosesAll stack tokens → LeavesOpen (· = stack) stack count tokens

/-- The next tokens, as many as are counted, leave the open braces open. -/
def Recovering (count : Nat) (tokens : List Token) : Prop :=
  ∀ stack, ClosesAll stack tokens → LeavesOpen (Raises stack) stack count tokens

section

variable {Q : List Token → Prop} {stack outer above : List Token} {token opening : Token}
  {tokens rest : List Token} {count : Nat}

theorem LeavesOpen.mono {P : List Token → Prop} (h : LeavesOpen Q stack count tokens)
    (hP : ∀ above, Q above → P above) : LeavesOpen P stack count tokens :=
  h.imp fun above => And.imp_right (hP above)

theorem LeavesOpen.zero (h : Q stack) : LeavesOpen Q stack 0 tokens :=
  ⟨stack, rfl, h⟩

theorem LeavesOpen.of_opens (htoken : token.kind.opens)
    (h : LeavesOpen Q (token :: stack) count rest) :
    LeavesOpen Q stack (1 + count) (token :: rest) := by
  unfold LeavesOpen
  rw [Nat.add_comm, List.take_succ_cons, openBrackets_of_opens htoken]
  exact h

theorem LeavesOpen.of_closes (htoken : token.kind.closes)
    (hmatch : opening.kind.closer? = some token.kind) (h : LeavesOpen Q outer count rest) :
    LeavesOpen Q (opening :: outer) (1 + count) (token :: rest) := by
  unfold LeavesOpen
  rw [Nat.add_comm, List.take_succ_cons, openBrackets_of_closes htoken hmatch]
  exact h

theorem LeavesOpen.of_plain (hopens : ¬ token.kind.opens) (hcloses : ¬ token.kind.closes)
    (h : LeavesOpen Q stack count rest) : LeavesOpen Q stack (1 + count) (token :: rest) := by
  unfold LeavesOpen
  rw [Nat.add_comm, List.take_succ_cons, openBrackets_of_plain hopens hcloses]
  exact h

/-- What is passed over in two steps, the first of which leaves the stack as it is. -/
theorem LeavesOpen.add {more : Nat} (h : LeavesOpen (· = stack) stack count tokens)
    (h' : LeavesOpen Q stack more (tokens.drop count)) :
    LeavesOpen Q stack (count + more) tokens := by
  obtain ⟨_, hfirst, rfl⟩ := h
  obtain ⟨above, hsecond, habove⟩ := h'
  refine ⟨above, ?_, habove⟩
  rw [List.take_add, openBrackets_append, hfirst]
  exact hsecond

theorem ClosesAll.nil_iff : ClosesAll stack [] ↔ stack = [] :=
  Option.some_inj

/-- Behind what is passed over, too, all that is open is closed in the end. -/
theorem ClosesAll.drop (h : ClosesAll stack tokens)
    (hleaves : openBrackets stack (tokens.take count) = some above) :
    ClosesAll above (tokens.drop count) := by
  unfold ClosesAll at h ⊢
  rwa [← List.take_append_drop count tokens, openBrackets_append, hleaves] at h

theorem ClosesAll.pass (h : ClosesAll stack tokens)
    (hleaves : LeavesOpen (· = stack) stack count tokens) :
    ClosesAll stack (tokens.drop count) := by
  obtain ⟨_, hsame, rfl⟩ := hleaves
  exact h.drop hsame

theorem ClosesAll.of_opens (h : ClosesAll stack (token :: rest)) (htoken : token.kind.opens) :
    ClosesAll (token :: stack) rest :=
  (openBrackets_of_opens htoken).symm.trans h

theorem ClosesAll.of_plain (h : ClosesAll stack (token :: rest)) (hopens : ¬ token.kind.opens)
    (hcloses : ¬ token.kind.closes) : ClosesAll stack rest :=
  (openBrackets_of_plain hopens hcloses).symm.trans h

theorem ClosesAll.of_closes (h : ClosesAll (opening :: outer) (token :: rest))
    (htoken : token.kind.closes) :
    opening.kind.closer? = some token.kind ∧ ClosesAll outer rest := by
  obtain ⟨_, _, hstack, hmatch, hrest⟩ := exists_of_closes htoken h
  cases hstack
  exact ⟨hmatch, hrest⟩

end

/-- Tokens that are no brackets. -/
theorem Balances.of_plain (h : ∀ token ∈ tokens.take count,
    ¬ token.kind.opens ∧ ¬ token.kind.closes) : Balances count tokens := by
  intro stack _
  refine ⟨stack, ?_, rfl⟩
  generalize tokens.take count = front at h
  induction front with
  | nil => rfl
  | cons token rest ih =>
    obtain ⟨⟨hopens, hcloses⟩, hrest⟩ := List.forall_mem_cons.mp h
    rw [openBrackets_of_plain hopens hcloses]
    exact ih hrest

namespace Parser

section

variable {stack inner outer tokens : List Token}

/-- A group ends with the bracket that closes it. -/
theorem leavesOpen_groupLength (inner : List Token) (hinner : inner ≠ [])
    (h : ClosesAll (inner ++ outer) tokens) :
    LeavesOpen (· = outer) (inner ++ outer) (groupLength inner.length tokens) tokens := by
  induction tokens generalizing inner with
  | nil => simp [ClosesAll.nil_iff, hinner] at h
  | cons token rest ih =>
    obtain ⟨opening, inner, rfl⟩ := List.exists_cons_of_ne_nil hinner
    by_cases hopens : token.kind.opens
    · have hlength : groupLength (opening :: inner).length (token :: rest) =
          1 + groupLength (token :: opening :: inner).length rest := by
        simp [groupLength, hopens]
      rw [hlength]
      have hrest := h.of_opens hopens
      exact .of_opens hopens (ih (token :: opening :: inner) (List.cons_ne_nil _ _) hrest)
    by_cases hcloses : token.kind.closes
    · obtain ⟨hmatch, hrest⟩ := h.of_closes hcloses
      cases inner with
      | nil =>
        have hlength : groupLength [opening].length (token :: rest) = 1 + 0 := by
          simp [groupLength, hopens, hcloses]
        rw [hlength]
        exact .of_closes hcloses hmatch (.zero rfl)
      | cons second inner =>
        have hlength : groupLength (opening :: second :: inner).length (token :: rest) =
            1 + groupLength (second :: inner).length rest := by
          simp [groupLength, hopens, hcloses]
        rw [hlength]
        exact .of_closes hcloses hmatch (ih (second :: inner) (List.cons_ne_nil _ _) hrest)
    · have hlength : groupLength (opening :: inner).length (token :: rest) =
          1 + groupLength (opening :: inner).length rest := by
        simp [groupLength, hopens, hcloses]
      rw [hlength]
      have hrest := h.of_plain hopens hcloses
      exact .of_plain hopens hcloses (ih (opening :: inner) (List.cons_ne_nil _ _) hrest)

theorem leavesOpen_group (hopens : ∀ token ∈ tokens.head?, token.kind.opens)
    (h : ClosesAll outer tokens) :
    LeavesOpen (· = outer) outer (groupLength 0 tokens) tokens := by
  cases tokens with
  | nil => exact .zero rfl
  | cons token rest =>
    have htoken := hopens token rfl
    have hlength : groupLength 0 (token :: rest) = 1 + groupLength [token].length rest := by
      simp [groupLength, htoken]
    rw [hlength]
    have hrest := h.of_opens htoken
    exact .of_opens htoken (leavesOpen_groupLength [token] (List.cons_ne_nil _ _) hrest)

/-- An initial value ends where all is closed that is opened in it. -/
theorem leavesOpen_initializerLength (inner : List Token) (ends : TokenKind → Bool)
    (first : Bool) (h : ClosesAll (inner ++ outer) tokens) :
    LeavesOpen (· = outer) (inner ++ outer) (initializerLength ends first inner.length tokens)
      tokens := by
  induction tokens generalizing inner first with
  | nil =>
    obtain ⟨rfl, rfl⟩ := List.append_eq_nil_iff.mp (ClosesAll.nil_iff.mp h)
    exact .zero rfl
  | cons token rest ih =>
    by_cases hend : inner.length = 0 ∧ (token.kind.closes ∨ ends token.kind ∨
        !first && token.newlineBefore && token.kind != .dot)
    · obtain ⟨hinner, hend⟩ := hend
      cases List.eq_nil_of_length_eq_zero hinner
      have hlength : initializerLength ends first ([] : List Token).length (token :: rest) = 0 := by
        have hopens := @closes_eq_false_of_opens token.kind
        grind [initializerLength]
      rw [hlength]
      exact .zero rfl
    by_cases hopens : token.kind.opens
    · have hlength : initializerLength ends first inner.length (token :: rest) =
          1 + initializerLength ends false (token :: inner).length rest := by
        grind [initializerLength]
      rw [hlength]
      exact .of_opens hopens (ih (token :: inner) false (h.of_opens hopens))
    by_cases hcloses : token.kind.closes
    · cases inner with
      | nil => exact absurd ⟨rfl, .inl hcloses⟩ hend
      | cons opening inner =>
        obtain ⟨hmatch, hrest⟩ := h.of_closes hcloses
        have hlength : initializerLength ends first (opening :: inner).length (token :: rest) =
            1 + initializerLength ends false inner.length rest := by
          simp [initializerLength, hopens, hcloses]
        rw [hlength]
        exact .of_closes hcloses hmatch (ih inner false hrest)
    · have hlength : initializerLength ends first inner.length (token :: rest) =
          1 + initializerLength ends false inner.length rest := by
        grind [initializerLength]
      rw [hlength]
      exact .of_plain hopens hcloses (ih inner false (h.of_plain hopens hcloses))

theorem leavesOpen_dottedLength (stack tokens : List Token) :
    LeavesOpen (· = stack) stack (dottedLength tokens) tokens := by
  have hplain : ∀ {token : Token} {rest : List Token} {count : Nat},
      token.kind = .word ∨ token.kind = .dot → LeavesOpen (· = stack) stack count rest →
        LeavesOpen (· = stack) stack (1 + count) (token :: rest) := by
    intro token rest count hkind
    apply LeavesOpen.of_plain
    · rcases hkind with hkind | hkind <;> simp [hkind, opens]
    · rcases hkind with hkind | hkind <;> simp [hkind, closes]
  fun_induction dottedLength tokens with
  | case1 => exact .zero rfl
  | case2 token hkind => exact hplain (.inl hkind) (.zero rfl)
  | case3 token hkind => exact .zero rfl
  | case4 token point rest hkind hpoint ih =>
    rw [Nat.add_assoc 1 1]
    exact hplain (.inl hkind) (hplain (.inr hpoint) ih)
  | case5 token point rest hkind hpoint =>
    have hnothing : LeavesOpen (· = stack) stack 0 (point :: rest) := .zero rfl
    exact hplain (.inl hkind) hnothing
  | case6 token point rest hkind => exact .zero rfl

theorem leavesOpen_decoratorLength (h : ClosesAll outer tokens) :
    LeavesOpen (· = outer) outer (decoratorLength tokens) tokens := by
  cases tokens with
  | nil => exact .zero rfl
  | cons token rest =>
    rw [decoratorLength]
    by_cases hkind : token.kind = .atSign
    · have hopens : ¬ token.kind.opens := by simp [hkind, opens]
      have hcloses : ¬ token.kind.closes := by simp [hkind, closes]
      have hname := leavesOpen_dottedLength outer rest
      rw [if_pos hkind, Nat.add_assoc]
      refine .of_plain hopens hcloses (hname.add ?_)
      split
      · next hparen =>
        refine leavesOpen_group (fun first hfirst => ?_)
          ((h.of_plain hopens hcloses).pass hname)
        rw [hfirst] at hparen
        rw [eq_of_beq hparen]
        rfl
      · exact .zero rfl
    · rw [if_neg hkind]
      exact .zero rfl

theorem leavesOpen_decoratorsLength (h : ClosesAll outer tokens) :
    LeavesOpen (· = outer) outer (decoratorsLength tokens) tokens := by
  have hupTo : ∀ count tokens, ClosesAll outer tokens →
      LeavesOpen (· = outer) outer (decoratorsUpTo count tokens) tokens := by
    intro count
    induction count with
    | zero => exact fun _ _ => .zero rfl
    | succ count ih =>
      intro tokens h
      by_cases hzero : decoratorLength tokens = 0
      · rw [decoratorsUpTo_of_eq_zero count hzero]
        exact .zero rfl
      · have hfirst := leavesOpen_decoratorLength h
        rw [decoratorsUpTo_of_ne_zero count hzero]
        exact hfirst.add (ih _ (h.pass hfirst))
  exact hupTo tokens.length tokens h

/-- A bracket that closes something else than a brace lifts the stack to what is around it. -/
theorem raises_of_closes {opening token : Token} (around : List Token)
    (hmatch : opening.kind.closer? = some token.kind) (hkind : token.kind ≠ .rBrace) :
    opening.kind ≠ .lBrace ∧ Raises (opening :: around) around := by
  have hopening : opening.kind ≠ .lBrace := by
    intro hopening
    rw [hopening] at hmatch
    exact hkind (Option.some.inj hmatch).symm
  exact ⟨hopening, .pop hopening around⟩

/-- Behind a malformed member the braces around it are still open. -/
theorem leavesOpen_malformedLength (inner : List Token)
    (h : ClosesAll (inner ++ outer) tokens) :
    LeavesOpen (Raises outer) (inner ++ outer) (malformedLength inner.length tokens) tokens := by
  induction tokens generalizing inner outer with
  | nil =>
    obtain ⟨rfl, rfl⟩ := List.append_eq_nil_iff.mp (ClosesAll.nil_iff.mp h)
    exact .zero (.refl [])
  | cons token rest ih =>
    by_cases hopens : token.kind.opens
    · have hlength : malformedLength inner.length (token :: rest) =
          1 + malformedLength (token :: inner).length rest := by
        simp [malformedLength, hopens]
      rw [hlength]
      exact .of_opens hopens (ih (token :: inner) (h.of_opens hopens))
    cases inner with
    | nil =>
      by_cases hbrace : token.kind = .rBrace
      · have hlength : malformedLength ([] : List Token).length (token :: rest) = 0 := by
          simp [malformedLength, hbrace, opens]
        rw [hlength]
        exact .zero (.refl outer)
      by_cases hend : token.kind = .semicolon ∨ token.kind = .comma
      · have hlength : malformedLength ([] : List Token).length (token :: rest) = 1 + 0 := by
          rcases hend with hend | hend <;> simp [malformedLength, hend, opens]
        have hcloses : ¬ token.kind.closes := by
          rcases hend with hend | hend <;> simp [hend, closes]
        rw [hlength]
        exact .of_plain hopens hcloses (.zero (.refl outer))
      have hlength : malformedLength ([] : List Token).length (token :: rest) =
          1 + malformedLength 0 rest := by
        grind [malformedLength]
      rw [hlength]
      by_cases hcloses : token.kind.closes
      · obtain ⟨opening, around, rfl, hmatch, hrest⟩ := exists_of_closes hcloses h
        obtain ⟨-, hraises⟩ := raises_of_closes around hmatch hbrace
        exact .of_closes hcloses hmatch ((ih [] hrest).mono fun _ => hraises.trans)
      · exact .of_plain hopens hcloses (ih [] (h.of_plain hopens hcloses))
    | cons opening inner =>
      by_cases hcloses : token.kind.closes
      · obtain ⟨hmatch, hrest⟩ := h.of_closes hcloses
        have hlength : malformedLength (opening :: inner).length (token :: rest) =
            1 + malformedLength inner.length rest := by
          simp [malformedLength, hopens, hcloses]
        rw [hlength]
        exact .of_closes hcloses hmatch (ih inner hrest)
      · have hlength : malformedLength (opening :: inner).length (token :: rest) =
            1 + malformedLength (opening :: inner).length rest := by
          simp [malformedLength, hopens, hcloses]
        rw [hlength]
        exact .of_plain hopens hcloses (ih (opening :: inner) (h.of_plain hopens hcloses))

/-- The one stack is raised to the other, and it is the same one if its innermost bracket is a
brace. -/
def Resumes (stack above : List Token) : Prop :=
  Raises stack above ∧ ((∀ opening ∈ stack.head?, opening.kind = .lBrace) → above = stack)

theorem Resumes.refl (stack : List Token) : Resumes stack stack :=
  ⟨.refl stack, fun _ => rfl⟩

/-- The next tokens, as many as are counted, leave the open braces open. They leave the stack as
it is where its innermost bracket is a brace. -/
def Resuming (count : Nat) (tokens : List Token) : Prop :=
  ∀ stack, ClosesAll stack tokens → LeavesOpen (Resumes stack) stack count tokens

/-- Behind a statement that is passed over the braces around it are still open, and nothing else
is where a brace is the innermost open bracket before it, or none is open. -/
theorem leavesOpen_statementLength (inner : List Token) (first : Bool)
    (h : ClosesAll (inner ++ outer) tokens) :
    LeavesOpen (Resumes outer) (inner ++ outer) (statementLength first inner.length tokens)
      tokens := by
  induction tokens generalizing inner outer first with
  | nil =>
    obtain ⟨rfl, rfl⟩ := List.append_eq_nil_iff.mp (ClosesAll.nil_iff.mp h)
    exact .zero (.refl [])
  | cons token rest ih =>
    by_cases hline : inner.length = 0 ∧ !first ∧ token.newlineBefore ∧
        token.word?.any statementWords.contains
    · obtain ⟨hinner, hline⟩ := hline
      cases List.eq_nil_of_length_eq_zero hinner
      have hlength : statementLength first ([] : List Token).length (token :: rest) = 0 := by
        simp [statementLength, hline]
      rw [hlength]
      exact .zero (.refl outer)
    by_cases hopens : token.kind.opens
    · have hlength : statementLength first inner.length (token :: rest) =
          1 + statementLength false (token :: inner).length rest := by
        simp_all [statementLength]
      rw [hlength]
      exact .of_opens hopens (ih (token :: inner) false (h.of_opens hopens))
    cases inner with
    | nil =>
      by_cases hbrace : token.kind = .rBrace
      · have hlength : statementLength first ([] : List Token).length (token :: rest) = 0 := by
          simp [statementLength, hbrace, opens]
        rw [hlength]
        exact .zero (.refl outer)
      by_cases hend : token.kind = .semicolon
      · have hlength : statementLength first ([] : List Token).length (token :: rest) = 1 + 0 := by
          simp_all [statementLength]
        rw [hlength]
        exact .of_plain hopens (by simp [hend, closes]) (.zero (.refl outer))
      have hlength : statementLength first ([] : List Token).length (token :: rest) =
          1 + statementLength false 0 rest := by
        simp_all [statementLength]
      rw [hlength]
      by_cases hcloses : token.kind.closes
      · obtain ⟨opening, around, rfl, hmatch, hrest⟩ := exists_of_closes hcloses h
        obtain ⟨hopening, hraises⟩ := raises_of_closes around hmatch hbrace
        refine .of_closes hcloses hmatch ((ih [] false hrest).mono fun _ habove => ?_)
        exact ⟨hraises.trans habove.1, fun htop => absurd (htop opening rfl) hopening⟩
      · exact .of_plain hopens hcloses (ih [] false (h.of_plain hopens hcloses))
    | cons opening inner =>
      by_cases hcloses : token.kind.closes
      · obtain ⟨hmatch, hrest⟩ := h.of_closes hcloses
        by_cases hblock : inner.length = 0 ∧ token.kind = .rBrace
        · -- Behind a block a semicolon belongs to the statement, too.
          obtain ⟨hinner, hkind⟩ := hblock
          cases List.eq_nil_of_length_eq_zero hinner
          by_cases hend : rest.head?.any (·.kind == .semicolon)
          · obtain ⟨second, behind, rfl, hsecond⟩ : ∃ second behind, rest = second :: behind ∧
                second.kind = .semicolon := by
              cases rest with
              | nil => cases hend
              | cons second behind => exact ⟨second, behind, rfl, by simpa using hend⟩
            have hlength : statementLength first [opening].length (token :: second :: behind) =
                1 + (1 + 0) := by
              simp [statementLength, hkind, hsecond, opens, closes]
            rw [hlength]
            refine .of_closes hcloses hmatch (.of_plain ?_ ?_ (.zero (.refl outer)))
            · simp [hsecond, opens]
            · simp [hsecond, closes]
          · have hlength : statementLength first [opening].length (token :: rest) = 1 + 0 := by
              simp [statementLength, hkind, hend, opens, closes]
            rw [hlength]
            exact .of_closes hcloses hmatch (.zero (.refl outer))
        · have hlength : statementLength first (opening :: inner).length (token :: rest) =
              1 + statementLength false inner.length rest := by
            simp_all [statementLength]
          rw [hlength]
          exact .of_closes hcloses hmatch (ih inner false hrest)
      · have hlength : statementLength first (opening :: inner).length (token :: rest) =
            1 + statementLength false (opening :: inner).length rest := by
          simp_all [statementLength]
        rw [hlength]
        exact .of_plain hopens hcloses (ih (opening :: inner) false (h.of_plain hopens hcloses))

end

end Parser

end DeclSchema
