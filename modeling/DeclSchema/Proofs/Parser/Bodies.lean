import DeclSchema.Proofs.Parser.Enclosure
import DeclSchema.Proofs.Token.Tiling

/-!
# Bodies and their braces

An interface, the block of a namespace and a type literal have a body in curly brackets.
`EndsAtBrace` says that such a node ends with the brace that closes its body: brackets are
counted from the brace that opens it, whatever the parser made of the text in between. Which
braces these are depends on the node and the tokens alone.
-/

namespace DeclSchema

open TokenKind

/-- Whether nodes of the kind have a body in curly brackets in which members or statements
are read at the nesting of the node. -/
def NodeKind.hasBody : NodeKind → Bool
  | .interfaceDeclaration | .moduleBlock | .typeLiteral => true
  | _ => false

/-- Whether children of the kind stand before the body of an interface. -/
def NodeKind.heads : NodeKind → Bool
  | .identifier | .typeParameter | .heritageClause => true
  | _ => false

/-- The tokens begin with an opening brace, the closing brace is the one that belongs to it,
and `behind` is what follows the two. -/
def Surrounds (opening closing : Token) (tokens behind : List Token) : Prop :=
  ∃ inside, tokens = opening :: (inside ++ closing :: behind) ∧ opening.kind = .lBrace ∧
    closing.kind = .rBrace ∧ nests [] (inside.map (·.kind))

theorem Surrounds.mem {opening closing : Token} {tokens behind : List Token}
    (h : Surrounds opening closing tokens behind) : closing ∈ tokens := by
  obtain ⟨inside, rfl, -⟩ := h
  simp

/-- The last of the tokens that is not behind the node ends where the node does, and no
opening brace stands behind it. -/
def EndsBefore (node : Node) (tokens : List Token) : Prop :=
  ∃ front last gap, tokens = front ++ last :: gap ∧ last.span.stop = node.span.stop ∧
    ∀ token ∈ gap, token.kind ≠ .lBrace

/-- The brace behind the tokens opens the body of the node: a block and a type literal begin
with it, and in an interface it is the first one behind the last of the name, the type
parameters and the clauses. -/
def OpensBody (node : Node) (before : List Token) (opening : Token) : Prop :=
  if node.kind = .interfaceDeclaration then
    ∃ header last members, node.children = header ++ last :: members ∧ last.kind.heads ∧
      (∀ member ∈ members, ¬ member.kind.heads) ∧ EndsBefore last before
  else
    node.span.start = opening.span.start

theorem opensBody_interface {node : Node} (h : node.kind = .interfaceDeclaration)
    {before : List Token} {opening : Token} :
    OpensBody node before opening ↔
      ∃ header last members, node.children = header ++ last :: members ∧ last.kind.heads ∧
        (∀ member ∈ members, ¬ member.kind.heads) ∧ EndsBefore last before := by
  rw [OpensBody, if_pos h]

theorem opensBody_of_ne {node : Node} (h : node.kind ≠ .interfaceDeclaration)
    {before : List Token} {opening : Token} :
    OpensBody node before opening ↔ node.span.start = opening.span.start := by
  rw [OpensBody, if_neg h]

/-- The node ends with the brace that closes its body. -/
def EndsAtBrace (source : String) (node : Node) : Prop :=
  ∃ before tokens opening closing behind,
    (TokenStream.ofSource source).tokens = before ++ tokens ∧
      Surrounds opening closing tokens behind ∧ OpensBody node before opening ∧
      node.span.stop = closing.span.stop

section

variable {α : Type} {P : α → Prop} {front front' rest rest' : List α} {a a' : α}

/-- What stands before the first element with a property, and what stands behind it. -/
theorem append_cons_inj_of_first (h : front ++ a :: rest = front' ++ a' :: rest') (ha : P a)
    (ha' : P a') (hfront : ∀ b ∈ front, ¬ P b) (hfront' : ∀ b ∈ front', ¬ P b) :
    front = front' ∧ a = a' ∧ rest = rest' := by
  induction front generalizing front' with
  | nil =>
    cases front' with
    | nil => exact ⟨rfl, List.cons.inj h⟩
    | cons b front' =>
      obtain ⟨rfl, -⟩ := List.cons.inj h
      exact absurd ha (hfront' a List.mem_cons_self)
  | cons b front ih =>
    cases front' with
    | nil =>
      obtain ⟨rfl, -⟩ := List.cons.inj h
      exact absurd ha' (hfront b List.mem_cons_self)
    | cons b' front' =>
      obtain ⟨rfl, htail⟩ := List.cons.inj h
      obtain ⟨rfl, hrest⟩ := ih htail (fun c hc => hfront c (List.mem_cons_of_mem _ hc))
        fun c hc => hfront' c (List.mem_cons_of_mem _ hc)
      exact ⟨rfl, hrest⟩

/-- Elements in strict order of a key are told apart by it. -/
theorem append_cons_inj_of_lt {key : α → Nat} {list : List α}
    (hlt : list.Pairwise fun b c => key b < key c) (h : list = front ++ a :: rest)
    (h' : list = front' ++ a' :: rest') (hkey : key a = key a') :
    front = front' ∧ a = a' ∧ rest = rest' := by
  have hbefore : ∀ {front rest : List α} {a : α}, list = front ++ a :: rest →
      ∀ b ∈ front, key b < key a := by
    rintro front rest a rfl b hb
    exact (List.pairwise_append.mp hlt).2.2 b hb a List.mem_cons_self
  refine append_cons_inj_of_first (P := fun b => key b = key a) (h.symm.trans h') rfl hkey.symm
    (fun b hb => Nat.ne_of_lt (hbefore h b hb)) fun b hb => ?_
  rw [hkey]
  exact Nat.ne_of_lt (hbefore h' b hb)

/-- The last element with a property is the first one from behind. -/
theorem append_cons_inj_of_last (h : front ++ a :: rest = front' ++ a' :: rest') (ha : P a)
    (ha' : P a') (hrest : ∀ b ∈ rest, ¬ P b) (hrest' : ∀ b ∈ rest', ¬ P b) : a = a' := by
  have hreverse := congrArg List.reverse h
  simp only [List.reverse_append, List.reverse_cons, List.append_assoc, List.singleton_append]
    at hreverse
  exact (append_cons_inj_of_first hreverse ha ha' (by simpa using hrest)
    (by simpa using hrest')).2.1

end

section

variable {source : String} {node : Node} {before before' tokens tokens' behind behind' : List Token}
  {opening opening' closing closing' : Token}

theorem pairwise_ofSource (source : String) : (TokenStream.ofSource source).tokens.Pairwise
    fun a b => a.span.start < b.span.start ∧ a.span.stop < b.span.stop :=
  (TokenStream.inOrder_ofSource source).pairwise

/-- Brackets are counted from the opening brace, and so it alone says which brace closes. -/
theorem Surrounds.unique (h : Surrounds opening closing tokens behind)
    (h' : Surrounds opening' closing' tokens behind') : closing = closing' := by
  obtain ⟨inside, rfl, -, hclosing, hnests⟩ := h
  obtain ⟨inside', htokens, -, hclosing', hnests'⟩ := h'
  replace htokens := (List.cons.inj htokens).2
  generalize ([] : List TokenKind) = awaited at hnests hnests'
  induction inside generalizing inside' awaited with
  | nil =>
    obtain rfl := List.isEmpty_iff.mp hnests
    cases inside' with
    | nil => exact (List.cons.inj htokens).1
    | cons token inside' =>
      obtain ⟨rfl, -⟩ := List.cons.inj htokens
      simp [nests, awaitedBehind, hclosing, closer?, isCloser] at hnests'
  | cons token inside ih =>
    obtain ⟨awaited', hstep, hinside⟩ := nests_cons.mp hnests
    cases inside' with
    | nil =>
      obtain rfl := List.isEmpty_iff.mp hnests'
      obtain ⟨rfl, -⟩ := List.cons.inj htokens
      simp [awaitedBehind, hclosing', closer?, isCloser] at hstep
    | cons token' inside' =>
      obtain ⟨rfl, hrest⟩ := List.cons.inj htokens
      obtain ⟨awaited'', hstep', hinside'⟩ := nests_cons.mp hnests'
      obtain rfl := Option.some.inj (hstep.symm.trans hstep')
      exact ih inside' hrest awaited' hinside hinside'

/-- The node says which brace opens its body. -/
theorem OpensBody.unique (h : OpensBody node before opening) (h' : OpensBody node before' opening')
    (htokens : (TokenStream.ofSource source).tokens = before ++ tokens)
    (htokens' : (TokenStream.ofSource source).tokens = before' ++ tokens')
    (hsurrounds : Surrounds opening closing tokens behind)
    (hsurrounds' : Surrounds opening' closing' tokens' behind') : tokens = tokens' := by
  have horder := pairwise_ofSource source
  obtain ⟨inside, rfl, hopen, -⟩ := hsurrounds
  obtain ⟨inside', rfl, hopen', -⟩ := hsurrounds'
  by_cases hkind : node.kind = .interfaceDeclaration
  · obtain ⟨header, last, members, hchildren, hlast, hmembers, front, token, gap, rfl, hstop,
      hgap⟩ := (opensBody_interface hkind).mp h
    obtain ⟨header', last', members', hchildren', hlast', hmembers', front', token', gap', rfl,
      hstop', hgap'⟩ := (opensBody_interface hkind).mp h'
    obtain rfl : last = last' := append_cons_inj_of_last (P := fun node => node.kind.heads)
      (hchildren.symm.trans hchildren') hlast hlast' hmembers hmembers'
    rw [List.append_assoc] at htokens htokens'
    obtain ⟨-, -, hbehind⟩ := append_cons_inj_of_lt (horder.imp And.right) htokens htokens'
      (hstop.trans hstop'.symm)
    obtain ⟨-, rfl, hrest⟩ := append_cons_inj_of_first (P := fun token => token.kind = .lBrace)
      hbehind hopen hopen' hgap hgap'
    rw [hrest]
  · have hstart := (opensBody_of_ne hkind).mp h
    have hstart' := (opensBody_of_ne hkind).mp h'
    obtain ⟨-, rfl, hrest⟩ := append_cons_inj_of_lt (horder.imp And.left) htokens htokens'
      (hstart.symm.trans hstart')
    rw [hrest]

/-- A node ends at its brace exactly if it ends with the one brace that closes its body. -/
theorem endsAtBrace_iff (htokens : (TokenStream.ofSource source).tokens = before ++ tokens)
    (hsurrounds : Surrounds opening closing tokens behind)
    (hopens : OpensBody node before opening) :
    EndsAtBrace source node ↔ node.span.stop = closing.span.stop := by
  constructor
  · rintro ⟨before', tokens', opening', closing', behind', htokens', hsurrounds', hopens', hstop⟩
    obtain rfl := hopens.unique hopens' htokens htokens' hsurrounds hsurrounds'
    rw [hstop, hsurrounds.unique hsurrounds']
  · intro hstop
    exact ⟨before, tokens, opening, closing, behind, htokens, hsurrounds, hopens, hstop⟩

end

/-- All nodes with a body, from the node down, end with the brace that closes it. -/
def Whole (source : String) (node : Node) : Prop :=
  ∀ below ∈ node.preorder, below.kind.hasBody → EndsAtBrace source below

section

variable {source : String}

theorem Whole.of_children {node : Node} (h : node.kind.hasBody → EndsAtBrace source node)
    (hchildren : ∀ child ∈ node.children, Whole source child) : Whole source node :=
  Node.forall_mem_preorder_iff.mpr ⟨h, hchildren⟩

/-- A node of a kind that has no body. -/
theorem Whole.inner {kind : NodeKind} {text : Option String} {tags : List DocTag} {span : Span}
    {children : List Node} (h : kind.hasBody = false)
    (hchildren : ∀ child ∈ children, Whole source child) :
    Whole source ⟨kind, text, tags, span, children⟩ :=
  .of_children (fun hkind => absurd hkind (by simp [h])) hchildren

theorem Whole.leaf {kind : NodeKind} {text : String} {span : Span} (h : kind.hasBody = false) :
    Whole source (Node.leaf kind text span) :=
  .inner h (List.forall_mem_nil _)

theorem Whole.mark {kind : NodeKind} {span : Span} (h : kind.hasBody = false) :
    Whole source (Node.mark kind span) :=
  .inner h (List.forall_mem_nil _)

end

end DeclSchema
