import DeclSchema.Proofs.Parser.Building

/-!
# Trees over tokens

A node covers the tokens from the one that it begins with to the one that it ends with. Its
children cover some of these, one child behind the other, and so on down to the leaves.
`CoveredBy` says so of a list of tokens and the nodes over it, without any offsets: tokens
that no node covers may stand anywhere between. `Laid` says of two states that what is read
between them is covered by nodes, and `Lays` of a parser that it gives the nodes that cover
what it reads. The rules below derive it for a composed parser from its parts, in the order
in which they read.
-/

namespace DeclSchema

/-- The nodes lie in the span, one behind the other. -/
structure Span.Holds (span : Span) (nodes : List Node) : Prop where
  within : ∀ node ∈ nodes, span.start ≤ node.span.start ∧ node.span.stop ≤ span.stop
  inOrder : nodes.Pairwise fun earlier later => earlier.span.stop ≤ later.span.start

/-- The node begins where one of the tokens begins and ends where one ends, behind its beginning,
and its children lie in its span, one behind the other. -/
structure Node.Aligned (tokens : List Token) (node : Node) : Prop where
  bounds : ∃ first ∈ tokens, ∃ last ∈ tokens, node.span = ⟨first.span.start, last.span.stop⟩
  proper : node.span.start < node.span.stop
  holds : node.span.Holds node.children

theorem Node.Aligned.mono {tokens more : List Token} {node : Node} (h : node.Aligned tokens)
    (hmore : tokens ⊆ more) : node.Aligned more where
  bounds := by
    obtain ⟨first, hfirst, last, hlast, hspan⟩ := h.bounds
    exact ⟨first, hmore hfirst, last, hmore hlast, hspan⟩
  proper := h.proper
  holds := h.holds

namespace Parser

/-- Each of the nodes covers some of the tokens, from the token that it begins with to the one
that it ends with, and each begins behind the one before it. The children of a node cover
tokens that the node covers. -/
inductive CoveredBy : List Token → List Node → Prop
  | nil (tokens : List Token) : CoveredBy tokens []
  | cons {gap own behind : List Token} {first last : Token} {node : Node} {others : List Node}
    (starts : own.head? = some first) (ends : own.getLast? = some last)
    (span : node.span = ⟨first.span.start, last.span.stop⟩)
    (children : CoveredBy own node.children) (rest : CoveredBy behind others) :
    CoveredBy (gap ++ (own ++ behind)) (node :: others)

namespace CoveredBy

variable {tokens more own : List Token} {nodes others : List Node} {node : Node}
  {first last : Token}

theorem gap (h : CoveredBy tokens nodes) (front : List Token) :
    CoveredBy (front ++ tokens) nodes := by
  cases h with
  | nil => exact .nil _
  | cons starts ends span children rest =>
    rw [← List.append_assoc]
    exact .cons starts ends span children rest

theorem append (h : CoveredBy tokens nodes) (h' : CoveredBy more others) :
    CoveredBy (tokens ++ more) (nodes ++ others) := by
  induction h with
  | nil => exact h'.gap _
  | cons starts ends span children rest _ ih =>
    simp only [List.append_assoc, List.cons_append]
    exact .cons starts ends span children ih

/-- A node over all of the tokens. -/
theorem whole (starts : own.head? = some first) (ends : own.getLast? = some last)
    (span : node.span = ⟨first.span.start, last.span.stop⟩)
    (children : CoveredBy own node.children) : CoveredBy own [node] := by
  have hnode : CoveredBy ([] ++ (own ++ [])) [node] := .cons starts ends span children (.nil [])
  rwa [List.append_nil] at hnode

/-- A node around another one, over the same tokens. -/
theorem wrap {inner : Node} (h : CoveredBy tokens [inner]) (hspan : node.span = inner.span)
    (hchildren : node.children = [inner]) : CoveredBy tokens [node] := by
  cases h with
  | cons starts ends span children rest =>
    refine .cons starts ends (hspan.trans span) ?_ rest
    rw [hchildren]
    exact .whole starts ends span children

/-- Nodes over tokens in order lie one behind the other. -/
theorem holds {start stop : Nat} (h : CoveredBy tokens nodes)
    (htokens : InOrder stop start tokens) : Span.Holds ⟨start, stop⟩ nodes := by
  induction h generalizing start with
  | nil => exact ⟨List.forall_mem_nil _, .nil⟩
  | @cons gap own behind first last node others starts ends span children rest _ ih =>
    have hown := htokens.behind.front
    have hbehind := htokens.behind.behind
    rw [ends, Option.map_some, Option.getD_some] at hown hbehind
    obtain ⟨hwithin, hinOrder⟩ := ih hbehind
    have hbefore := htokens.front.start_le_stop
    have hstart := (hown.bounds (List.mem_of_mem_head? starts)).1
    have hlast := hown.start_le_stop
    have hstop := hbehind.start_le_stop
    refine ⟨List.forall_mem_cons.mpr ⟨?_, fun other hother => ?_⟩, .cons (fun other hother => ?_)
      hinOrder⟩
    · rw [span]
      exact ⟨Nat.le_trans hbefore hstart, hstop⟩
    · obtain ⟨hfollows, hends⟩ := hwithin other hother
      exact ⟨Nat.le_trans hbefore (Nat.le_trans hlast hfollows), hends⟩
    · rw [span]
      exact (hwithin other hother).1

/-- So they do at every level below. -/
theorem aligned {start stop : Nat} (h : CoveredBy tokens nodes)
    (htokens : InOrder stop start tokens) :
    ∀ node ∈ Node.preorder.preorderList nodes, node.Aligned tokens := by
  induction h generalizing start stop with
  | nil => exact nofun
  | @cons gap own behind first last node others starts ends span children rest ihChildren ihRest =>
    have hown := htokens.behind.front
    rw [ends, Option.map_some, Option.getD_some] at hown
    have hmem : own ⊆ gap ++ (own ++ behind) :=
      List.Subset.trans (List.subset_append_left own behind) (List.subset_append_right gap _)
    have hmem' : behind ⊆ gap ++ (own ++ behind) :=
      List.Subset.trans (List.subset_append_right own behind) (List.subset_append_right gap _)
    rw [Node.preorder.preorderList, Node.preorder_eq]
    refine List.forall_mem_append.mpr ⟨List.forall_mem_cons.mpr ⟨⟨?_, ?_, ?_⟩,
      fun inner hinner => ?_⟩, fun inner hinner => ?_⟩
    · exact ⟨first, hmem (List.mem_of_mem_head? starts), last,
        hmem (List.mem_of_getLast? ends), span⟩
    · rw [span]
      exact (hown.bounds (List.mem_of_mem_head? starts)).2
    · rw [span]
      exact children.holds (hown.of_head? starts)
    · exact (ihChildren hown inner hinner).mono hmem
    · exact (ihRest htokens.behind.behind inner hinner).mono hmem'

end CoveredBy

/-- What is read on the way from the one state to the other is covered by the nodes. It is one
token or more if `strict` holds. -/
def Laid (strict : Bool) (s t : State) (nodes : List Node) : Prop :=
  s.Ordered → ∃ read, s.Reads read t ∧ (strict → read ≠ []) ∧ CoveredBy read nodes

namespace Laid

variable {a b : Bool} {s t u : State} {nodes others : List Node} {node : Node}

theorem refl (s : State) : Laid false s s [] :=
  fun _ => ⟨[], .refl s, nofun, .nil _⟩

theorem of_reaches (h : s.Reaches t) : Laid false s t [] :=
  fun _ => h.imp fun read hread => ⟨hread, nofun, .nil read⟩

theorem of_reaches_lt (h : s.Reaches t) (hlt : t.rest.length < s.rest.length) :
    Laid true s t [] :=
  fun _ => h.imp fun read hread => ⟨hread, fun _ => hread.ne_nil hlt, .nil read⟩

theorem trans (h : Laid a s t nodes) (h' : Laid b t u others) :
    Laid (a || b) s u (nodes ++ others) := by
  intro hs
  obtain ⟨read, hread, hstrict, hcovered⟩ := h hs
  obtain ⟨more, hmore, hstrict', hcovered'⟩ := h' (hread.ordered hs)
  refine ⟨read ++ more, hread.trans hmore, fun hor hnil => ?_, hcovered.append hcovered'⟩
  obtain ⟨hread, hmore⟩ := List.append_eq_nil_iff.mp hnil
  exact (Bool.or_eq_true_iff.mp hor).elim (hstrict · hread) (hstrict' · hmore)

/-- Reading on without a node. -/
theorem skip (h : Laid a s t nodes) (h' : Laid b t u []) : Laid (a || b) s u nodes := by
  have hnodes := h.trans h'
  rwa [List.append_nil] at hnodes

/-- What is read need not be kept. -/
theorem forget (h : Laid a s t nodes) : Laid a s t [] := by
  intro hs
  obtain ⟨read, hread, hstrict, -⟩ := h hs
  exact ⟨read, hread, hstrict, .nil read⟩

theorem lax (h : Laid a s t nodes) : Laid false s t nodes := by
  intro hs
  obtain ⟨read, hread, -, hcovered⟩ := h hs
  exact ⟨read, hread, nofun, hcovered⟩

/-- Only what is left, where reading stands and the length of the source matter. -/
theorem congr (h : Laid a s t nodes) (hrest : u.rest = t.rest)
    (hprevEnd : u.prevEnd = t.prevEnd) (hlength : u.length = t.length) : Laid a s u nodes := by
  intro hs
  obtain ⟨read, hread, hstrict, hcovered⟩ := h hs
  exact ⟨read, hread.congr hrest hprevEnd hlength, hstrict, hcovered⟩

/-- What is read becomes a node around the nodes that cover it. -/
theorem inner (h : Laid true s t nodes) (hspan : node.span = Span.ofBounds s.start t.prevEnd)
    (hchildren : node.children = nodes) : Laid true s t [node] := by
  intro hs
  obtain ⟨read, hread, hstrict, hcovered⟩ := h hs
  obtain ⟨first, rest, rfl⟩ := List.exists_cons_of_ne_nil (hstrict rfl)
  have hlast := List.getLast?_eq_some_getLast (List.cons_ne_nil first rest)
  have hmem := List.getLast_mem (List.cons_ne_nil first rest)
  generalize (first :: rest).getLast _ = last at hlast hmem
  refine ⟨_, hread, hstrict, .whole rfl hlast ?_ (hchildren ▸ hcovered)⟩
  have hstart : s.start = first.span.start := by
    rw [State.start, hread.rest]
    rfl
  have hstop : t.prevEnd = last.span.stop := by
    rw [hread.prevEnd, hlast]
    rfl
  have hbounds := hs.stop_ofBounds (hread.rest ▸ List.mem_append_left _ hmem)
  rw [hspan, hstop, ← hstart]
  exact congrArg (Span.mk s.start) hbounds

/-- A node around the only one. -/
theorem wrap {outer : Node} (h : Laid a s t [node]) (hspan : outer.span = node.span)
    (hchildren : outer.children = [node]) : Laid a s t [outer] := by
  intro hs
  obtain ⟨read, hread, hstrict, hcovered⟩ := h hs
  exact ⟨read, hread, hstrict, hcovered.wrap hspan hchildren⟩

/-- A leaf over the tokens that are read. -/
theorem leaf {read : List Token} {first last : Token} (hread : s.Reads read t)
    (hfirst : read.head? = some first) (hlast : read.getLast? = some last)
    (hspan : node.span = ⟨first.span.start, last.span.stop⟩) (hchildren : node.children = []) :
    Laid true s t [node] := by
  intro _
  refine ⟨read, hread, fun _ hnil => ?_, .whole hfirst hlast hspan (hchildren ▸ .nil read)⟩
  simp [hnil] at hfirst

theorem token {first : Token} {rest : List Token} (hrest : s.rest = first :: rest)
    (hspan : node.span = first.span) (hchildren : node.children = []) :
    Laid true s (s.advance 1) [node] := by
  have hread := State.Reads.advance s 1
  rw [hrest] at hread
  exact .leaf hread rfl rfl hspan hchildren

end Laid

/-- Where the parser succeeds, what it gives and the state behind it satisfy `Q`. -/
def Leaves (p : Parser α) (s : State) (Q : α → State → Prop) : Prop :=
  ∀ a t, p s = (.ok a, t) → Q a t

/-- Where the parser succeeds, what it reads is covered by the nodes that it gives. -/
def Lays (strict : Bool) (nodes : α → List Node) (p : Parser α) (s : State) : Prop :=
  Leaves p s fun a t => Laid strict s t (nodes a)

/-- The parser gives one node. -/
def LaysNode (p : Parser Node) (s : State) : Prop :=
  Lays true (fun node => [node]) p s

/-- The parser gives a list of nodes. -/
def LaysNodes (strict : Bool) (p : Parser (List Node)) (s : State) : Prop :=
  Lays strict (fun nodes => nodes) p s

/-- The parser gives no node. -/
def Skips (strict : Bool) (p : Parser α) (s : State) : Prop :=
  Lays strict (fun _ => []) p s

section

variable {α β : Type} {p q : Parser α} {f : α → Parser β} {s t : State} {P : α → State → Prop}
  {Q : β → State → Prop}

namespace Leaves

theorem pure {b : β} (h : Q b s) : Leaves (pure b) s Q := by
  rintro _ _ ⟨⟩
  exact h

theorem fail {fault : Fault} : Leaves (fail fault) s Q :=
  nofun

theorem refuse : Leaves refuse s Q :=
  nofun

theorem bind (hp : Leaves p s P) (hf : ∀ a t, P a t → Leaves (f a) t Q) :
    Leaves (p >>= f) s Q := by
  intro b u hrun
  obtain ⟨a, t, hfirst, hrun⟩ := exists_of_bind_ok hrun
  exact hf a t (hp a t hfirst) b u hrun

theorem mono {P' : α → State → Prop} (hp : Leaves p s P) (hP : ∀ a t, P a t → P' a t) :
    Leaves p s P' :=
  fun a t hrun => hP a t (hp a t hrun)

theorem look {f : State → Parser β} (h : Leaves (f s) s Q) : Leaves (look >>= f) s Q :=
  h

theorem advance {count : Nat} {f : Unit → Parser β} (h : Leaves (f ()) (s.advance count) Q) :
    Leaves (advance count >>= f) s Q :=
  h

theorem ite {c : Prop} [Decidable c] (hp : c → Leaves p s P) (hq : ¬ c → Leaves q s P) :
    Leaves (if c then p else q) s P := by
  by_cases h : c
  · rw [if_pos h]
    exact hp h
  · rw [if_neg h]
    exact hq h

end Leaves

namespace Lays

variable {a b : Bool} {nodes : α → List Node} {before : List Node}

/-- The next parser, behind what is laid already. -/
theorem next (hp : Lays b nodes p t) (ht : Laid a s t before)
    (hf : ∀ x u, Laid (a || b) s u (before ++ nodes x) → Leaves (f x) u Q) :
    Leaves (p >>= f) t Q :=
  hp.bind fun x u hu => hf x u (ht.trans hu)

/-- The first parser. -/
theorem go (hp : Lays b nodes p s) (hf : ∀ x u, Laid b s u (nodes x) → Leaves (f x) u Q) :
    Leaves (p >>= f) s Q :=
  hp.bind hf

/-- The last parser. -/
theorem last (hp : Lays b nodes p t) (ht : Laid a s t before) :
    Leaves p t fun x u => Laid (a || b) s u (before ++ nodes x) :=
  hp.mono fun _ _ hu => ht.trans hu

theorem lax (hp : Lays a nodes p s) : Lays false nodes p s :=
  hp.mono fun _ _ => .lax

end Lays

namespace Skips

variable {a b : Bool} {before : List Node}

/-- Wherever reading may go no node is needed. -/
theorem of_keeps {R : α → Prop} (hp : Keeps s.Reaches p R) : Skips false p s :=
  fun _ _ hrun => .of_reaches (hp.of_ok (.refl s) hrun).1

theorem of_consumes {R : α → Prop} (hp : Keeps s.Reaches p R) (hconsumes : Consumes p) :
    Skips true p s :=
  fun x t hrun => .of_reaches_lt (hp.of_ok (.refl s) hrun).1 (hconsumes s t x hrun)

/-- The next parser, behind what is laid already. -/
theorem next (hp : Skips b p t) (ht : Laid a s t before)
    (hf : ∀ x u, Laid (a || b) s u before → Leaves (f x) u Q) : Leaves (p >>= f) t Q :=
  hp.bind fun x u hu => hf x u (ht.skip hu)

end Skips

namespace Leaves

variable {a b : Bool} {nodes : α → List Node} {before : List Node} {c : Prop} [Decidable c]

/-- A parser that gives no node and is run only under a condition. -/
theorem when {p : Parser Unit} {f : Unit → Parser β} (hp : c → Skips false p t)
    (ht : Laid a s t before) (hf : ∀ u, Laid a s u before → Leaves (f ()) u Q) :
    Leaves (if c then p >>= f else f ()) t Q := by
  refine .ite (fun h => (hp h).next ht fun _ u hu => hf u ?_) fun _ => hf t ht
  rwa [Bool.or_false] at hu

/-- One of two parsers, behind what is laid already. -/
theorem either (hp : c → Lays b nodes p t) (hq : ¬ c → Lays b nodes q t)
    (ht : Laid a s t before)
    (hf : ∀ x u, Laid (a || b) s u (before ++ nodes x) → Leaves (f x) u Q) :
    Leaves (if c then p >>= f else q >>= f) t Q :=
  .ite (fun h => (hp h).next ht hf) fun h => (hq h).next ht hf

end Leaves

end

section

variable {α β : Type} {p : Parser α} {s : State} {nodes : α → List Node}

theorem leaves_token (kind : TokenKind) (what : Wanted) :
    Leaves (token kind what) s fun read t => ∃ rest, s.rest = read :: rest ∧ t = s.advance 1 := by
  intro read t hrun
  unfold token at hrun
  cases hrest : s.rest with
  | nil =>
    rw [hrest] at hrun
    cases hrun
  | cons first rest =>
    rw [hrest] at hrun
    dsimp only at hrun
    split at hrun
    · cases hrun
      exact ⟨rest, rfl, rfl⟩
    · cases hrun

theorem skips_accept (kind : TokenKind) : Skips false (accept kind) s :=
  .of_keeps (.accept (steady_reaches s) kind)

theorem skips_acceptWord (word : String) : Skips false (acceptWord word) s :=
  .of_keeps (.acceptWord (steady_reaches s) word)

theorem skips_expect (kind : TokenKind) : Skips true (expect kind) s :=
  .of_consumes (.expect (steady_reaches s) kind) (consumes_expect kind)

theorem skips_advance (count : Nat) : Skips false (advance count) s :=
  .of_keeps (.advance (steady_reaches s) count)

theorem skips_advance_of_pos {count : Nat} (hcount : 0 < count) (hrest : s.rest ≠ []) :
    Skips true (advance count) s := by
  rintro _ _ ⟨⟩
  exact .of_reaches_lt ((State.Reaches.refl s).advance count) (length_advance_lt hcount hrest)

theorem skips_takeDocs : Skips false takeDocs s :=
  .of_keeps (.takeDocs (steady_reaches s))

theorem skips_skipDecorators : Skips false skipDecorators s :=
  .of_keeps (keeps_skipDecorators (steady_reaches s))

theorem skips_skipInitializer (ends : TokenKind → Bool) : Skips false (skipInitializer ends) s :=
  .of_keeps (keeps_skipInitializer (steady_reaches s) ends)

theorem skips_body : Skips false body s :=
  .of_keeps (keeps_body (steady_reaches s))

theorem skips_report (error : ParseError) : Skips false (report error) s := by
  rintro _ _ ⟨⟩
  exact .of_reaches ((State.Reaches.refl s).congr rfl rfl rfl)

theorem skips_skipGroup : Skips false skipGroup s :=
  .of_keeps (keeps_skipGroup (steady_reaches s))

/-- Where there is a token, a group has one too. -/
theorem skips_group {token : Token} {rest : List Token} (hrest : s.rest = token :: rest) :
    Skips true skipGroup s := by
  refine skips_advance_of_pos ?_ (by simp [hrest])
  rw [hrest]
  exact groupLength_pos token rest 0

theorem Lays.nested {strict : Bool} (h : ∀ s, Lays strict nodes p s) :
    Lays strict nodes (nested p) s := by
  intro a t hrun
  unfold Parser.nested at hrun
  split at hrun
  · cases hrun
  · rcases hp : p { s with depth := s.depth + 1 } with ⟨result, u⟩
    rw [hp] at hrun
    cases hrun
    have hdeeper : Laid false s { s with depth := s.depth + 1 } [] :=
      (Laid.refl s).congr rfl rfl rfl
    exact (hdeeper.trans (h _ a u hp)).congr rfl rfl rfl

theorem Lays.optional {item : Parser Node} {test : Parser Bool} (htest : Skips false test s)
    (h : ∀ t, LaysNode item t) : LaysNodes false (optional test item) s :=
  htest.go fun _ t ht => .ite
    (fun _ => (h t).next ht fun _ _ hu => .pure hu.lax)
    fun _ => .pure ht

section

variable {item : Parser Node} (h : ∀ t, LaysNode item t)

include h

theorem Lays.upTo {continues : State → Bool} (count : Nat) (s : State) :
    LaysNodes false (upTo continues item count) s := by
  induction count generalizing s with
  | zero => exact .pure (.refl s)
  | succ count ih =>
    refine .look (.ite (fun _ => ?_) fun _ => .pure (.refl s))
    exact (h s).go fun _ t ht => (ih t).next ht fun _ _ hu => .pure hu.lax

theorem Lays.repeatWhile {continues : State → Bool} :
    LaysNodes false (repeatWhile continues item) s :=
  Lays.upTo h s.rest.length s

theorem Lays.separated {separator : TokenKind} : LaysNodes true (separated separator item) s := by
  refine (h s).go fun first t ht => ?_
  refine (Lays.repeatWhile fun u => ?_).next ht fun _ _ hu => .pure hu
  exact (skips_advance 1).go fun _ v hv => (h v).last hv

theorem Lays.listUpTo {close : TokenKind} (count : Nat) (s : State) :
    LaysNodes false (listUpTo close item count) s := by
  induction count generalizing s with
  | zero => exact .pure (.refl s)
  | succ count ih =>
    refine (skips_accept close).go fun _ t ht => .ite (fun _ => .pure ht) fun _ => ?_
    refine (h t).next ht fun _ u hu => (skips_accept .comma).next hu fun _ u hu => .ite
      (fun _ => (ih u).next hu fun _ _ hv => .pure hv.lax)
      fun _ => (skips_expect close).next hu fun _ _ hv => .pure hv.lax

theorem Lays.commaList {close : TokenKind} : LaysNodes false (commaList close item) s :=
  Lays.listUpTo h (s.rest.length + 1) s

end

/-- A malformed member is passed over from wherever it was given up. -/
theorem Lays.members {separates : TokenKind → Bool} {recovery : List Token → Nat}
    {member : Parser (Option Node)} (h : ∀ t, Lays false Option.toList member t)
    (hkeeps : ∀ t, Keeps (State.Reaches t) member fun _ => True) :
    LaysNodes false (members separates recovery member) s := by
  obtain ⟨nodes, t, hrun, hlaid⟩ := membersUpTo_induction separates recovery member
    (motive := fun s nodes t => Laid false s t nodes) .refl
    (fun s _ => .of_reaches ((State.Reaches.refl s).advance _))
    (fun s node? t _ _ _ hread ih => by
      have hskip : Laid false s (s.skipSeparators separates) [] :=
        .of_reaches ((State.Reaches.refl s).advance _)
      exact (hskip.trans (h _ node? t hread)).trans ih)
    (fun s error t _ _ _ hread ih => by
      have hgaveUp := (hkeeps s).of_error ((State.Reaches.refl s).advance _) hread
      exact (Laid.of_reaches (hgaveUp.advance _)).trans ih)
    s.rest.length s
  intro found u hfound
  obtain ⟨hnodes, hstate⟩ := Prod.mk.inj (hrun.symm.trans hfound)
  cases hnodes
  exact hstate ▸ hlaid

end

end Parser

end DeclSchema
