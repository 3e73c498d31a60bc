import DeclSchema.Proofs.Parser.Following
import DeclSchema.Proofs.Parser.Rounds
import DeclSchema.Proofs.Parser.WalkingStatements
import Mathlib.Data.List.Forall2

/-!
# Declarations stand in namespaces only

A walk may leave the brackets of a source in a wrong order, since what is behind something
malformed is found by counting. But it leaves every brace open that is open where it begins. If
all brackets of the source are properly nested, as many braces are open at its end as at its
beginning, and so every statement on the way leaves as many open as it finds. The brackets that
are open where a declaration begins are therefore the braces of the namespaces around it.
-/

namespace DeclSchema

open TokenKind

/-- Between the tokens and their rest the open brackets turn from the one stack into the
other. -/
def Turns (tokens rest stack above : List Token) : Prop :=
  ∃ read, tokens = read ++ rest ∧ openBrackets stack read = some above

namespace Turns

variable {tokens rest last stack above higher outer : List Token} {token : Token}

theorem refl (tokens stack : List Token) : Turns tokens tokens stack stack :=
  ⟨[], rfl, rfl⟩

theorem trans (h : Turns tokens rest stack above) (h' : Turns rest last above higher) :
    Turns tokens last stack higher := by
  obtain ⟨read, rfl, hread⟩ := h
  obtain ⟨more, rfl, hmore⟩ := h'
  refine ⟨read ++ more, (List.append_assoc ..).symm, ?_⟩
  rw [openBrackets_append, hread]
  exact hmore

/-- The stack in front and the rest determine the stack behind. -/
theorem unique (h : Turns tokens rest stack above) (h' : Turns tokens rest stack higher) :
    above = higher := by
  obtain ⟨read, htokens, hread⟩ := h
  obtain ⟨more, rfl, hmore⟩ := h'
  rw [List.append_cancel_right htokens] at hmore
  exact Option.some_inj.mp (hread.symm.trans hmore)

theorem closesAll (h : Turns tokens rest stack above) (hcloses : ClosesAll stack tokens) :
    ClosesAll above rest := by
  obtain ⟨read, rfl, hread⟩ := h
  unfold ClosesAll at hcloses ⊢
  rwa [openBrackets_append, hread] at hcloses

theorem of_leavesOpen {Q : List Token → Prop} {count : Nat}
    (h : LeavesOpen Q stack count tokens) :
    ∃ above, Turns tokens (tokens.drop count) stack above ∧ Q above := by
  obtain ⟨above, habove, hQ⟩ := h
  exact ⟨above, ⟨_, (List.take_append_drop count tokens).symm, habove⟩, hQ⟩

theorem of_balances {count : Nat} (h : Balances count tokens) (hcloses : ClosesAll stack tokens) :
    Turns tokens (tokens.drop count) stack stack := by
  obtain ⟨_, hturns, rfl⟩ := of_leavesOpen (h stack hcloses)
  exact hturns

theorem of_opens (h : token.kind.opens) (rest stack : List Token) :
    Turns (token :: rest) rest stack (token :: stack) :=
  ⟨[token], rfl, openBrackets_of_opens h⟩

/-- A closing bracket closes the innermost one, and what is open around it stays open. -/
theorem of_closes (h : token.kind.closes) (hcloses : ClosesAll above (token :: rest)) :
    ∃ opening outer, above = opening :: outer ∧ opening.kind.closer? = some token.kind ∧
      Turns (token :: rest) rest above outer := by
  obtain ⟨opening, outer, rfl, hmatch, -⟩ := exists_of_closes h hcloses
  exact ⟨opening, outer, rfl, hmatch, [token], rfl, openBrackets_of_closes h hmatch⟩

end Turns

namespace Parser

/-- Something read as a whole leaves the open brackets as they are, if it leaves no more braces
open: a part of a statement anywhere, a statement where a brace is the innermost open bracket
or none is open. -/
def Course.Keeps (course : Course) (stack above : List Token) : Prop :=
  match course with
  | .part true => braces above = braces stack → above = stack
  | .member true => braces above = braces stack →
      (∀ opening ∈ stack.head?, opening.kind = .lBrace) → above = stack
  | _ => True

section

variable {stack above higher outer : List Token} {whole : Bool}

theorem Course.keeps_refl (course : Course) (stack : List Token) : course.Keeps stack stack := by
  unfold Keeps
  split
  · exact fun _ => rfl
  · exact fun _ _ => rfl
  · trivial

theorem Course.Keeps.member (h : (Course.part whole).Keeps stack above) :
    (Course.member whole).Keeps stack above := by
  cases whole with
  | false => trivial
  | true => exact fun hcount _ => h hcount

/-- A first part raises the stack, and a second one raises it further. -/
theorem Course.Keeps.trans (h : (Course.part true).Keeps stack above) (hraises : Raises stack above)
    (hmore : Raises above higher) (h' : (Course.part whole).Keeps above higher) :
    (Course.part whole).Keeps stack higher := by
  cases whole with
  | false => trivial
  | true =>
    intro hcount
    obtain rfl := h (hraises.braces_eq hmore hcount)
    exact h' hcount

theorem opens_of_lBrace {token : Token} (h : token.kind = .lBrace) : token.kind.opens := by
  rw [h]
  rfl

/-- Between two brackets of one kind the stack is raised. Then it is raised around them. -/
theorem raises_enclosed {opening last : Token} (hopens : opening.kind.opens)
    (hmatch : opening.kind.closer? = last.kind.closer?)
    (hraises : Raises (opening :: stack) (last :: above))
    (hkeeps : (Course.part true).Keeps (opening :: stack) (last :: above)) :
    Raises stack above ∧ (Course.part true).Keeps stack above := by
  have hkinds : opening.kind = last.kind := by
    cases hopening : opening.kind <;> simp [hopening, opens] at hopens <;>
      cases hlast : last.kind <;> simp [hopening, hlast, closer?] at hmatch ⊢
  by_cases hbrace : opening.kind = .lBrace
  · exact ⟨hraises.of_braced hbrace, hraises.eq_of_braced hbrace⟩
  · have hcounts : ∀ (token : Token) (rest : List Token), token.kind = opening.kind →
        braces (token :: rest) = braces rest := by
      intro token rest hkind
      simp [braces, hkind, hbrace]
    refine ⟨((Raises.push opening stack).trans hraises).trans (.pop (hkinds ▸ hbrace) above), ?_⟩
    intro hcount
    have hsame := hkeeps (by rw [hcounts last above hkinds.symm, hcounts opening stack rfl, hcount])
    exact (List.cons.inj hsame).2

section

variable {s t : State} {opening : Token} {rest : List Token} {close : TokenKind}
  (hrest : s.rest = opening :: rest) (hopens : opening.kind.opens)

include hrest hopens

/-- Behind an opening bracket. -/
theorem turns_opening (stack : List Token) :
    Turns s.rest (s.advance 1).rest stack (opening :: stack) := by
  rw [State.rest_advance, hrest]
  exact .of_opens hopens rest stack

/-- Behind the bracket that closes an opening one. -/
theorem turns_enclosed (hinside : Turns (s.advance 1).rest t.rest (opening :: stack) above)
    (hclose : t.isAt close) (hkind : close.closes) (hcloses : ClosesAll stack s.rest) :
    ∃ last outer, above = last :: outer ∧ last.kind.closer? = some close ∧
      Turns s.rest (t.advance 1).rest stack outer := by
  obtain ⟨closing, behind, hclosing, rfl⟩ := rest_of_isAt hclose
  have hopening := turns_opening hrest hopens stack
  have hall := (hopening.trans hinside).closesAll hcloses
  rw [hclosing] at hall
  obtain ⟨last, outer, rfl, hmatch, hlast⟩ := Turns.of_closes hkind hall
  refine ⟨last, outer, rfl, hmatch, (hopening.trans hinside).trans ?_⟩
  rw [State.rest_advance, hclosing]
  exact hlast

end

theorem turns_behindDecorators {s : State} (h : ClosesAll stack s.rest) :
    Turns s.rest s.behindDecorators.rest stack stack := by
  obtain ⟨_, hturns, rfl⟩ := Turns.of_leavesOpen (leavesOpen_decoratorsLength h)
  exact hturns

/-- Whether a walk stays in the braces around it. One over a source passes over stray braces. -/
def Course.staysInside : Course → Bool
  | .source => false
  | _ => true

/-- A walk raises the stack of open brackets, if all that is open will be closed and no return
type is given back. -/
theorem Walk.turns {course : Course} {s t : State} (h : Walk course s t)
    (hcourse : course.staysInside) (hkeeps : GivesNothingBack t.journal)
    (hcloses : ClosesAll stack s.rest) :
    ∃ above, Turns s.rest t.rest stack above ∧ Raises stack above ∧ course.Keeps stack above := by
  induction h generalizing stack with
  | stay | stop | refuse | ended =>
    exact ⟨stack, .refl _ _, .refl _, Course.keeps_refl _ _⟩
  | trans hst htu ih ih' =>
    obtain ⟨above, hturns, hraises, hsame⟩ :=
      ih rfl (hkeeps.of_prefix htu.leadsTo.journal) hcloses
    obtain ⟨higher, hturns', hraises', hsame'⟩ := ih' rfl hkeeps (hturns.closesAll hcloses)
    exact ⟨higher, hturns.trans hturns', hraises.trans hraises',
      hsame.trans hraises hraises' hsame'⟩
  | pass hbalances =>
    exact ⟨stack, .of_balances hbalances hcloses, .refl _, Course.keeps_refl _ _⟩
  | enclosed hrest hopens hmatch hst hclose ih =>
    have hinside := (turns_opening hrest hopens stack).closesAll hcloses
    obtain ⟨above, hturns, hraises, hsame⟩ := ih rfl hkeeps hinside
    obtain ⟨last, outer, rfl, hlast, hwhole⟩ :=
      turns_enclosed hrest hopens hturns hclose (closes_of_closer? hopens hmatch) hcloses
    exact ⟨outer, hwhole, raises_enclosed hopens (hmatch.trans hlast.symm) hraises hsame⟩
  | unclosed hrest hopens hst ih =>
    have hopening := turns_opening hrest hopens stack
    obtain ⟨above, hturns, hraises, -⟩ := ih rfl hkeeps (hopening.closesAll hcloses)
    exact ⟨above, hopening.trans hturns, (Raises.push _ stack).trans hraises, trivial⟩
  | braced hrest hopening hst hclose ih =>
    have hopens := opens_of_lBrace hopening
    have hinside := (turns_opening hrest hopens stack).closesAll hcloses
    obtain ⟨above, hturns, hraises, -⟩ := ih rfl hkeeps hinside
    obtain ⟨last, outer, rfl, -, hwhole⟩ :=
      turns_enclosed hrest hopens hturns hclose rfl hcloses
    exact ⟨outer, hwhole, hraises.of_braced hopening, hraises.eq_of_braced hopening⟩
  | unbraced hrest hopening hst ih =>
    have hopens := turns_opening hrest (opens_of_lBrace hopening) stack
    obtain ⟨above, hturns, hraises, -⟩ := ih rfl hkeeps (hopens.closesAll hcloses)
    exact ⟨above, hopens.trans hturns, (Raises.push _ stack).trans hraises, trivial⟩
  | deeper _ _ ih | returned _ ih => exact ih hcourse hkeeps hcloses
  | gaveBack => exact absurd (List.mem_append_right _ (List.mem_singleton_self _)) (hkeeps _)
  | documented hst hshorter ih =>
    obtain ⟨above, hturns, hraises, hsame⟩ := ih rfl hkeeps hcloses
    exact ⟨above, hturns, hraises, hsame.member⟩
  | decorated hst hshorter ih =>
    have hdecorators := turns_behindDecorators hcloses
    obtain ⟨above, hturns, hraises, hsame⟩ :=
      ih rfl hkeeps (hdecorators.closesAll hcloses)
    exact ⟨above, hdecorators.trans hturns, hraises, hsame.member⟩
  | passed hst hpassed hends ih =>
    have hdecorators := turns_behindDecorators hcloses
    obtain ⟨above, hturns, hraises, hsame⟩ :=
      ih rfl hkeeps (hdecorators.closesAll hcloses)
    have hbefore := hdecorators.trans hturns
    obtain ⟨higher, hturns', hraises', hresumes⟩ :=
      Turns.of_leavesOpen (hpassed above (hbefore.closesAll hcloses))
    refine ⟨higher, hbefore.trans hturns', hraises.trans hraises', fun hcount hbrace => ?_⟩
    obtain rfl := hsame (hraises.braces_eq hraises' hcount)
    exact hresumes hbrace
  | declared hst hshorter ih =>
    have hdecorators := turns_behindDecorators hcloses
    obtain ⟨above, hturns, hraises, hsame⟩ :=
      ih rfl (hkeeps.of_prefix (List.prefix_append _ _)) (hdecorators.closesAll hcloses)
    have hmember : (Course.member true).Keeps stack above := Course.Keeps.member hsame
    exact ⟨above, hdecorators.trans hturns, hraises, hmember⟩
  | separated hst htu ih ih' | read hst hends htu ih ih' =>
    obtain ⟨above, hturns, hraises, -⟩ :=
      ih rfl (hkeeps.of_prefix htu.leadsTo.journal) hcloses
    obtain ⟨higher, hturns', hraises', -⟩ := ih' rfl hkeeps (hturns.closesAll hcloses)
    exact ⟨higher, hturns.trans hturns', hraises.trans hraises', trivial⟩
  | recovered hst hrecovers hends htu ih ih' =>
    obtain ⟨above, hturns, hraises, -⟩ :=
      ih rfl (hkeeps.of_prefix htu.leadsTo.journal) hcloses
    obtain ⟨higher, hturns', hraises'⟩ :=
      Turns.of_leavesOpen (hrecovers above (hturns.closesAll hcloses))
    have hbefore := hturns.trans hturns'
    obtain ⟨highest, hturns'', hraises'', -⟩ := ih' rfl hkeeps (hbefore.closesAll hcloses)
    exact ⟨highest, hbefore.trans hturns'', (hraises.trans hraises').trans hraises'', trivial⟩
  | finished | stray => cases hcourse

/-- Where a walk of two parts leaves the open brackets as they are, both parts do. -/
theorem Walk.turns_between {course : Course} {s t u : State} (hst : Walk (.part true) s t)
    (htu : Walk course t u) (hcourse : course.staysInside) (hkeeps : GivesNothingBack u.journal)
    (hcloses : ClosesAll stack s.rest) (h : Turns s.rest u.rest stack stack) :
    Turns s.rest t.rest stack stack ∧ Turns t.rest u.rest stack stack := by
  obtain ⟨above, hturns, hraises, hsame⟩ :=
    hst.turns rfl (hkeeps.of_prefix htu.leadsTo.journal) hcloses
  obtain ⟨higher, hturns', hraises', -⟩ := htu.turns hcourse hkeeps (hturns.closesAll hcloses)
  obtain rfl := h.unique (hturns.trans hturns')
  obtain rfl := hsame (hraises.braces_eq hraises' rfl)
  exact ⟨hturns, hturns'⟩

end

end Parser

namespace Node

/-- A node, or one below it, with the nodes it stands in, the innermost first. -/
inductive Below (root : Node) : List Node → Node → Prop
  | self : Below root [] root
  | child {ancestors : List Node} {parent node : Node} :
      Below root ancestors parent → node ∈ parent.children →
      Below root (parent :: ancestors) node

variable {root child node : Node} {ancestors : List Node}

theorem Below.of_child (h : child.Below ancestors node) (hchild : child ∈ root.children) :
    root.Below (ancestors ++ [root]) node := by
  induction h with
  | self => exact .child .self hchild
  | child _ hmem ih => exact .child ih hmem

/-- What is below a node is the node, or it is below one of its children. -/
theorem Below.eq_or_exists_child (h : root.Below ancestors node) :
    ancestors = [] ∧ node = root ∨
      ∃ child ∈ root.children, ∃ inner, ancestors = inner ++ [root] ∧ child.Below inner node := by
  induction h with
  | self => exact .inl ⟨rfl, rfl⟩
  | @child ancestors parent node _ hmem ih =>
    rcases ih with ⟨rfl, rfl⟩ | ⟨child, hchild, inner, rfl, hbelow⟩
    · exact .inr ⟨node, hmem, [], rfl, .self⟩
    · exact .inr ⟨child, hchild, parent :: inner, rfl, .child hbelow hmem⟩

theorem Below.mem_preorder (h : root.Below ancestors node) : node ∈ root.preorder := by
  induction h with
  | self => exact mem_preorder_self root
  | child _ hmem ih =>
    exact mem_preorder_trans root ih (mem_preorder_of_mem hmem (mem_preorder_self _))

mutual

theorem exists_below : ∀ root : Node, node ∈ root.preorder → ∃ ancestors, root.Below ancestors node
  | ⟨kind, text, tags, span, children⟩, h => by
    rw [preorder_eq] at h
    rcases List.mem_cons.mp h with rfl | h
    · exact ⟨[], .self⟩
    · obtain ⟨child, hchild, inner, hbelow⟩ := exists_below_child children h
      exact ⟨_, hbelow.of_child hchild⟩

theorem exists_below_child : ∀ roots : List Node, node ∈ preorder.preorderList roots →
    ∃ root ∈ roots, ∃ ancestors, root.Below ancestors node
  | [], h => absurd h List.not_mem_nil
  | root :: roots, h => by
    rw [preorder.preorderList, List.mem_append] at h
    rcases h with h | h
    · exact ⟨root, List.mem_cons_self, exists_below root h⟩
    · obtain ⟨other, hother, hbelow⟩ := exists_below_child roots h
      exact ⟨other, List.mem_cons_of_mem _ hother, hbelow⟩

end

end Node

namespace Parser

open Node

/-- The token is the opening brace of the block. -/
def OpensBlock (opening : Token) (block : Node) : Prop :=
  opening.kind = .lBrace ∧ opening.span.start = block.span.start

/-- The blocks of namespaces among some nodes. -/
def blocks (nodes : List Node) : List Node :=
  nodes.filter (·.kind == .moduleBlock)

/-- Among the tokens are the first tokens of the declarations in the trees. Where one stands,
the brackets are open that are open in front of the tokens and, in these, the braces of the
blocks around the declaration. -/
def Stands (tokens stack : List Token) (roots : List Node) : Prop :=
  ∀ root ∈ roots, ∀ ancestors node, root.Below ancestors node → node.kind.declares →
    ∃ first rest opened, first.span.start = node.span.start ∧
      Turns tokens (first :: rest) stack (opened ++ stack) ∧
      List.Forall₂ OpensBlock opened (blocks ancestors)

section

variable {tokens rest stack : List Token} {roots others : List Node} {node : Node}

theorem Stands.nil : Stands tokens stack [] :=
  fun _ hroot => absurd hroot List.not_mem_nil

theorem Stands.append (h : Stands tokens stack roots) (h' : Stands tokens stack others) :
    Stands tokens stack (roots ++ others) := by
  intro root hroot
  rcases List.mem_append.mp hroot with hroot | hroot
  · exact h root hroot
  · exact h' root hroot

theorem Stands.of_turns (h : Stands rest stack roots) (hturns : Turns tokens rest stack stack) :
    Stands tokens stack roots := by
  intro root hroot ancestors node hbelow hkind
  obtain ⟨first, behind, opened, hstart, hopened, hblocks⟩ :=
    h root hroot ancestors node hbelow hkind
  exact ⟨first, behind, opened, hstart, hturns.trans hopened, hblocks⟩

/-- There are no declarations in the trees. -/
theorem Stands.of_allPlain (h : AllPlain roots) : Stands tokens stack roots := by
  intro root hroot ancestors node hbelow hkind
  exact absurd hkind (by rw [h root hroot node hbelow.mem_preorder]; decide)

/-- A declaration begins with the first of the tokens. -/
theorem Stands.declaration {first : Token} (h : Stands (first :: rest) stack node.children)
    (hstart : node.span.start = first.span.start) (hkind : node.kind ≠ .moduleBlock) :
    Stands (first :: rest) stack [node] := by
  intro root hroot ancestors inner hbelow hinner
  obtain rfl := List.mem_singleton.mp hroot
  rcases hbelow.eq_or_exists_child with ⟨rfl, rfl⟩ | ⟨child, hchild, between, rfl, hchildBelow⟩
  · exact ⟨first, rest, [], hstart.symm, .refl _ _, .nil⟩
  · obtain ⟨token, behind, opened, htoken, hturns, hblocks⟩ :=
      h child hchild between inner hchildBelow hinner
    refine ⟨token, behind, opened, htoken, hturns, ?_⟩
    rwa [blocks, List.filter_append, List.filter_cons_of_neg (by simpa using hkind),
      List.filter_nil, List.append_nil]

/-- In the braces of a block one more bracket is open. -/
theorem Stands.block {opening : Token} (h : Stands rest (opening :: stack) node.children)
    (hopening : OpensBlock opening node) (hkind : node.kind = .moduleBlock) :
    Stands (opening :: rest) stack [node] := by
  intro root hroot ancestors inner hbelow hinner
  obtain rfl := List.mem_singleton.mp hroot
  rcases hbelow.eq_or_exists_child with ⟨rfl, rfl⟩ | ⟨child, hchild, between, rfl, hchildBelow⟩
  · rw [hkind] at hinner
    cases hinner
  · obtain ⟨token, behind, opened, htoken, hturns, hblocks⟩ :=
      h child hchild between inner hchildBelow hinner
    refine ⟨token, behind, opened ++ [opening], htoken, ?_, ?_⟩
    · rw [List.append_assoc]
      exact (Turns.of_opens (opens_of_lBrace hopening.1) rest stack).trans hturns
    · rw [blocks, List.filter_append, List.filter_cons_of_pos (by simpa using hkind)]
      exact List.rel_append hblocks (.cons hopening .nil)

end

/-- Between the two states the open braces stay open. If no more are open in the end, and a
brace is the innermost open bracket or none is open, then the open brackets stay the same, and
the trees stand in them. -/
def Contained (s t : State) (roots : List Node) : Prop :=
  ∀ stack, ClosesAll stack s.rest →
    ∃ above, Turns s.rest t.rest stack above ∧ Raises stack above ∧
      (braces above = braces stack → (∀ opening ∈ stack.head?, opening.kind = .lBrace) →
        above = stack ∧ Stands s.rest stack roots)

/-- What the parser reads without errors and without giving a return type back is contained in
the brackets that are open. -/
def Contains (p : Parser (List Node)) : Prop :=
  ∀ s nodes t, s.Ordered → p s = (.ok nodes, t) → t.errors = [] →
    GivesNothingBack t.journal → Contained s t nodes

section

variable {block : Parser (List Node)} {s t : State} {stack : List Token}

theorem ordered_behindDecorators (hs : s.Ordered) : s.behindDecorators.takeTags.Ordered := by
  obtain ⟨hbefore, -⟩ := orderly_takeDocs.of_ok (J := Quiet) hs (takeDocs_apply s)
  have hskip : skipDecorators s.takeTags = (.ok (), s.behindDecorators) := rfl
  obtain ⟨hskipped, -⟩ := orderly_skipDecorators.of_ok hbefore.ordered hskip
  exact (orderly_takeDocs.of_ok (J := Quiet) hskipped.ordered (takeDocs_apply _)).1.ordered

section

variable (hcontains : Contains block) (hwalks : ∀ s, WalksInside s block)

include hcontains hwalks

omit hwalks in
/-- The statements in braces stand in these. -/
theorem stands_braced {nodes : List Node} (hs : s.Ordered)
    (hrun : braced block s = (.ok nodes, t)) (herrors : t.errors = [])
    (hkeeps : GivesNothingBack t.journal) (hcloses : ClosesAll stack s.rest)
    (h : Turns s.rest t.rest stack stack) :
    ∃ opening rest, s.rest = opening :: rest ∧ opening.kind = .lBrace ∧
      Stands rest (opening :: stack) nodes := by
  obtain ⟨mark, u, hopen, hrun⟩ := exists_of_bind_ok hrun
  obtain ⟨hopening, rfl⟩ := isAt_of_expect hopen
  obtain ⟨inside, v, hinside, hrun⟩ := exists_of_bind_ok hrun
  obtain ⟨last, w, hclose, hrun⟩ := exists_of_bind_ok hrun
  obtain ⟨hclosing, rfl⟩ := isAt_of_expect hclose
  cases hrun
  obtain ⟨opening, rest, hrest, hkind⟩ := rest_of_isAt hopening
  have hopens := opens_of_lBrace hkind
  have hfirst := turns_opening hrest hopens stack
  have hordered := (Follows.advance (J := Quiet) hs 1 0).ordered
  obtain ⟨above, hturns, hraises, hstands⟩ := hcontains _ _ _ hordered hinside herrors hkeeps
    (opening :: stack) (hfirst.closesAll hcloses)
  obtain ⟨last, outer, rfl, hlast, hwhole⟩ :=
    turns_enclosed hrest hopens hturns hclosing rfl hcloses
  obtain rfl := h.unique hwhole
  have hbrace : last.kind = .lBrace := by
    cases hlastKind : last.kind <;> simp [hlastKind, closer?] at hlast ⊢
  have hcount : braces (last :: stack) = braces (opening :: stack) := by
    simp [braces, hbrace, hkind]
  refine ⟨opening, rest, hrest, hkind, ?_⟩
  have hinner := (hstands hcount (fun first hmem => by cases hmem; exact hkind)).2
  rwa [State.rest_advance, hrest] at hinner

theorem stands_moduleParts {parts : List Node} (hs : s.Ordered)
    (hrun : moduleParts block s = (.ok parts, t)) (herrors : t.errors = [])
    (hkeeps : GivesNothingBack t.journal) (hcloses : ClosesAll stack s.rest)
    (h : Turns s.rest t.rest stack stack) : Stands s.rest stack parts := by
  obtain ⟨name, u, hname, hrun⟩ := exists_of_bind_ok hrun
  obtain ⟨hfollows, hplain⟩ := orderly_moduleName.of_ok hs hname
  have hnamed : Stands s.rest stack [name] := .of_allPlain (by simpa using hplain)
  have hrun := (look_bind_apply _ _).symm.trans hrun
  split at hrun
  · obtain ⟨statements, v, hbraced, hrun⟩ := exists_of_bind_ok hrun
    cases hrun
    have hwalk := (Walks.braced hwalks (f := pure) fun _ _ => .pure _).of_ok
      ((congrFun (bind_pure _) u).trans hbraced)
    obtain ⟨hbefore, hbehind⟩ := (walks_moduleName.of_ok hname).turns_between hwalk rfl hkeeps
      hcloses h
    obtain ⟨opening, rest, hrest, hopening, hstands⟩ := stands_braced hcontains
      hfollows.ordered hbraced herrors hkeeps (hbefore.closesAll hcloses) hbehind
    have hstart : u.start = opening.span.start := by rw [State.start, hrest]
    refine hnamed.append (Stands.of_turns ?_ hbefore)
    rw [hrest]
    exact .block hstands ⟨hopening, hstart.symm⟩ rfl
  · obtain ⟨_, v, -, hrun⟩ := exists_of_bind_ok hrun
    cases hrun
    exact hnamed

theorem stands_parts {heading : Heading} {parts : List Node} (hs : s.Ordered)
    (hrun : heading.parts block s = (.ok parts, t)) (herrors : t.errors = [])
    (hkeeps : GivesNothingBack t.journal) (hcloses : ClosesAll stack s.rest)
    (h : Turns s.rest t.rest stack stack) : Stands s.rest stack parts := by
  cases heading with
  | ofInterface => exact .of_allPlain (orderly_interfaceParts.of_ok hs hrun).2
  | ofClass => exact .of_allPlain (orderly_classParts.of_ok hs hrun).2
  | ofTypeAlias => exact .of_allPlain (orderly_typeAliasParts.of_ok hs hrun).2
  | ofEnum => exact .of_allPlain (orderly_enumParts.of_ok hs hrun).2
  | ofModule => exact stands_moduleParts hcontains hwalks hs hrun herrors hkeeps hcloses h

/-- A statement that leaves the open brackets as they are stands in them. -/
theorem stands_statement [Forward block] {node? : Option Node} (hs : s.Ordered)
    (hrun : statement block s = (.ok node?, t)) (herrors : t.errors = [])
    (hkeeps : GivesNothingBack t.journal) (hcloses : ClosesAll stack s.rest)
    (h : Turns s.rest t.rest stack stack) : Stands s.rest stack node?.toList := by
  obtain ⟨words, u, hwords, hhead, hstatement⟩ := statement_apply block s
  rw [hstatement] at hrun
  cases hheading : u.heading? with
  | none =>
    rw [hheading] at hrun
    cases hrun
    exact .nil
  | some found =>
    obtain ⟨heading, announced⟩ := found
    rw [hheading] at hrun
    dsimp only at hrun
    obtain ⟨hannounced, hlt⟩ := walks_announced hheading
    rcases hparts : heading.parts block (u.advance announced) with ⟨error | parts, v⟩
    · rw [declaration_of_error hparts] at hrun
      cases hrun
    rw [declaration_of_parts hparts] at hrun
    cases hrun
    have hkeeps : GivesNothingBack v.journal := hkeeps.of_prefix (List.prefix_append _ _)
    have hmodifiers := (orderly_modifiers declares_of_statementModifier).of_ok
      (ordered_behindDecorators hs) hwords
    have hbegin : Walk (.part true) _ (u.advance announced) := hhead.trans hannounced
    have hread := (walks_parts hwalks heading).of_ok hparts
    -- The decorators, the head and the parts leave the open brackets as they are, each of them.
    have hdecorators := turns_behindDecorators hcloses
    obtain ⟨above, hturns, -⟩ :=
      (hbegin.trans hread).turns rfl hkeeps (hdecorators.closesAll hcloses)
    obtain rfl := h.unique (hdecorators.trans hturns)
    obtain ⟨hbefore, hbehind⟩ := hbegin.turns_between hread rfl hkeeps
      (hdecorators.closesAll hcloses) hturns
    have hfront := hdecorators.trans hbefore
    have hchildren : Stands s.rest stack (words ++ parts) := by
      refine (Stands.of_allPlain hmodifiers.2).append (Stands.of_turns ?_ hfront)
      have hordered := (Follows.advance (J := Quiet) hmodifiers.1.ordered announced 0).ordered
      exact stands_parts hcontains hwalks hordered hparts herrors hkeeps
        (hfront.closesAll hcloses) hbehind
    obtain ⟨first, rest, hrest⟩ : ∃ first rest, s.rest = first :: rest := by
      refine List.exists_cons_of_ne_nil fun hnil => ?_
      have hle := (hhead.leadsTo.rest.trans (List.drop_suffix _ s.rest)).length_le
      rw [hnil, List.length_nil] at hle
      omega
    rw [hrest] at hchildren ⊢
    refine .declaration hchildren ?_ ?_
    · show s.start = _
      rw [State.start, hrest]
    · show heading.kind ≠ _
      cases heading <;> decide

/-- Statements that follow each other are contained in the open brackets, as each of them is. -/
theorem contains_statements [Forward block] (ht : Trailing Any block fun _ => True) :
    Contains (statements block) := by
  have hskip : ∀ {s : State} {stack : List Token}, ClosesAll stack s.rest →
      Turns s.rest (s.skipSeparators separatesStatements).rest stack stack := fun {s stack} h =>
    .of_balances (WalksInside.balances_separators plain_of_separatesStatements s.rest) h
  intro s nodes t hs hrun herrors hkeeps
  obtain ⟨_, _, hrun', hmotive⟩ := membersUpTo_induction separatesStatements
    (statementLength true 0) (statement block)
    (motive := fun s nodes t => s.LeadsTo t ∧ (s.Ordered → t.errors = [] →
      GivesNothingBack t.journal → Contained s t nodes))
    (fun s => ⟨.refl s, fun _ _ _ stack _ =>
      ⟨stack, .refl _ _, .refl _, fun _ _ => ⟨rfl, .nil⟩⟩⟩)
    (fun s _ => ⟨.advance s _, fun _ _ _ stack hcloses =>
      ⟨stack, hskip hcloses, .refl _, fun _ _ => ⟨rfl, .nil⟩⟩⟩)
    (by
      rintro s node? t nodes u - hread ⟨hto, hcontained⟩
      have hwalk : Walk (.member true) (s.skipSeparators separatesStatements) t := by
        have h := walksMember_statement hwalks (s := s.skipSeparators separatesStatements)
        unfold WalksMember at h
        rwa [hread] at h
      refine ⟨.trans (.advance s _) (hwalk.leadsTo.trans hto), fun hs herrors hkeeps => ?_⟩
      intro stack hcloses
      have hbefore := hkeeps.of_prefix hto.journal
      have hnone : t.errors = [] := List.prefix_nil.mp (herrors ▸ hto.errors)
      have hordered := (Follows.skipSeparators (J := Quiet) separatesStatements hs 0).ordered
      have hbehind := ((orderly_statement ht).of_ok hordered hread).1.ordered
      have hfront := hskip hcloses
      obtain ⟨above, hturns, hraises, hsame⟩ :=
        hwalk.turns rfl hbefore (hfront.closesAll hcloses)
      have hfirst := hfront.trans hturns
      obtain ⟨higher, hturns', hraises', hstands⟩ :=
        hcontained hbehind herrors hkeeps above (hfirst.closesAll hcloses)
      refine ⟨higher, hfirst.trans hturns', hraises.trans hraises', fun hcount hbrace => ?_⟩
      -- No more braces are open in the end, so the first statement leaves none open, either.
      obtain rfl := hsame (hraises.braces_eq hraises' hcount) hbrace
      obtain ⟨rfl, hnodes⟩ := hstands hcount hbrace
      refine ⟨rfl, .append (.of_turns ?_ hfront) (hnodes.of_turns hfirst)⟩
      exact stands_statement hcontains hwalks hordered hread hnone hbefore
        (hfront.closesAll hcloses) hturns)
    (by
      rintro s error t nodes u - hread ⟨hto, -⟩
      have hgiven : (s.skipSeparators separatesStatements).LeadsTo t := Forward.of_run hread
      refine ⟨.trans (.advance s _) (hgiven.trans (.trans (.record t error) ?_)), ?_⟩
      · exact .trans (.advance _ _) hto
      · exact fun _ herrors => absurd herrors (errors_ne_nil_of_recover hto))
    s.rest.length s
  have hsame : membersUpTo _ _ _ s.rest.length s = (.ok nodes, t) := hrun
  rw [hrun'] at hsame
  cases hsame
  exact hmotive.2 hs herrors hkeeps

end

theorem contains_blockWithin (levels : Nat) : Contains (blockWithin levels) := by
  induction levels with
  | zero => exact fun s nodes t _ hrun => nomatch hrun
  | succ levels ih =>
    intro s nodes t hs hrun herrors hkeeps
    have hstatements := contains_statements ih (fun s => walksInside_blockWithin levels)
      (trailing_blockWithin levels)
    unfold blockWithin nested at hrun
    split at hrun
    · cases hrun
    · rcases hinside : statements (blockWithin levels) { s with depth := s.depth + 1 }
        with ⟨result, u⟩
      rw [hinside] at hrun
      cases hrun
      exact hstatements { s with depth := s.depth + 1 } nodes u hs hinside herrors hkeeps

/-- Without errors there are no stray braces, and the source is one run of statements. -/
theorem sourceFile_eq_statements (h : (sourceFile s).2.errors = []) :
    sourceFile s = statements (blockWithin maxDepth) s := by
  obtain ⟨nodes, t, hrun⟩ : ∃ nodes t, statements (blockWithin maxDepth) s = (.ok nodes, t) :=
    members_eq_ok _ _ _ s
  by_cases hbrace : t.isAt .rBrace
  · have hto : t.passStrayBrace.LeadsTo (sourceFile s).2 := by
      rw [sourceFile, runsUpTo_of_isAt _ hrun hbrace]
      exact Forward.leadsTo _
    exact absurd h (errors_ne_nil_of_recover hto)
  · rw [hrun]
    exact runsUpTo_of_not_isAt _ hrun hbrace

end

end Parser

namespace Parse

open DeclSchema.Parser

/-- Let a source be read without errors, with all its brackets properly nested and no return
type given back. The brackets that are open where an interface or a class begins are exactly the
opening braces of the namespaces around it, the innermost first. -/
theorem declarations_in_namespaces (source : String) (hok : (ofSource source).isOk)
    (hnested : openBrackets [] (TokenStream.ofSource source).tokens = some [])
    (hkeeps : GivesNothingBack (journal source)) {node : Node}
    (hnode : node ∈ (ofSource source).root.descendants) (hkind : node.kind.declares) :
    (∃ ancestors, (ofSource source).root.Below ancestors node) ∧
    ∀ ancestors, (ofSource source).root.Below ancestors node →
      ∃ before first after opened,
        (TokenStream.ofSource source).tokens = before ++ first :: after ∧
        first.span.start = node.span.start ∧ openBrackets [] before = some opened ∧
        List.Forall₂ OpensBlock opened (blocks ancestors) := by
  constructor
  · rw [Node.descendants_eq] at hnode
    exact Node.exists_below _ hnode
  intro ancestors hbelow
  have herrors : (sourceFile (.ofSource source)).2.errors = [] := List.isEmpty_iff.mp hok
  obtain ⟨nodes, t, hrun⟩ := sourceFile_eq_ok (.ofSource source)
  have hrest : t.rest = [] := by
    have := rest_sourceFile (.ofSource source)
    rwa [hrun] at this
  have hstatements := (sourceFile_eq_statements herrors).symm.trans hrun
  have hcontains := contains_statements (contains_blockWithin maxDepth)
    (fun s => walksInside_blockWithin maxDepth) (trailing_blockWithin maxDepth)
  rw [journal, hrun] at hkeeps
  rw [hrun] at herrors
  obtain ⟨above, hturns, -, hstands⟩ := hcontains _ nodes t (State.ordered_ofSource source)
    hstatements herrors hkeeps [] hnested
  have hclosed := hturns.closesAll hnested
  rw [hrest, ClosesAll.nil_iff] at hclosed
  obtain rfl := hclosed
  have hall := (hstands rfl (by simp)).2
  have hroot : (ofSource source).root.children = nodes := by
    simp only [ofSource, hrun, Except.toOption, Option.getD_some]
  rcases hbelow.eq_or_exists_child with ⟨-, rfl⟩ | ⟨child, hchild, inner, rfl, hinner⟩
  · exact absurd hkind Bool.false_ne_true
  · rw [hroot] at hchild
    obtain ⟨first, after, opened, hstart, ⟨before, htokens, hopened⟩, hblocks⟩ :=
      hall child hchild inner node hinner hkind
    refine ⟨before, first, after, opened, htokens, hstart, ?_, ?_⟩
    · rw [hopened, List.append_nil]
    · have hsame : blocks (inner ++ [(ofSource source).root]) = blocks inner := by
        rw [blocks, List.filter_append]
        exact List.append_nil _
      rwa [hsame]

/-- An interface in a namespace, behind a call with a class in it. -/
def namespaceSource : String :=
  "namespace N \x7b f([() => \x7b class X \x7b\x7d \x7d]); interface A \x7b b: C \x7d \x7d"

/-- The interface stands in a block, and no other bracket is open in front of it. -/
theorem declarations_in_namespaces_interface :
    ∃ node ∈ (ofSource namespaceSource).root.descendants, node.kind = .interfaceDeclaration ∧
      ∃ ancestors, (ofSource namespaceSource).root.Below ancestors node ∧
        ∃ before first after opened,
          (TokenStream.ofSource namespaceSource).tokens = before ++ first :: after ∧
          first.span.start = node.span.start ∧ openBrackets [] before = some opened ∧
          List.Forall₂ OpensBlock opened (blocks ancestors) := by
  have hinterface : (ofSource namespaceSource).root.descendants.any
      (·.kind == .interfaceDeclaration) := by decide +kernel
  obtain ⟨node, hnode, hfound⟩ := List.any_eq_true.mp hinterface
  have hkind : node.kind = .interfaceDeclaration := eq_of_beq hfound
  have hok : (ofSource namespaceSource).isOk := by decide +kernel
  have hnested : openBrackets [] (TokenStream.ofSource namespaceSource).tokens = some [] := by
    decide +kernel
  have hkeeps : GivesNothingBack (journal namespaceSource) := by decide +kernel
  obtain ⟨⟨ancestors, hbelow⟩, hstands⟩ := declarations_in_namespaces namespaceSource hok hnested
    hkeeps hnode (by rw [hkind]; rfl)
  exact ⟨node, hnode, hkind, ancestors, hbelow, hstands ancestors hbelow⟩

end Parse

end DeclSchema
