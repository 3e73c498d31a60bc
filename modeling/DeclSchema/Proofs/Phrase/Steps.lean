import DeclSchema.Proofs.Parser.Interface
import DeclSchema.Proofs.Phrase.Basic

/-!
# Reading known tokens

A parser looks at kinds and texts and at where lines start, so that what it does follows
from the glyphs of the tokens it reads. `Reads` says that it reads some of them and gives
a result, or that it fails for want of levels of types and for no other reason.
-/

namespace DeclSchema

namespace Node

theorem withoutSpans_list (nodes : List Node) :
    withoutSpans.list nodes = nodes.map withoutSpans := by
  induction nodes with
  | nil => rfl
  | cons node nodes ih => rw [withoutSpans.list, ih, List.map_cons]

@[simp] theorem withoutSpans_inner (kind : NodeKind) (start stop : Nat) (children : List Node) :
    (inner kind start stop children).withoutSpans = .bare kind (children.map withoutSpans) := by
  rw [inner, withoutSpans, withoutSpans_list, bare]

@[simp] theorem withoutSpans_leaf (kind : NodeKind) (text : String) (span : Span) :
    (leaf kind text span).withoutSpans = .bareLeaf kind text := rfl

@[simp] theorem withoutSpans_literalType (literal : Node) :
    (Parser.literalType literal).withoutSpans = .bare .literalType [literal.withoutSpans] := rfl

theorem text_withoutSpans (node : Node) : node.withoutSpans.text = node.text := by
  obtain ⟨kind, text, tags, span, children⟩ := node
  rfl

/-- A tree that is moved along is the same without places. -/
theorem withoutSpans_shift (offset : Nat) (node : Node) :
    (shift offset node).withoutSpans = node.withoutSpans := by
  induction node using Node.moved.induct
    (fun nodes => (moved.movedList offset nodes).map withoutSpans = nodes.map withoutSpans) with
  | case1 kind text tags span children ih =>
    show (moved offset _).withoutSpans = _
    rw [moved, withoutSpans, withoutSpans, withoutSpans_list, withoutSpans_list, ih]
  | case2 => rfl
  | case3 node rest hnode hrest =>
    rw [moved.movedList, List.map_cons, hrest, List.map_cons]
    exact congrArg (· :: _) hnode

end Node

/-- The text of a word. -/
def Glyph.word? (glyph : Glyph) : Option String :=
  if glyph.kind = .word then some glyph.text else none

namespace Parser

namespace State

/-- What the tokens still to read show. -/
def glyphs (s : State) : List Glyph :=
  s.rest.map Token.glyph

variable {s : State}

theorem glyphs_advance (count : Nat) : (s.advance count).glyphs = s.glyphs.drop count :=
  List.map_drop ..

theorem nthIs_eq (n : Nat) (kind : TokenKind) :
    s.nthIs n kind = s.glyphs[n]?.any (·.kind == kind) := by
  rw [nthIs, glyphs, List.getElem?_map, Option.any_map]
  rfl

theorem isAt_eq (kind : TokenKind) : s.isAt kind = s.glyphs.head?.any (·.kind == kind) := by
  rw [isAt, nthIs_eq, List.head?_eq_getElem?]

theorem nthWord?_eq (n : Nat) : s.nthWord? n = s.glyphs[n]?.bind Glyph.word? := by
  rw [nthWord?, glyphs, List.getElem?_map, Option.bind_map]
  rfl

theorem nthIsWord_eq (n : Nat) : s.nthIsWord n = s.glyphs[n]?.any (·.kind == .word) := by
  rw [nthIsWord, nthWord?_eq]
  cases s.glyphs[n]? with
  | none => rfl
  | some glyph => by_cases h : glyph.kind = .word <;> simp [Glyph.word?, h]

theorem atNewline_eq : s.atNewline = s.glyphs.head?.any (·.newlineBefore) := by
  rw [atNewline, glyphs, List.head?_map, Option.any_map]
  rfl

theorem fault_errorHere (fault : Fault) : (s.errorHere fault).fault = fault := by
  unfold errorHere
  split <;> rfl

theorem length_glyphs : s.glyphs.length = s.rest.length :=
  List.length_map ..

section

variable {glyph : Glyph} {glyphs : List Glyph} (h : s.glyphs = glyph :: glyphs)

include h

theorem exists_rest : ∃ token rest, s.rest = token :: rest ∧ token.glyph = glyph := by
  obtain ⟨token, rest, hrest, hglyph, -⟩ := List.map_eq_cons_iff.mp h
  exact ⟨token, rest, hrest, hglyph⟩

theorem glyphs_advance_one : (s.advance 1).glyphs = glyphs := by
  rw [glyphs_advance, h]
  rfl

end

end State

/-- The parser reads from a state up to some tokens, and its result satisfies `Q`; but if
`levels` levels of types are less than `depth`, it fails because there are too few. -/
structure Reads {α : Type} (levels depth : Nat) (p : Parser α) (s : State) (left : List Glyph)
    (Q : α → Prop) : Prop where
  enough : depth ≤ levels →
    ∃ a count, p s = (.ok a, s.advance count) ∧ (s.advance count).glyphs = left ∧ Q a
  tooDeep : levels < depth → ∃ error t, p s = (.error error, t) ∧ error.fault = .nestingTooDeep

namespace Reads

variable {α β : Type} {levels d e : Nat} {p : Parser α} {f : α → Parser β} {s : State}
  {left mid : List Glyph} {P : α → Prop} {Q : β → Prop} {a : α}

theorem imp {P' : α → Prop} (h : Reads levels d p s left P) (hP : ∀ a, P a → P' a) :
    Reads levels d p s left P' where
  enough hle := by
    obtain ⟨a, count, hrun, hleft, ha⟩ := h.enough hle
    exact ⟨a, count, hrun, hleft, hP a ha⟩
  tooDeep := h.tooDeep

theorem congr (h : Reads levels d p s left P) (heq : d = e) : Reads levels e p s left P :=
  heq ▸ h

/-- A run that reads nothing. -/
theorem done (hp : p s = (.ok a, s)) (h : s.glyphs = left) (ha : P a) :
    Reads levels 0 p s left P where
  enough _ := ⟨a, 0, by rwa [State.advance_zero], by rwa [State.advance_zero], ha⟩
  tooDeep hlt := absurd hlt (Nat.not_lt_zero _)

theorem pure (h : s.glyphs = left) (ha : P a) : Reads levels 0 (pure a) s left P :=
  done rfl h ha

/-- A step that needs no levels and is known to succeed. -/
theorem step {count : Nat} (hp : p s = (.ok a, s.advance count))
    (hf : Reads levels d (f a) (s.advance count) left Q) : Reads levels d (p >>= f) s left Q where
  enough hle := by
    obtain ⟨b, more, hrun, hleft, hb⟩ := hf.enough hle
    rw [State.advance_advance] at hrun hleft
    exact ⟨b, count + more, (bind_apply_ok hp).trans hrun, hleft, hb⟩
  tooDeep hlt := by
    obtain ⟨error, t, hrun, herror⟩ := hf.tooDeep hlt
    exact ⟨error, t, (bind_apply_ok hp).trans hrun, herror⟩

/-- A step that reads nothing. -/
theorem stay (hp : p s = (.ok a, s)) (hf : Reads levels d (f a) s left Q) :
    Reads levels d (p >>= f) s left Q := by
  have hrun : p s = (.ok a, s.advance 0) := by rwa [State.advance_zero]
  exact step hrun (by rwa [State.advance_zero])

theorem repeatWhile {continues : State → Bool} {P : List α → Prop}
    (h : Reads levels d (upTo continues p s.rest.length) s left P) :
    Reads levels d (Parser.repeatWhile continues p) s left P :=
  ⟨h.enough, h.tooDeep⟩

theorem look {f : State → Parser β} (hf : Reads levels d (f s) s left Q) :
    Reads levels d (Parser.look >>= f) s left Q :=
  stay rfl hf

theorem bind (hp : Reads levels d p s mid P)
    (hf : ∀ a count, P a → (s.advance count).glyphs = mid →
      Reads levels e (f a) (s.advance count) left Q) :
    Reads levels (max d e) (p >>= f) s left Q where
  enough hle := by
    obtain ⟨hd, he⟩ := Nat.max_le.mp hle
    obtain ⟨a, count, hrun, hmid, ha⟩ := hp.enough hd
    exact (step hrun (hf a count ha hmid)).enough he
  tooDeep hlt := by
    by_cases hd : d ≤ levels
    · obtain ⟨a, count, hrun, hmid, ha⟩ := hp.enough hd
      exact (step hrun (hf a count ha hmid)).tooDeep (by omega)
    · obtain ⟨error, t, hrun, herror⟩ := hp.tooDeep (by omega)
      exact ⟨error, t, bind_apply_error hrun, herror⟩

/-- As `bind`, where nothing behind the first step needs levels. -/
theorem andThen (hp : Reads levels d p s mid P)
    (hf : ∀ a count, P a → (s.advance count).glyphs = mid →
      Reads levels 0 (f a) (s.advance count) left Q) :
    Reads levels d (p >>= f) s left Q :=
  (hp.bind hf).congr (Nat.max_zero d)

section

variable {glyph : Glyph} {glyphs : List Glyph}

theorem advance (count : Nat) {f : Unit → Parser β}
    (hf : (s.advance count).glyphs = s.glyphs.drop count →
      Reads levels d (f ()) (s.advance count) left Q) :
    Reads levels d (Parser.advance count >>= f) s left Q :=
  step rfl (hf (State.glyphs_advance count))

theorem token {kind : TokenKind} (h : s.glyphs = glyph :: glyphs) (hkind : glyph.kind = kind)
    (what : Wanted) {f : Token → Parser β}
    (hf : ∀ token, token.glyph = glyph → (s.advance 1).glyphs = glyphs →
      Reads levels d (f token) (s.advance 1) left Q) :
    Reads levels d (Parser.token kind what >>= f) s left Q := by
  obtain ⟨token, rest, hrest, rfl⟩ := State.exists_rest h
  exact step (token_of_eq hrest hkind what) (hf token rfl (State.glyphs_advance_one h))

theorem expect {kind : TokenKind} (h : s.glyphs = glyph :: glyphs) (hkind : glyph.kind = kind)
    {f : Token → Parser β}
    (hf : ∀ token, (s.advance 1).glyphs = glyphs →
      Reads levels d (f token) (s.advance 1) left Q) :
    Reads levels d (Parser.expect kind >>= f) s left Q :=
  token h hkind _ fun token _ => hf token

theorem accept {kind : TokenKind} (h : s.glyphs = glyph :: glyphs) (hkind : glyph.kind = kind)
    {f : Bool → Parser β}
    (hf : (s.advance 1).glyphs = glyphs → Reads levels d (f true) (s.advance 1) left Q) :
    Reads levels d (Parser.accept kind >>= f) s left Q :=
  step (if_pos (by rw [State.isAt_eq, h, ← hkind]; exact beq_self_eq_true _))
    (hf (State.glyphs_advance_one h))

theorem accept_not {kind : TokenKind} (h : ¬ s.isAt kind) {f : Bool → Parser β}
    (hf : Reads levels d (f false) s left Q) : Reads levels d (Parser.accept kind >>= f) s left Q :=
  stay (if_neg h) hf

theorem identifier (h : s.glyphs = glyph :: glyphs) (hkind : glyph.kind = .word) (what : Wanted) :
    Reads levels 0 (Parser.identifier what) s glyphs
      fun node => node.withoutSpans = .bareLeaf .identifier glyph.text := by
  refine token h hkind what fun token htoken hnext => .pure hnext ?_
  rw [← htoken]
  rfl

end

end Reads

section

variable {levels : Nat} {s : State} {left : List Glyph}

theorem reads_segments (others : List Word) (hleft : ¬ left.head?.any (·.kind == .dot))
    (h : s.glyphs =
      (others.flatMap fun word => [.inline .dot ".", .inline .word word.text]) ++ left)
    (count : Nat) (hcount : others.length ≤ count) :
    Reads levels 0 (upTo State.atSegment (do advance 1; identifier .name) count) s left
      fun nodes => nodes.map Node.withoutSpans = others.map Word.node := by
  induction others generalizing s count with
  | nil =>
    have hstop : ¬ s.atSegment := by
      simp only [State.atSegment, State.isAt_eq, h, List.flatMap_nil, List.nil_append]
      simp [hleft]
    exact .done (upTo_of_not hstop count) h rfl
  | cons word others ih =>
    obtain ⟨count, rfl⟩ := Nat.exists_eq_add_one_of_ne_zero (Nat.ne_of_gt
      (Nat.lt_of_lt_of_le (Nat.zero_lt_succ _) hcount))
    have hgo : s.atSegment := by
      simp [State.atSegment, State.isAt_eq, State.nthIsWord_eq, h, Glyph.inline]
    refine .look ?_
    rw [if_pos hgo, bind_assoc]
    refine .advance 1 fun hnext => ?_
    rw [h] at hnext
    refine (Reads.identifier hnext rfl .name).andThen fun node more hnode hmid => ?_
    refine (ih hmid count (Nat.le_of_succ_le_succ hcount)).andThen fun nodes _ hnodes hend => ?_
    refine .pure hend ?_
    rw [List.map_cons, List.map_cons, hnode, hnodes]
    rfl

/-- A name made of segments, of which only the words are known. -/
theorem withoutSpans_qualified {segments : List Node} {words : List Word}
    (h : segments.map Node.withoutSpans = words.map Word.node) (start stop : Nat) :
    (qualified start stop segments).withoutSpans =
      { Node.bare .qualifiedName (words.map Word.node) with
        text := some (".".intercalate (words.map Word.text)) } := by
  have htexts : segments.map (fun node => node.text.getD "") = words.map Word.text := calc
    segments.map (fun node => node.text.getD "")
      = (segments.map Node.withoutSpans).map (fun node => node.text.getD "") := by
        simp only [List.map_map, Function.comp_def, Node.text_withoutSpans]
    _ = words.map Word.text := by
        rw [h, List.map_map]
        rfl
  rw [← htexts, ← h, ← Node.withoutSpans_list]
  rfl

theorem reads_entityName (name : DottedName) (hleft : ¬ left.head?.any (·.kind == .dot))
    (h : s.glyphs = name.glyphs ++ left) :
    Reads levels 0 entityName s left fun node => node.withoutSpans = name.node := by
  obtain ⟨first, others⟩ := name
  rw [DottedName.glyphs, List.cons_append] at h
  refine (Reads.identifier h rfl .name).andThen fun node count hnode hmid => ?_
  have hlength : others.length ≤ (s.advance count).rest.length := by
    rw [← State.length_glyphs, hmid, List.length_append, List.length_flatMap]
    simp only [List.length_cons, List.length_nil, List.map_const', List.sum_replicate_nat]
    omega
  refine (reads_segments others hleft hmid _ hlength).repeatWhile.andThen
    fun nodes more hnodes hend => ?_
  cases others with
  | nil =>
    have hnil : nodes = [] := List.map_eq_nil_iff.mp hnodes
    subst hnil
    exact .pure hend hnode
  | cons second others =>
    have hcons : nodes ≠ [] := fun hnil => by
      rw [hnil] at hnodes
      cases hnodes
    have hall : (node :: nodes).map Node.withoutSpans =
        (DottedName.mk first (second :: others)).words.map Word.node := by
      rw [List.map_cons, hnode, hnodes]
      rfl
    rw [if_neg (by simpa using hcons)]
    exact .look (.pure hend (withoutSpans_qualified hall ..))

end

end Parser

end DeclSchema
