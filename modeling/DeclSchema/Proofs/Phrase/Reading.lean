import DeclSchema.Proofs.Phrase.Steps

/-!
# Reading phrases

What the parsers of types do on the tokens of a phrase. Each of them is treated by
itself, for any parser `type` of the types inside; the recursion through all of them is
closed in `DeclSchema.Proofs.Phrase.Precedence`.

A parser of operands stops where none of its operators follows. The kinds of tokens that
may follow a phrase are therefore more, the tighter it binds.
-/

namespace DeclSchema

/-- Whether a token of the kind ends every type before it. -/
def endsType : TokenKind → Bool
  | .semicolon | .comma | .rParen | .rBracket | .rBrace | .gt => true
  | _ => false

/-- Whether a token of the kind may stand behind a phrase of the category. -/
def Category.ends : Category → TokenKind → Bool
  | .intersection, kind => endsType kind || kind == .pipe
  | .suffixed, kind => endsType kind || kind == .pipe || kind == .amp
  | _, kind => endsType kind

/-- Whether a token of the kind may stand behind a primary type. -/
def endsPrimary (kind : TokenKind) : Bool :=
  Category.suffixed.ends kind || kind == .lBracket

/-- Whether a type may begin with a token of the kind. -/
def opensType : TokenKind → Bool
  | .word | .string | .number | .minus | .lParen | .lBracket => true
  | _ => false

/-- Whether a word before a token of the kind names an element of a tuple. -/
def labels : TokenKind → Bool
  | .colon | .question => true
  | _ => false

/-- The tokens begin with a type: not with a modifier of a type, nor with the name of an
element of a tuple. -/
def OpensType (glyphs : List Glyph) : Prop :=
  ∃ first rest, glyphs = first :: rest ∧ opensType first.kind ∧
    (first.kind = .word → first.text ≠ "readonly" ∧ ¬ rest.head?.any (labels ·.kind))

theorem OpensType.not_head {glyphs : List Glyph} (h : OpensType glyphs) {kind : TokenKind}
    (hkind : ¬ opensType kind) : ¬ glyphs.head?.any (·.kind == kind) := by
  obtain ⟨first, rest, rfl, hfirst, -⟩ := h
  intro hhead
  rw [← eq_of_beq (show (first.kind == kind) = true from hhead)] at hkind
  exact hkind hfirst

theorem head_of_kind {accepts : TokenKind → Bool} {kind : TokenKind} (hkind : accepts kind)
    {glyphs : List Glyph} (h : glyphs.head?.any (·.kind == kind)) :
    glyphs.head?.any (accepts ·.kind) := by
  cases glyphs with
  | nil => cases h
  | cons first rest =>
    rw [← eq_of_beq (show (first.kind == kind) = true from h)] at hkind
    exact hkind

/-- No token is of two kinds. -/
theorem not_head_of_ends {ends : TokenKind → Bool} {kind : TokenKind} (hkind : ¬ ends kind)
    {left : List Glyph} (hleft : left.head?.any (ends ·.kind)) :
    ¬ left.head?.any (·.kind == kind) := by
  cases left with
  | nil => cases hleft
  | cons first left =>
    intro hhead
    rw [← eq_of_beq (show (first.kind == kind) = true from hhead)] at hkind
    exact hkind hleft

theorem head_imp {accepts accepts' : TokenKind → Bool} (himp : ∀ kind, accepts kind → accepts' kind)
    {glyphs : List Glyph} (h : glyphs.head?.any (accepts ·.kind)) :
    glyphs.head?.any (accepts' ·.kind) := by
  cases glyphs with
  | nil => cases h
  | cons first rest => exact himp first.kind h

theorem Category.endsPrimary_of_ends (category : Category) (kind : TokenKind)
    (h : category.ends kind) : endsPrimary kind := by
  cases category <;> simp_all [ends, endsPrimary]

theorem intersection_ends (kind : TokenKind) (h : endsType kind) :
    Category.intersection.ends kind := by
  simp [Category.ends, h]

theorem suffixed_ends (kind : TokenKind) (h : Category.intersection.ends kind) :
    Category.suffixed.ends kind := by
  simp only [Category.ends, Bool.or_eq_true] at h ⊢
  exact .inl h

theorem not_labels_of_endsPrimary {left : List Glyph} (h : left.head?.any (endsPrimary ·.kind)) :
    ¬ left.head?.any (labels ·.kind) := by
  cases left with
  | nil => cases h
  | cons first left =>
    obtain ⟨kind, text, newline⟩ := first
    have hkind : endsPrimary kind := h
    cases kind <;> first | exact Bool.false_ne_true | cases hkind

theorem not_labels_of_endsType {left : List Glyph} (h : left.head?.any (endsType ·.kind)) :
    ¬ left.head?.any (labels ·.kind) :=
  not_labels_of_endsPrimary (head_imp Category.type.endsPrimary_of_ends h)

namespace DottedName

theorem exists_glyphs (name : DottedName) {left : List Glyph}
    (hleft : ¬ left.head?.any (labels ·.kind)) :
    ∃ rest, name.glyphs ++ left = .inline .word name.first.text :: rest ∧
      ¬ rest.head?.any (labels ·.kind) := by
  obtain ⟨first, others⟩ := name
  cases others with
  | nil => exact ⟨left, rfl, hleft⟩
  | cons second others => exact ⟨_, rfl, Bool.false_ne_true⟩

theorem opensType_glyphs (name : DottedName) (hname : name.first.text ≠ "readonly")
    {left : List Glyph} (hleft : ¬ left.head?.any (labels ·.kind)) :
    OpensType (name.glyphs ++ left) := by
  obtain ⟨rest, heq, hrest⟩ := name.exists_glyphs hleft
  exact ⟨_, rest, heq, rfl, fun _ => ⟨hname, hrest⟩⟩

end DottedName

theorem Word.ne_of_not_isReserved {word : Word} (h : ¬ word.isReserved) {text : String}
    (htext : text ∈ ["typeof", "true", "false", "readonly"]) : word.text ≠ text := by
  rintro rfl
  exact h (by rw [isReserved, List.contains_iff_mem.mpr htext, Bool.or_true])

/-- Whether what is read is a type, and not a part of one with other rules. -/
def Part.isType : Part → Bool
  | .one .type | .one .intersection | .one .suffixed => true
  | _ => false

namespace Phrase

theorem opensType_glyphs {part : Part} (t : Phrase part) (hpart : part.isType)
    {left : List Glyph} (hleft : ¬ left.head?.any (labels ·.kind)) :
    OpensType (t.glyphs ++ left) := by
  induction t generalizing left with
  | nullary | function | string | parenthesized | emptyTuple | tuple =>
    exact ⟨_, _, rfl, rfl, nofun⟩
  | union first _ _ ih | intersection first _ _ ih =>
    simp only [glyphs, List.append_assoc]
    exact ih rfl Bool.false_ne_true
  | ofIntersection operand ih => exact ih rfl hleft
  | ofSuffixed operand ih => exact ih rfl hleft
  | array target ih | indexed target _ ih =>
    simp only [glyphs, List.append_assoc]
    exact ih rfl Bool.false_ne_true
  | keyword word kind h =>
    refine ⟨_, left, rfl, rfl, fun _ => ⟨?_, hleft⟩⟩
    show word.text ≠ "readonly"
    intro htext
    rw [htext] at h
    cases h
  | truth value => cases value <;> exact ⟨_, left, rfl, rfl, fun _ => ⟨by decide, hleft⟩⟩
  | number negative numeral => cases negative <;> exact ⟨_, _, rfl, rfl, nofun⟩
  | reference name h => exact name.opensType_glyphs (Word.ne_of_not_isReserved h (by decide)) hleft
  | applied name h =>
    simp only [glyphs, List.append_assoc]
    exact name.opensType_glyphs (Word.ne_of_not_isReserved h (by decide)) Bool.false_ne_true
  | query name => exact ⟨_, _, rfl, rfl, fun _ => ⟨by decide, Bool.false_ne_true⟩⟩
  | parameter | element | spread | done | more => cases hpart

/-- A phrase that is not a list stands for one node. -/
theorem exists_node {category : Category} : (t : Phrase (.one category)) → ∃ node, t.nodes = [node]
  | ofIntersection operand => operand.exists_node
  | ofSuffixed operand => operand.exists_node
  | element type => type.exists_node
  | truth true | truth false | number true _ | number false _ | nullary _ | function .. | union ..
  | intersection .. | array _ | indexed .. | keyword .. | string _ | reference .. | applied ..
  | query _ | parenthesized _ | emptyTuple | tuple .. | parameter .. | spread _ => ⟨_, rfl⟩

/-- The phrases of a list are not empty. -/
theorem length_le_length_glyphs {category : Category} :
    (t : Phrase (.others category)) → t.length ≤ t.glyphs.length
  | done => Nat.le_refl 0
  | more next others => by
    have ih := others.length_le_length_glyphs
    rw [length, glyphs, List.length_append, List.length_append, List.length_singleton]
    omega

end Phrase

namespace Parser

section

variable {token : Token} (rest : List Token) (depth : Nat)

theorem closingParen?_lParen (h : token.kind = .lParen) :
    closingParen? depth (token :: rest) = (closingParen? (depth + 1) rest).map (· + 1) := by
  rw [closingParen?, h]

theorem closingParen?_rParen (h : token.kind = .rParen) :
    closingParen? (depth + 2) (token :: rest) = (closingParen? (depth + 1) rest).map (· + 1) := by
  rw [closingParen?, h]
  exact if_neg (by omega)

end

/-- Every round bracket that is opened in the tokens is closed in them, so that a search
for a closing bracket further on passes over them. -/
def Balanced (glyphs : List Glyph) : Prop :=
  ∀ (tokens rest : List Token) (depth : Nat), tokens.map Token.glyph = glyphs →
    closingParen? (depth + 1) (tokens ++ rest) =
      (closingParen? (depth + 1) rest).map (· + glyphs.length)

namespace Balanced

theorem nil : Balanced [] := by
  intro tokens rest depth h
  rw [List.map_eq_nil_iff.mp h]
  simp

theorem single {glyph : Glyph} (h : [TokenKind.lParen, .rParen].contains glyph.kind = false) :
    Balanced [glyph] := by
  intro tokens rest depth htokens
  obtain ⟨token, rfl, rfl⟩ := List.map_eq_singleton_iff.mp htokens
  obtain ⟨⟨kind, text, span⟩, newline⟩ := token
  have hkind : [TokenKind.lParen, .rParen].contains kind = false := h
  cases kind <;> first | rfl | cases hkind

theorem append {first second : List Glyph} (hfirst : Balanced first) (hsecond : Balanced second) :
    Balanced (first ++ second) := by
  intro tokens rest depth h
  obtain ⟨front, back, rfl, hfront, hback⟩ := List.map_eq_append_iff.mp h
  rw [List.append_assoc, hfirst front _ depth hfront, hsecond back rest depth hback,
    Option.map_map, List.length_append]
  congr 1
  funext count
  dsimp only [Function.comp_apply]
  omega

theorem parens {glyphs : List Glyph} (h : Balanced glyphs) :
    Balanced ([.inline .lParen "("] ++ glyphs ++ [.inline .rParen ")"]) := by
  intro tokens rest depth htokens
  obtain ⟨front, last, rfl, hfront, hlast⟩ := List.map_eq_append_iff.mp htokens
  obtain ⟨opening, inside, rfl, hopening, hinside⟩ := List.map_eq_append_iff.mp hfront
  obtain ⟨first, rfl, hfirst⟩ := List.map_eq_singleton_iff.mp hopening
  obtain ⟨closing, rfl, hclosing⟩ := List.map_eq_singleton_iff.mp hlast
  have hfirst : first.kind = .lParen := congrArg Glyph.kind hfirst
  have hclosing : closing.kind = .rParen := congrArg Glyph.kind hclosing
  rw [List.append_assoc, List.append_assoc, List.singleton_append, List.singleton_append,
    closingParen?_lParen _ _ hfirst, h inside _ _ hinside, closingParen?_rParen _ _ hclosing,
    Option.map_map, Option.map_map, List.length_append, List.length_append]
  congr 1
  funext count
  dsimp only [Function.comp_apply, List.length_singleton]
  omega

theorem flatMap {α : Type} {items : List α} {glyphs : α → List Glyph}
    (h : ∀ item, Balanced (glyphs item)) : Balanced (items.flatMap glyphs) := by
  induction items with
  | nil => exact .nil
  | cons item items ih => exact (h item).append ih

end Balanced

/-- Round brackets begin a function type if an arrow follows them. -/
theorem startsFunctionType_eq {s : State} {inside left : List Glyph} (hinside : Balanced inside)
    (h : s.glyphs = .inline .lParen "(" :: inside ++ .inline .rParen ")" :: left) :
    startsFunctionType s.rest = left.head?.any (·.kind == .arrow) := by
  obtain ⟨front, back, hrest, hfront, hback⟩ := List.map_eq_append_iff.mp h
  obtain ⟨first, middle, rfl, hfirst, hmiddle⟩ := List.map_eq_cons_iff.mp hfront
  obtain ⟨closing, behind, rfl, hclosing, hbehind⟩ := List.map_eq_cons_iff.mp hback
  have hclosing : closing.kind = .rParen := congrArg Glyph.kind hclosing
  have hclose : closingParen? 0 s.rest = some (inside.length + 1) := by
    rw [hrest, List.cons_append, closingParen?_lParen _ _ (congrArg Glyph.kind hfirst),
      hinside middle _ 0 hmiddle, closingParen?, hclosing]
    simp
  have hnext : s.rest[inside.length + 1 + 1]? = behind.head? := by
    rw [hrest, ← hmiddle, List.length_map, List.cons_append, List.getElem?_cons_succ,
      List.getElem?_append_right (Nat.le_succ _), List.head?_eq_getElem?, Nat.succ_sub (Nat.le_refl _),
      Nat.sub_self]
    rfl
  unfold startsFunctionType
  rw [hclose]
  dsimp only
  rw [hnext, ← hbehind, List.head?_map, Option.any_map]
  rfl

end Parser

namespace DottedName

theorem balanced (name : DottedName) : Parser.Balanced name.glyphs :=
  (Parser.Balanced.single rfl).append
    (.flatMap fun _ => (Parser.Balanced.single rfl).append (.single rfl))

end DottedName

namespace Phrase

open DeclSchema.Parser (Balanced)

theorem balanced {part : Part} (t : Phrase part) : Balanced t.glyphs := by
  induction t with
  | nullary returned ih =>
    exact ((Balanced.parens .nil).append (.single rfl)).append ih
  | function first others returned ihFirst ihOthers ihReturned =>
    have hparens := (ihFirst.append ihOthers).parens
    rw [← List.append_assoc] at hparens
    exact (hparens.append (.single rfl)).append ihReturned
  | union first second others ihFirst ihSecond ihOthers
  | intersection first second others ihFirst ihSecond ihOthers =>
    exact ((ihFirst.append (.single rfl)).append ihSecond).append ihOthers
  | ofIntersection operand ih => exact ih
  | ofSuffixed operand ih => exact ih
  | array target ih =>
    exact ih.append ((Balanced.single rfl).append (.single rfl))
  | indexed target index ihTarget ihIndex =>
    exact ((ihTarget.append (.single rfl)).append ihIndex).append (.single rfl)
  | keyword | string => exact .single rfl
  | truth value => cases value <;> exact .single rfl
  | number negative numeral =>
    cases negative with
    | true => exact (Balanced.single rfl).append (.single rfl)
    | false => exact .single rfl
  | reference name => exact name.balanced
  | applied name _ _ first others ihFirst ihOthers =>
    exact (((name.balanced.append (.single rfl)).append ihFirst).append ihOthers).append
      (.single rfl)
  | query name => exact (Balanced.single rfl).append name.balanced
  | parenthesized inside ih => exact ih.parens
  | emptyTuple => exact (Balanced.single rfl).append (.single rfl)
  | tuple first others ihFirst ihOthers =>
    exact (((Balanced.single rfl).append ihFirst).append ihOthers).append
      (.single rfl)
  | parameter name type ih =>
    exact ((Balanced.single rfl).append (.single rfl)).append ih
  | element type ih => exact ih
  | spread type ih => exact (Balanced.single rfl).append ih
  | done => exact .nil
  | @more category next others ihNext ihOthers =>
    exact ((Balanced.single (by cases category <;> rfl)).append ihNext).append ihOthers

end Phrase

namespace Phrase

open DeclSchema.Parser

/-- A parser reads a phrase in front of every token of the kinds given. -/
def ReadBy {part : Part} (t : Phrase part) (levels : Nat) (p : Parser Node)
    (ends : TokenKind → Bool) : Prop :=
  ∀ (s : State) (left : List Glyph), s.glyphs = t.glyphs ++ left → s.depth + levels = maxDepth →
    left.head?.any (ends ·.kind) →
    Reads levels t.depth p s left fun node => [node.withoutSpans] = t.nodes

/-- A parser of one phrase reads those that follow the first one in a list, if they have
an operator between them. -/
def ListedBy {part : Part} (t : Phrase part) (levels : Nat) (p : Parser Node)
    (operator : TokenKind) (ends : TokenKind → Bool) : Prop :=
  ∀ (s : State) (left : List Glyph) (count : Nat), s.glyphs = t.glyphs ++ left →
    s.depth + levels = maxDepth → left.head?.any (ends ·.kind) →
    ¬ left.head?.any (·.kind == operator) → t.length ≤ count →
    Reads levels t.depth (upTo (·.isAt operator) (do advance 1; p) count) s left
      fun nodes => nodes.map Node.withoutSpans = t.nodes

section

variable {levels : Nat} {p : Parser Node} {operator : TokenKind} {ends : TokenKind → Bool}
  {category : Category}

theorem listedBy_done : (done : Phrase (.others category)).ListedBy levels p operator ends := by
  intro s left count h hdepth hleft hoperator hcount
  exact .done (upTo_of_not (by rw [State.isAt_eq, h]; exact hoperator) count) h rfl

/-- Either another phrase follows with its operator, or what is behind the list. -/
theorem head_others {others : Phrase (.others category)} {left : List Glyph}
    (hseparator : ends category.separatorGlyph.kind) (hleft : left.head?.any (ends ·.kind)) :
    (others.glyphs ++ left).head?.any (ends ·.kind) := by
  cases others with
  | done => exact hleft
  | more next others => exact hseparator

theorem listedBy_more {next : Phrase (.one category)} {others : Phrase (.others category)}
    (hoperator : category.separatorGlyph.kind = operator) (hends : ends operator)
    (hnext : next.ReadBy levels p ends) (hothers : others.ListedBy levels p operator ends) :
    (more next others).ListedBy levels p operator ends := by
  intro s left count h hdepth hleft hstop hcount
  rw [glyphs, List.append_assoc, List.append_assoc, List.singleton_append] at h
  obtain ⟨count, rfl⟩ := Nat.exists_eq_add_one_of_ne_zero (Nat.ne_of_gt
    (Nat.lt_of_lt_of_le (Nat.zero_lt_succ _) hcount))
  refine .look ?_
  have hgo : s.isAt operator := by
    rw [State.isAt_eq, h, ← hoperator]
    exact beq_self_eq_true _
  rw [if_pos hgo, bind_assoc]
  refine .advance 1 fun hmid => ?_
  rw [h] at hmid
  refine (hnext _ _ hmid hdepth (head_others (hoperator ▸ hends) hleft)).bind
    fun node count' hnode hbehind => ?_
  refine (hothers _ left count hbehind hdepth hleft hstop (Nat.le_of_succ_le_succ hcount)).andThen
    fun nodes count'' hnodes hend => .pure hend ?_
  rw [List.map_cons, hnodes, Phrase.nodes, ← hnode]
  rfl

/-- Goes on with a list between commas behind an item of it. -/
def listBehind (close : TokenKind) (item : Parser Node) (count : Nat) (first : Node) :
    Parser (List Node) := do
  if ← accept .comma then
    return first :: (← listUpTo close item count)
  else
    let _ ← expect close
    return [first]

/-- A parser of one phrase reads those that follow the first one in a list, together with
the mark that closes the list. -/
def ClosedBy {part : Part} (t : Phrase part) (levels : Nat) (p : Parser Node)
    (close : TokenKind) : Prop :=
  ∀ (s : State) (closing : Glyph) (left : List Glyph) (count : Nat) (first : Node),
    s.glyphs = t.glyphs ++ closing :: left → s.depth + levels = maxDepth →
    closing.kind = close → t.length ≤ count →
    Reads levels t.depth (listBehind close p count first) s left
      fun nodes => nodes.map Node.withoutSpans = first.withoutSpans :: t.nodes

theorem closedBy_done {close : TokenKind} (hclose : close ≠ .comma) :
    (done : Phrase (.others category)).ClosedBy levels p close := by
  intro s closing left count first h hdepth hclosing hcount
  have hcomma : ¬ s.isAt .comma := by
    rw [State.isAt_eq, h]
    show ¬ (closing.kind == TokenKind.comma) = true
    simpa [hclosing] using hclose
  exact .accept_not hcomma (.expect h hclosing fun _ hend => .pure hend rfl)

section

variable {close : TokenKind} {first : Phrase (.one category)} {others : Phrase (.others category)}
  (hseparator : category.separatorGlyph.kind = .comma) (hends : ends .comma ∧ ends close)
  (hhead : ∀ {left : List Glyph}, left.head?.any (ends ·.kind) →
    ¬ (first.glyphs ++ left).head?.any (·.kind == close))
  (hfirst : first.ReadBy levels p ends) (hothers : others.ClosedBy levels p close)

include hseparator hends hhead hfirst hothers

theorem reads_listUpTo {s : State} {closing : Glyph} {left : List Glyph} {count : Nat}
    (h : s.glyphs = first.glyphs ++ (others.glyphs ++ closing :: left))
    (hdepth : s.depth + levels = maxDepth) (hclosing : closing.kind = close)
    (hcount : others.length ≤ count) :
    Reads levels (max first.depth others.depth) (listUpTo close p (count + 1)) s left
      fun nodes => nodes.map Node.withoutSpans = first.nodes ++ others.nodes := by
  have hend : (others.glyphs ++ closing :: left).head?.any (ends ·.kind) :=
    head_others (hseparator ▸ hends.1) (show ends closing.kind = true from hclosing ▸ hends.2)
  have hclosed : ¬ s.isAt close := by
    rw [State.isAt_eq, h]
    exact hhead hend
  refine .accept_not hclosed ?_
  refine (hfirst s _ h hdepth hend).bind fun node _ hnode hbehind => ?_
  refine (hothers _ closing left count node hbehind hdepth hclosing hcount).imp fun nodes hnodes => ?_
  rw [hnodes, ← hnode]
  rfl

theorem closedBy_more : (more first others).ClosedBy levels p close := by
  intro s closing left count node h hdepth hclosing hcount
  rw [glyphs, List.append_assoc, List.append_assoc, List.singleton_append] at h
  obtain ⟨count, rfl⟩ := Nat.exists_eq_add_one_of_ne_zero (Nat.ne_of_gt
    (Nat.lt_of_lt_of_le (Nat.zero_lt_succ _) hcount))
  refine .accept h hseparator fun hmid => ?_
  exact (reads_listUpTo hseparator hends hhead hfirst hothers hmid hdepth hclosing
    (Nat.le_of_succ_le_succ hcount)).andThen fun nodes _ hnodes hend => .pure hend (congrArg _ hnodes)

theorem reads_commaList {s : State} {closing : Glyph} {left : List Glyph}
    (h : s.glyphs = first.glyphs ++ (others.glyphs ++ closing :: left))
    (hdepth : s.depth + levels = maxDepth) (hclosing : closing.kind = close) :
    Reads levels (max first.depth others.depth) (commaList close p) s left
      fun nodes => nodes.map Node.withoutSpans = first.nodes ++ others.nodes := by
  have hcount : others.length ≤ s.rest.length := by
    have hlength := others.length_le_length_glyphs
    rw [← State.length_glyphs, h, List.length_append, List.length_append]
    omega
  have hlist := reads_listUpTo hseparator hends hhead hfirst hothers h hdepth hclosing hcount
  exact ⟨hlist.enough, hlist.tooDeep⟩

end

theorem reads_commaList_nil {close : TokenKind} {s : State} {closing : Glyph} {left : List Glyph}
    (h : s.glyphs = closing :: left) (hclosing : closing.kind = close) :
    Reads levels 0 (commaList close p) s left (· = []) := by
  have hlist : Reads levels 0 (listUpTo close p (s.rest.length + 1)) s left (· = []) :=
    .accept h hclosing fun hend => .pure hend rfl
  exact ⟨hlist.enough, hlist.tooDeep⟩

end

end Phrase

end DeclSchema
