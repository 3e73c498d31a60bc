import DeclSchema.Proofs.Parser.Progress
import DeclSchema.Proofs.Token.Longest

/-!
# The shape of type nodes

What a type means is read off the children of its node, and a reader of the tree relies
on those that the parser puts there: a group has a type in it, a literal type has one
literal, and a reference starts with a name. An interface or a class is called by a word.
`Node.Shaped` says this of a node and of all the nodes below it; `Parse.shaped` says that
every tree that is read is of this shape.

The names are the only place where the text of a token matters. `Gives` is the property
of a parser that what it gives satisfies a predicate, whenever all the words it may read
are spelled as words.
-/

namespace DeclSchema

namespace Pattern

theorem all_take_run (inClass : Char → Bool) (cs : List Char) :
    (cs.take (run inClass cs)).all inClass := by
  induction cs with
  | nil => rfl
  | cons c cs ih =>
    by_cases h : inClass c
    · simpa [run, h] using ih
    · simp [run, h]

/-- Only the rule for words gives words. -/
theorem startsWord_of_next {c : Char} {cs : List Char} (h : (next c cs).1 = some .word) :
    startsWord c := by
  have hquoted := fun kind quote multiline (hkind : (quoted kind quote multiline cs).1 = _) =>
    (quoted_eq (.inl rfl) hkind).1
  unfold next at h
  split at h
  · cases h
  split at h
  · assumption
  split at h
  · cases h
  split at h
  · cases hquoted _ _ _ h
  · cases hquoted _ _ _ h
  · cases hquoted _ _ _ h
  · exact absurd h (slashed_ne (.inl rfl) cs)
  · exact absurd h (pointed_ne (.inl rfl) cs)
  · split at h <;> cases h
  · exact absurd (Option.some.inj h) (getD_ofMark?_ne (.inl rfl) _)

end Pattern

namespace Piece

theorem isWord_of_first {c : Char} {cs : List Char} (h : (first c cs).kind = some .word) :
    Pattern.isWord (first c cs).text := by
  have hstart := Pattern.startsWord_of_next h
  have hall := Pattern.all_take_run Pattern.continuesWord cs
  simp [first, Pattern.next_of_startsWord hstart, Pattern.isWord, hstart, hall]

theorem isWord_of_mem_take {count : Nat} {cs : List Char} {piece : Piece}
    (hpiece : piece ∈ take count cs) (h : piece.kind = some .word) :
    Pattern.isWord piece.text := by
  obtain ⟨c, rest, rfl⟩ := exists_of_mem_take hpiece
  exact isWord_of_first h

end Piece

/-- A token of the kind of words is spelled as a word. -/
def Token.Spelled (token : Token) : Prop :=
  token.kind = .word → Pattern.isWord token.text.toList

namespace TokenStream

theorem spelled_ofSource (source : String) :
    ∀ token ∈ (ofSource source).tokens, token.Spelled := by
  intro token htoken hword
  obtain ⟨piece, hpiece, hkind, htext⟩ := exists_piece htoken
  rw [htext, String.toList_ofList]
  exact Piece.isWord_of_mem_take hpiece (hword ▸ hkind)

end TokenStream

/-- Whether a node of the kind is the value in a literal type. -/
def NodeKind.isLiteral : NodeKind → Bool
  | .stringLiteral | .numericLiteral | .trueKeyword | .falseKeyword => true
  | _ => false

namespace Node

/-- A name: one word as it is, or several words with points between them. -/
structure NamedBy (node : Node) (words : List String) : Prop where
  spelled : ∀ word ∈ words, Pattern.isWord word.toList
  text : node.text = some (".".intercalate words)
  kind : node.kind = .identifier ∧ words.length = 1 ∨
    node.kind = .qualifiedName ∧ 2 ≤ words.length

/-- The names among several nodes are words as they are. -/
def Worded (nodes : List Node) : Prop :=
  ∀ node ∈ nodes, node.kind = .identifier →
    ∃ word, Pattern.isWord word.toList ∧ node.text = some word

/-- The children that a node of a kind has, as far as a reader of types relies on them,
and of a declaration its name. -/
def Formed : NodeKind → List Node → Prop
  | .interfaceDeclaration, children | .classDeclaration, children => Worded children
  | .parenthesizedType, children | .unionType, children | .arrayType, children =>
    ∃ child ∈ children, child.kind.isType
  | .literalType, children => ∃ literal, children = [literal] ∧ literal.kind.isLiteral
  | .typeReference, children | .typeQuery, children =>
    ∃ name arguments words, children = name :: arguments ∧ name.NamedBy words ∧
      ∀ argument ∈ arguments, argument.kind.isType
  | _, _ => True

/-- The node and all the nodes below it have the children that their kinds ask for. -/
def Shaped (node : Node) : Prop :=
  ∀ inner ∈ node.preorder, Formed inner.kind inner.children

/-- All of several nodes are shaped. -/
def AllShaped (nodes : List Node) : Prop :=
  ∀ node ∈ nodes, node.Shaped

/-- A node that stands for a type. -/
structure IsType (node : Node) : Prop where
  isType : node.kind.isType
  shaped : node.Shaped

theorem shaped_iff {node : Node} :
    node.Shaped ↔ Formed node.kind node.children ∧ AllShaped node.children :=
  forall_mem_preorder_iff

@[simp] theorem shaped_mk {kind : NodeKind} {text : Option String} {tags : List DocTag}
    {span : Span} {children : List Node} :
    Shaped ⟨kind, text, tags, span, children⟩ ↔ Formed kind children ∧ AllShaped children :=
  shaped_iff

@[simp] theorem shaped_inner {kind : NodeKind} {start stop : Nat} {children : List Node} :
    (Node.inner kind start stop children).Shaped ↔ Formed kind children ∧ AllShaped children :=
  shaped_iff

@[simp] theorem worded_nil : Worded [] := by
  simp [Worded]

@[simp] theorem worded_cons {node : Node} {nodes : List Node} :
    Worded (node :: nodes) ↔
      (node.kind = .identifier → ∃ word, Pattern.isWord word.toList ∧ node.text = some word) ∧
        Worded nodes := by
  simp [Worded]

@[simp] theorem worded_append {first second : List Node} :
    Worded (first ++ second) ↔ Worded first ∧ Worded second := by
  simp only [Worded, List.forall_mem_append]

theorem worded_of_kind_ne {nodes : List Node} (h : ∀ node ∈ nodes, node.kind ≠ .identifier) :
    Worded nodes :=
  fun node hnode hkind => absurd hkind (h node hnode)

@[simp] theorem allShaped_nil : AllShaped [] := by
  simp [AllShaped]

@[simp] theorem allShaped_cons {node : Node} {nodes : List Node} :
    AllShaped (node :: nodes) ↔ node.Shaped ∧ AllShaped nodes := by
  simp [AllShaped]

@[simp] theorem allShaped_append {first second : List Node} :
    AllShaped (first ++ second) ↔ AllShaped first ∧ AllShaped second := by
  simp only [AllShaped, List.mem_append]
  grind

@[simp] theorem shaped_leaf {kind : NodeKind} {text : String} {span : Span} :
    (leaf kind text span).Shaped ↔ Formed kind [] := by
  simp [leaf]

@[simp] theorem shaped_mark {kind : NodeKind} {span : Span} :
    (mark kind span).Shaped ↔ Formed kind [] := by
  simp [mark]

theorem Shaped.of_mem {node inner : Node} (h : node.Shaped) (hinner : inner ∈ node.children) :
    inner.Shaped :=
  (shaped_iff.mp h).2 inner hinner

theorem mem_preorder_self (node : Node) : node ∈ node.preorder := by
  rw [preorder_eq]
  exact List.mem_cons_self

theorem mem_preorder_of_mem {node child inner : Node} (hchild : child ∈ node.children)
    (hinner : inner ∈ child.preorder) : inner ∈ node.preorder := by
  rw [preorder_eq, List.mem_cons, mem_preorderList]
  exact .inr ⟨child, hchild, hinner⟩

mutual

/-- What is below a node that is below another is below that one too. -/
theorem mem_preorder_trans : ∀ (node : Node) {inner below : Node}, inner ∈ node.preorder →
    below ∈ inner.preorder → below ∈ node.preorder
  | ⟨kind, text, tags, span, children⟩, inner, below, hinner, hbelow => by
    rw [preorder_eq] at hinner ⊢
    rcases List.mem_cons.mp hinner with rfl | hinner
    · rwa [preorder_eq] at hbelow
    · exact List.mem_cons_of_mem _ (mem_preorderList_trans children hinner hbelow)

theorem mem_preorderList_trans : ∀ (nodes : List Node) {inner below : Node},
    inner ∈ preorder.preorderList nodes → below ∈ inner.preorder →
      below ∈ preorder.preorderList nodes
  | [], inner, below, hinner, _ => by
    cases hinner
  | node :: rest, inner, below, hinner, hbelow => by
    rw [preorder.preorderList, List.mem_append] at hinner ⊢
    exact hinner.imp (mem_preorder_trans node · hbelow) (mem_preorderList_trans rest · hbelow)

end

theorem shaped_of_mem_preorder (node : Node) (h : node.Shaped) :
    ∀ inner ∈ node.preorder, inner.Shaped :=
  fun _ hinner below hbelow => h below (mem_preorder_trans node hinner hbelow)

end Node

namespace Parser

open Node

/-- All the words still to read are spelled as words. -/
def State.Spelled (s : State) : Prop :=
  ∀ token ∈ s.rest, token.Spelled

/-- What the parser gives where it succeeds satisfies `Q`. -/
def Gives (p : Parser α) (Q : α → Prop) : Prop :=
  ∀ s : State, s.Spelled → ∀ a t, p s = (.ok a, t) → Q a

section

variable {α β : Type} {p q : Parser α} {f : α → Parser β} {P : α → Prop} {Q : β → Prop}

/-- Reading on leaves words that are spelled as words. -/
theorem State.Spelled.after {s t : State} (hs : s.Spelled) (h : t.rest <:+ s.rest) : t.Spelled :=
  fun token htoken => hs token (h.subset htoken)

theorem spelled_of_run [Forward p] {s t : State} {result : Except ParseError α}
    (hs : s.Spelled) (h : p s = (result, t)) : t.Spelled := by
  have hrest := (Forward.of_run h).rest
  exact hs.after hrest

namespace Gives

theorem mono (h : Gives p P) {P' : α → Prop} (hP : ∀ a, P a → P' a) : Gives p P' :=
  fun s hs a t hp => hP a (h s hs a t hp)

theorem and (h : Gives p P) {P' : α → Prop} (h' : Gives p P') :
    Gives p fun a => P a ∧ P' a :=
  fun s hs a t hp => ⟨h s hs a t hp, h' s hs a t hp⟩

theorem pure {a : α} (h : P a) : Gives (pure a) P := by
  intro s hs b t hp
  cases hp
  exact h

theorem bind [Forward p] (hp : Gives p P) (hf : ∀ a, P a → Gives (f a) Q) :
    Gives (p >>= f) Q := by
  intro s hs b t h
  rcases hrun : p s with ⟨error | a, u⟩
  · rw [bind_apply_error hrun] at h
    cases h
  · rw [bind_apply_ok hrun] at h
    exact hf a (hp s hs a u hrun) u (spelled_of_run hs hrun) b t h

/-- A step whose result does not matter. -/
theorem after [Forward p] (hf : ∀ a, Gives (f a) Q) : Gives (p >>= f) Q :=
  .bind (P := fun _ => True) (fun _ _ _ _ _ => trivial) fun a _ => hf a

theorem fail (fault : Fault) : Gives (fail fault : Parser α) P := by
  intro s hs a t h
  cases h

theorem refuse : Gives (refuse : Parser α) P :=
  .after fun _ => .fail _

theorem ite {c : Prop} [Decidable c] (hp : Gives p P) (hq : Gives q P) :
    Gives (if c then p else q) P := by
  split
  · exact hp
  · exact hq

/-- A step that is taken only under a condition, with what comes behind it. -/
theorem when {c : Prop} [Decidable c] {p : Parser Unit} {f : Unit → Parser β} [Forward p]
    (hf : ∀ u, Gives (f u) Q) : Gives (if c then p >>= f else f ()) Q :=
  .ite (.after hf) (hf ())

/-- One of two steps, with what comes behind it in both cases. -/
theorem either {c : Prop} [Decidable c] [Forward p] [Forward q] (hp : Gives p P)
    (hq : Gives q P) (hf : ∀ a, P a → Gives (f a) Q) :
    Gives (if c then p >>= f else q >>= f) Q :=
  .ite (.bind hp hf) (.bind hq hf)

theorem token (kind : TokenKind) (what : Wanted) :
    Gives (token kind what) fun token => token.kind = kind ∧ token.Spelled := by
  intro s hs a t h
  unfold Parser.token at h
  split at h
  · cases h
  · next first rest hrest =>
    split at h
    · next hkind =>
      cases h
      exact ⟨hkind, hs _ (by simp [hrest])⟩
    · cases h

theorem nested (h : Gives p P) : Gives (nested p) P := by
  intro s hs a t hrun
  unfold Parser.nested at hrun
  split at hrun
  · exact refuse s hs a t hrun
  · rcases hp : p { s with depth := s.depth + 1 } with ⟨result, u⟩
    rw [hp] at hrun
    cases hrun
    exact h { s with depth := s.depth + 1 } hs a u hp

theorem optional {test : Parser Bool} [Forward test] [Forward p] (hp : Gives p P) :
    Gives (optional test p) fun as => ∀ a ∈ as, P a :=
  .after fun _ => .ite (.bind hp fun _ ha => .pure (by simpa using ha)) (.pure (by simp))

theorem upTo {continues : State → Bool} [Forward p] (hp : Gives p P) (count : Nat) :
    Gives (upTo continues p count) fun as => ∀ a ∈ as, P a := by
  induction count with
  | zero => exact .pure (by simp)
  | succ count ih =>
    refine .after fun s => .ite ?_ (.pure (by simp))
    exact .bind hp fun a ha => .bind ih fun as has => .pure (by simpa [ha] using has)

theorem repeatWhile {continues : State → Bool} [Forward p] (hp : Gives p P) :
    Gives (repeatWhile continues p) fun as => ∀ a ∈ as, P a :=
  fun s => upTo hp s.rest.length s

theorem separated {separator : TokenKind} [Forward p] (hp : Gives p P) :
    Gives (separated separator p) fun as => as ≠ [] ∧ ∀ a ∈ as, P a := by
  refine .bind hp fun first hfirst => ?_
  refine .bind (P := fun as => ∀ a ∈ as, P a) (repeatWhile (.after fun _ => hp)) fun others ho => ?_
  exact .pure (by simpa [hfirst] using ho)

theorem listUpTo {close : TokenKind} [Forward p] (hp : Gives p P) (count : Nat) :
    Gives (listUpTo close p count) fun as => ∀ a ∈ as, P a := by
  induction count with
  | zero => exact .pure (by simp)
  | succ count ih =>
    refine .after fun _ => .ite (.pure (by simp)) (.bind hp fun a ha => .after fun _ => .ite ?_ ?_)
    · exact .bind ih fun as has => .pure (by simpa [ha] using has)
    · exact .after fun _ => .pure (by simpa using ha)

theorem commaList {close : TokenKind} [Forward p] (hp : Gives p P) :
    Gives (commaList close p) fun as => ∀ a ∈ as, P a :=
  fun s => listUpTo hp (s.rest.length + 1) s

theorem members {separates : TokenKind → Bool} {recovery : List Token → Nat}
    {member : Parser (Option Node)} [Forward member] {P : Node → Prop}
    (hm : Gives member fun node? => ∀ node ∈ node?, P node) :
    Gives (members separates recovery member) fun nodes => ∀ node ∈ nodes, P node := by
  intro s hs nodes t hrun
  obtain ⟨nodes', t', hrun', hmotive⟩ := membersUpTo_induction separates recovery member
    (motive := fun s nodes _ => s.Spelled → ∀ node ∈ nodes, P node)
    (fun s _ => by simp)
    (fun s _ _ => by simp)
    (by
      intro s node? t nodes u _ hread ih hs node hnode
      have hskip : (s.skipSeparators separates).Spelled := hs.after (List.drop_suffix _ _)
      rcases List.mem_append.mp hnode with hnode | hnode
      · exact hm _ hskip node? t hread node (by simpa using hnode)
      · exact ih (spelled_of_run hskip hread) node hnode)
    (by
      intro s error t nodes u _ hread ih hs
      have hskip : (s.skipSeparators separates).Spelled := hs.after (List.drop_suffix _ _)
      exact ih ((spelled_of_run hskip hread).after (List.drop_suffix _ _)))
    s.rest.length s
  rw [Parser.members, hrun'] at hrun
  cases hrun
  exact hmotive hs

end Gives

end

@[simp] theorem shaped_tokenLeaf {kind : NodeKind} {token : Token} :
    (tokenLeaf kind token).Shaped ↔ Formed kind [] :=
  shaped_leaf

@[simp] theorem shaped_stringLeaf {token : Token} : (stringLeaf token).Shaped :=
  shaped_leaf.mpr trivial

/-- One segment of a name. -/
def Segment (node : Node) : Prop :=
  ∃ word, Pattern.isWord word.toList ∧ node.kind = .identifier ∧ node.text = some word ∧
    node.Shaped

theorem gives_identifier (what : Wanted) : Gives (identifier what) Segment := by
  refine .bind (.token .word what) fun token htoken => .pure ?_
  exact ⟨token.text, htoken.2 htoken.1, rfl, rfl, shaped_tokenLeaf.mpr trivial⟩

theorem Segment.shaped {node : Node} (h : Segment node) : node.Shaped := by
  obtain ⟨word, -, -, -, hshaped⟩ := h
  exact hshaped

theorem exists_words {segments : List Node} (h : ∀ segment ∈ segments, Segment segment) :
    ∃ words : List String, words.length = segments.length ∧
      (∀ word ∈ words, Pattern.isWord word.toList) ∧
      segments.map (fun segment => segment.text.getD "") = words := by
  refine ⟨segments.map fun segment => segment.text.getD "", by simp, ?_, rfl⟩
  intro word hword
  obtain ⟨segment, hsegment, rfl⟩ := List.mem_map.mp hword
  obtain ⟨word, hspelled, -, htext, -⟩ := h segment hsegment
  rwa [htext]

/-- A name by which a type can be called. -/
def Name (node : Node) : Prop :=
  (∃ words, node.NamedBy words) ∧ node.Shaped

theorem gives_entityName : Gives entityName Name := by
  refine .bind (gives_identifier .name) fun first hfirst => ?_
  refine .bind (P := fun segments => ∀ segment ∈ segments, Segment segment)
    (.repeatWhile (.after fun _ => gives_identifier .name)) fun segments hsegments => ?_
  cases segments with
  | nil =>
    obtain ⟨word, hspelled, hkind, htext, hshaped⟩ := hfirst
    refine .pure ⟨⟨[word], by simpa using hspelled, ?_, .inl ⟨hkind, rfl⟩⟩, hshaped⟩
    simpa using htext
  | cons second others =>
    refine .after fun last => .pure ?_
    have hall : ∀ segment ∈ first :: second :: others, Segment segment := by
      simpa [hfirst] using hsegments
    obtain ⟨words, hlength, hspelled, htexts⟩ := exists_words hall
    refine ⟨⟨words, hspelled, ?_, .inr ⟨rfl, ?_⟩⟩, ?_⟩
    · simp [qualified, ← htexts]
    · simp [hlength]
    · refine shaped_iff.mpr ⟨trivial, fun segment hsegment => ?_⟩
      exact (hall segment hsegment).shaped

theorem gives_memberName : Gives memberName AllShaped := by
  refine .after fun s => ?_
  cases s.rest with
  | nil => exact .fail _
  | cons token rest =>
    dsimp only
    cases token.kind with
    | word => exact .after fun _ => .pure (by simp [Formed])
    | string => exact .after fun _ => .pure (by simp)
    | number => exact .after fun _ => .pure (by simp [Formed])
    | hash =>
      cases rest.head? with
      | none => exact .fail _
      | some name => exact .ite (.after fun _ => .pure (by simp [Formed])) (.fail _)
    | lBracket => exact .after fun _ => .pure (by simp)
    | _ => exact .fail _

theorem gives_questionMark : Gives questionMark AllShaped := by
  refine .after fun s => ?_
  cases s.rest with
  | nil => exact .pure (by simp)
  | cons token rest => exact .ite (.after fun _ => .pure (by simp [Formed])) (.pure (by simp))

theorem formed_of_isModifier {kind : NodeKind} (h : kind.isModifier) : Formed kind [] := by
  cases kind <;> trivial

/-- A word before a declaration or member, as a node. -/
def IsModifier (node : Node) : Prop :=
  ∃ kind text span, kind.isModifier ∧ node = Node.leaf kind text span

theorem isModifier_of_mem_leadingModifiers
    {step : Bool → Token → List Token → ModifierStep}
    (hstep : ∀ kept token rest kind, step kept token rest = .keep kind → kind.isModifier)
    (kept : Bool) (tokens : List Token) :
    ∀ node ∈ (leadingModifiers step kept tokens).1, IsModifier node := by
  induction tokens generalizing kept with
  | nil => simp [leadingModifiers]
  | cons token rest ih =>
    unfold leadingModifiers
    cases h : step kept token rest with
    | keep kind =>
      rw [List.forall_mem_cons]
      exact ⟨⟨kind, _, _, hstep _ _ _ _ h, rfl⟩, ih true⟩
    | pass => exact ih kept
    | stop => simp

theorem isModifier_modifiers {step : Bool → Token → List Token → ModifierStep}
    (hstep : ∀ kept token rest kind, step kept token rest = .keep kind → kind.isModifier) :
    Gives (modifiers step) fun nodes => ∀ node ∈ nodes, IsModifier node :=
  .after fun s => .after fun _ => .pure (isModifier_of_mem_leadingModifiers hstep false s.rest)

theorem gives_modifiers {step : Bool → Token → List Token → ModifierStep}
    (hstep : ∀ kept token rest kind, step kept token rest = .keep kind → kind.isModifier) :
    Gives (modifiers step) AllShaped := by
  refine (isModifier_modifiers hstep).mono fun nodes h node hnode => ?_
  obtain ⟨kind, text, span, hkind, rfl⟩ := h node hnode
  exact shaped_leaf.mpr (formed_of_isModifier hkind)

theorem worded_modifiers {step : Bool → Token → List Token → ModifierStep}
    (hstep : ∀ kept token rest kind, step kept token rest = .keep kind → kind.isModifier) :
    Gives (modifiers step) Worded := by
  refine (isModifier_modifiers hstep).mono fun nodes h => worded_of_kind_ne fun node hnode => ?_
  obtain ⟨kind, text, span, hkind, rfl⟩ := h node hnode
  rintro rfl
  exact Bool.false_ne_true hkind

theorem isModifier_of_parameterModifier (kept : Bool) (token : Token) (rest : List Token)
    (kind : NodeKind) (h : parameterModifier kept token rest = .keep kind) : kind.isModifier := by
  unfold parameterModifier at h
  grind [NodeKind.isModifier_of_modifier?]

theorem isModifier_of_classModifier (kept : Bool) (token : Token) (rest : List Token)
    (kind : NodeKind) (h : classModifier kept token rest = .keep kind) : kind.isModifier := by
  unfold classModifier at h
  grind [NodeKind.isModifier_of_modifier?]

theorem isModifier_of_statementModifier (kept : Bool) (token : Token) (rest : List Token)
    (kind : NodeKind) (h : statementModifier kept token rest = .keep kind) :
    kind.isModifier := by
  unfold statementModifier at h
  grind [NodeKind.isModifier]

section

variable {type : Parser Node} [Forward type]

theorem IsType.allShaped {nodes : List Node} (h : ∀ node ∈ nodes, node.IsType) :
    AllShaped nodes :=
  fun node hnode => (h node hnode).shaped

theorem gives_typeParameter (h : Gives type IsType) : Gives (typeParameter type) Shaped := by
  refine .after fun first => .after fun _ => .after fun s => ?_
  refine .when fun _ => .bind (gives_identifier _) fun name hname => ?_
  refine .bind (.optional h) fun bound hbound => .bind (.optional h) fun preset hpreset => ?_
  refine .after fun last => .pure ?_
  simp [Formed, hname.shaped, IsType.allShaped hbound, IsType.allShaped hpreset]

theorem gives_typeParametersIfAny (h : Gives type IsType) :
    Gives (typeParametersIfAny type) AllShaped :=
  .after fun _ => .ite (.after fun _ => .commaList (gives_typeParameter h)) (.pure (by simp))

theorem gives_binding : Gives binding AllShaped := by
  refine .after fun s => ?_
  cases s.rest with
  | nil => exact .fail _
  | cons token rest =>
    dsimp only
    cases token.kind with
    | word =>
      exact .bind (gives_identifier _) fun _ hname => .pure (by simpa using hname.shaped)
    | lBrace => exact .after fun _ => .pure (by simp)
    | lBracket => exact .after fun _ => .pure (by simp)
    | _ => exact .fail _

theorem gives_parameter (h : Gives type IsType) : Gives (parameter type) Shaped := by
  refine .after fun _ => .after fun first => ?_
  refine .bind (gives_modifiers isModifier_of_parameterModifier) fun words hwords => ?_
  refine .after fun _ => .bind gives_binding fun name hname => ?_
  refine .bind gives_questionMark fun question hquestion => ?_
  refine .bind (.optional h) fun typeNode htype => .after fun _ => .when fun _ => ?_
  refine .after fun last => .pure ?_
  simp [Formed, hwords, hname, hquestion, IsType.allShaped htype]

theorem gives_parameters (h : Gives type IsType) : Gives (parameters type) AllShaped :=
  .after fun _ => .commaList (gives_parameter h)

theorem gives_signature (h : Gives type IsType) (withBody : Bool) :
    Gives (signature type withBody) AllShaped := by
  refine .bind (gives_typeParametersIfAny h) fun generics hgenerics => ?_
  refine .bind (gives_parameters h) fun arguments harguments => ?_
  refine .after fun _ => .when fun _ => .when fun _ => .pure ?_
  simp [hgenerics, harguments]

theorem gives_indexSignature (h : Gives type IsType) :
    Gives (indexSignature type) AllShaped := by
  refine .after fun _ => .after fun first => .bind (gives_identifier _) fun name hname => ?_
  refine .after fun _ => .bind h fun keyType hkey => .after fun last => .after fun _ => ?_
  refine .bind gives_questionMark fun question hquestion => .after fun _ => ?_
  refine .bind h fun value hvalue => .pure ?_
  simp [Formed, hname.shaped, hkey.shaped, hquestion, hvalue.shaped]

theorem gives_readonlyMark : Gives readonlyMark AllShaped := by
  refine .after fun s => ?_
  cases s.rest with
  | nil => exact .pure (by simp)
  | cons token rest => exact .ite (.after fun _ => .pure (by simp [Formed])) (.pure (by simp))

theorem gives_typeMember (h : Gives type IsType) : Gives (typeMember type) Shaped := by
  refine .after fun first => .after fun tags => .bind gives_readonlyMark fun words hwords => ?_
  refine .after fun s => .ite ?_ (.ite ?_ (.ite ?_ ?_))
  · refine .after fun _ => .bind gives_memberName fun name hname => ?_
    refine .bind (gives_signature h false) fun parts hparts => .after fun last => .pure ?_
    simp [Formed, hname, hparts]
  · refine .bind (gives_indexSignature h) fun parts hparts => .after fun last => .pure ?_
    simp [Node.inner, Formed, hwords, hparts]
  · refine .after fun _ => .bind (gives_signature h false) fun parts hparts => ?_
    exact .after fun last => .pure (by simp [Formed, hparts])
  · refine .bind gives_memberName fun name hname => ?_
    refine .bind gives_questionMark fun question hquestion => .after fun t => .ite ?_ ?_
    · refine .bind (gives_signature h false) fun parts hparts => .after fun last => .pure ?_
      simp [Formed, hwords, hname, hquestion, hparts]
    · refine .bind (.optional h) fun typeNode htype => .after fun last => .pure ?_
      simp [Node.inner, Formed, hwords, hname, hquestion, IsType.allShaped htype]

theorem gives_typeMembers (h : Gives type IsType) : Gives (typeMembers type) AllShaped :=
  .members (.bind (gives_typeMember h) fun _ hnode => .pure (by simpa using hnode))

theorem gives_classMember (h : Gives type IsType) :
    Gives (classMember type) fun node? => ∀ node ∈ node?, node.Shaped := by
  refine .after fun before => .after fun _ => .after fun behind => .after fun s => .ite ?_ ?_
  · exact .after fun _ => .after fun _ => .pure (by simp)
  refine .bind (gives_modifiers isModifier_of_classModifier) fun words hwords => ?_
  refine .after fun s => .ite ?_ (.ite ?_ ?_)
  · refine .after fun _ => .bind (gives_parameters h) fun parts hparts => ?_
    refine .after fun _ => .after fun last => .pure ?_
    simp [Node.inner, Formed, hwords, hparts]
  · refine .after fun _ => .bind gives_memberName fun name hname => ?_
    refine .bind (gives_signature h true) fun parts hparts => .after fun last => .pure ?_
    simp [Node.inner, Formed, hwords, hname, hparts]
  refine .after fun _ => .after fun s => .ite ?_ ?_
  · refine .bind (gives_indexSignature h) fun parts hparts => ?_
    refine .after fun _ => .after fun last => .pure ?_
    simp [Node.inner, Formed, hwords, hparts]
  refine .bind gives_memberName fun name hname => .bind gives_questionMark fun question hq => ?_
  refine .after fun _ => .after fun s => .ite ?_ ?_
  · refine .bind (gives_signature h true) fun parts hparts => .after fun last => .pure ?_
    simp [Node.inner, Formed, hwords, hname, hq, hparts]
  refine .bind (.optional h) fun typeNode htype => .after fun _ => .when fun _ => ?_
  refine .after fun _ => .after fun last => .pure ?_
  simp [Node.inner, Formed, hwords, hname, hq, IsType.allShaped htype]

theorem gives_classMembers (h : Gives type IsType) : Gives (classMembers type) AllShaped :=
  .members (gives_classMember h)

theorem isType_literalType {literal : Node} (h : literal.kind.isLiteral)
    (hshaped : literal.Shaped) : (literalType literal).IsType :=
  ⟨rfl, by simp [literalType, Formed, h, hshaped]⟩

theorem isType_combine {kind : NodeKind} (hkind : kind.isType)
    (hformed : ∀ child rest, child.kind.isType → Formed kind (child :: rest)) {start stop : Nat}
    {nodes : List Node} (hnodes : nodes ≠ [] ∧ ∀ node ∈ nodes, node.IsType) :
    (combine kind start stop nodes).IsType := by
  obtain ⟨hne, hall⟩ := hnodes
  unfold combine
  split
  · next node => exact hall node (by simp)
  · refine ⟨hkind, shaped_inner.mpr ⟨?_, IsType.allShaped hall⟩⟩
    cases nodes with
    | nil => exact absurd rfl hne
    | cons child rest => exact hformed child rest (hall child (by simp)).isType

theorem gives_operands {operator : TokenKind} {kind : NodeKind} {operand : Parser Node}
    [Forward operand] (hkind : kind.isType)
    (hformed : ∀ child rest, child.kind.isType → Formed kind (child :: rest))
    (h : Gives operand IsType) : Gives (operands operator kind operand) IsType :=
  .after fun _ => .after fun _ => .bind (.separated h) fun _ hnodes => .after fun _ =>
    .pure (isType_combine hkind hformed hnodes)

theorem gives_typeArguments (h : Gives type IsType) :
    Gives (typeArguments type) fun nodes => ∀ node ∈ nodes, node.IsType :=
  .after fun _ => .bind (.separated h) fun _ hnodes => .after fun _ => .pure hnodes.2

theorem gives_functionType (h : Gives type IsType) : Gives (functionType type) IsType := by
  refine .after fun first => .bind (gives_typeParametersIfAny h) fun generics hgenerics => ?_
  refine .bind (gives_parameters h) fun arguments harguments => .after fun _ => ?_
  refine .bind h fun returned hreturned => .after fun last => .pure ⟨rfl, ?_⟩
  simp [Formed, hgenerics, harguments, hreturned.shaped]

theorem gives_tupleElement (h : Gives type IsType) : Gives (tupleElement type) IsType := by
  refine .after fun first => .after fun spread => .after fun s => .after fun _ => ?_
  refine .bind h fun element helement => .after fun _ => .ite ?_ (.pure helement)
  exact .after fun last => .pure ⟨rfl, by simp [Formed, helement.shaped]⟩

theorem gives_tupleType (h : Gives type IsType) : Gives (tupleType type) IsType := by
  refine .after fun first => .after fun _ => ?_
  refine .bind (.commaList (gives_tupleElement h)) fun elements helements => ?_
  exact .after fun last => .pure ⟨rfl, by simp [Formed, IsType.allShaped helements]⟩

theorem gives_parenthesizedType (h : Gives type IsType) :
    Gives (parenthesizedType type) IsType := by
  refine .after fun first => .after fun _ => .bind h fun inside hinside => .after fun _ => ?_
  exact .after fun last => .pure ⟨rfl, by simp [Formed, hinside.isType, hinside.shaped]⟩

theorem gives_objectType (h : Gives type IsType) : Gives (objectType type) IsType := by
  refine .after fun first => .after fun _ => ?_
  refine .bind (gives_typeMembers h).nested fun inside hinside => .after fun _ => ?_
  exact .after fun last => .pure ⟨rfl, by simp [Formed, hinside]⟩

/-- What is called by a name, with type arguments or without. -/
theorem isType_named {kind : NodeKind} (hkind : kind = .typeReference ∨ kind = .typeQuery)
    {start stop : Nat} {name : Node} (hname : Name name) {arguments : List Node}
    (harguments : ∀ argument ∈ arguments, argument.IsType) :
    (Node.inner kind start stop (name :: arguments)).IsType := by
  obtain ⟨⟨words, hwords⟩, hshaped⟩ := hname
  have hformed : ∃ name' arguments' words, name :: arguments = name' :: arguments' ∧
      name'.NamedBy words ∧ ∀ argument ∈ arguments', argument.kind.isType :=
    ⟨name, arguments, words, rfl, hwords, fun a ha => (harguments a ha).isType⟩
  have hall : AllShaped (name :: arguments) := by
    simp [hshaped, IsType.allShaped harguments]
  rcases hkind with rfl | rfl
  · exact ⟨rfl, shaped_inner.mpr ⟨hformed, hall⟩⟩
  · exact ⟨rfl, shaped_inner.mpr ⟨hformed, hall⟩⟩

theorem gives_typeQuery (h : Gives type IsType) : Gives (typeQuery type) IsType := by
  refine .after fun first => .after fun _ => .after fun s => ?_
  refine .ite (.bind gives_entityName fun name hname => .after fun t => ?_) (.fail _)
  refine .either (gives_typeArguments h) (.pure (by simp)) fun arguments harguments => ?_
  exact .after fun last => .pure (isType_named (.inr rfl) hname harguments)

theorem gives_typeReference (h : Gives type IsType) : Gives (typeReference type) IsType := by
  refine .after fun first => .bind gives_entityName fun name hname => .after fun s => ?_
  refine .either (gives_typeArguments h) (.pure (by simp)) fun arguments harguments => ?_
  exact .after fun last => .pure (isType_named (.inl rfl) hname harguments)

theorem isType_of_keywordType? {word : String} {kind : NodeKind}
    (h : NodeKind.keywordType? word = some kind) (token : Token) :
    (tokenLeaf kind token).IsType := by
  refine ⟨NodeKind.isType_of_keywordType? h, shaped_tokenLeaf.mpr ?_⟩
  unfold NodeKind.keywordType? at h
  split at h <;> cases h <;> trivial

theorem gives_wordType (h : Gives type IsType) (token : Token) :
    Gives (wordType type token) IsType := by
  refine .after fun s => .ite (gives_typeQuery h) (.ite ?_ (.ite ?_ (.ite ?_ (.ite ?_ ?_))))
  · exact .after fun _ => .pure (isType_literalType rfl (by simp [Formed]))
  · exact .after fun _ => .pure (isType_literalType rfl (by simp [Formed]))
  · exact .after fun _ => gives_functionType h
  · exact .fail _
  · split
    · exact gives_typeReference h
    · next kind hkind =>
      exact .ite (gives_typeReference h)
        (.after fun _ => .pure (isType_of_keywordType? hkind token))

theorem gives_negativeType (sign : Token) : Gives (negativeType sign) IsType :=
  .after fun _ => .after fun _ => .pure (isType_literalType rfl (by simp [Formed]))

theorem gives_primaryType (h : Gives type IsType) : Gives (primaryType type) IsType := by
  refine .after fun s => ?_
  cases s.rest with
  | nil => exact .fail _
  | cons token rest =>
    dsimp only
    cases token.kind with
    | lParen => exact .ite (gives_functionType h) (gives_parenthesizedType h)
    | lt => exact gives_functionType h
    | lBrace => exact gives_objectType h
    | lBracket => exact gives_tupleType h
    | string => exact .after fun _ => .pure (isType_literalType rfl (by simp))
    | number => exact .after fun _ => .pure (isType_literalType rfl (by simp [Formed]))
    | minus => exact .ite (gives_negativeType token) (.fail _)
    | template => exact .fail _
    | word => exact gives_wordType h token
    | _ => exact .fail _

theorem gives_suffix (h : Gives type IsType) (start : Nat) {target : Node}
    (htarget : target.IsType) : Gives (suffix type start target) IsType := by
  refine .after fun _ => .after fun _ => .ite ?_ ?_
  · exact .after fun last =>
      .pure ⟨rfl, by simp [Formed, htarget.isType, htarget.shaped]⟩
  · refine .bind h fun index hindex => .after fun _ => .after fun last => .pure ⟨rfl, ?_⟩
    simp [Formed, htarget.shaped, hindex.shaped]

theorem gives_suffixesUpTo (h : Gives type IsType) (start count : Nat) {target : Node}
    (htarget : target.IsType) :
    Gives (suffixesUpTo type start count target) IsType := by
  induction count generalizing target with
  | zero => exact .pure htarget
  | succ count ih =>
    exact .after fun s => .ite (.bind (gives_suffix h start htarget) fun _ hlonger => ih hlonger)
      (.pure htarget)

theorem gives_unionType (h : Gives type IsType) : Gives (unionType type) IsType := by
  have hpostfix : Gives (postfixType type) IsType :=
    .after fun _ => .after fun _ => .after fun s => .bind (gives_primaryType h) fun _ htarget =>
      gives_suffixesUpTo h _ _ htarget
  have hintersection : Gives (intersectionType type) IsType :=
    gives_operands rfl (fun _ _ _ => trivial) hpostfix
  exact gives_operands rfl (fun child _ hchild => ⟨child, by simp, hchild⟩) hintersection

end

theorem gives_typeWithin (levels : Nat) : Gives (typeWithin levels) IsType := by
  induction levels with
  | zero => exact .refuse
  | succ levels ih => exact (gives_unionType ih).nested

theorem gives_type : Gives type IsType :=
  gives_typeWithin maxDepth

theorem gives_heritageClause : Gives heritageClause Shaped := by
  refine .after fun s => ?_
  cases s.rest with
  | nil => exact .fail _
  | cons keyword rest =>
    refine .after fun _ => .bind (.separated gives_type) fun types htypes => .after fun last => ?_
    exact .pure (by simp [Node.inner, Formed, IsType.allShaped htypes.2])

theorem gives_braced {inside : Parser (List Node)} [Forward inside] {P : List Node → Prop}
    (h : Gives inside P) : Gives (braced inside) P :=
  .after fun _ => .bind h fun _ hnodes => .after fun _ => .pure hnodes

theorem gives_interfaceParts : Gives interfaceParts AllShaped := by
  refine .bind (gives_identifier _) fun name hname => ?_
  refine .bind (gives_typeParametersIfAny gives_type) fun generics hgenerics => ?_
  refine .bind (.repeatWhile gives_heritageClause) fun clauses hclauses => ?_
  refine .bind (gives_braced (gives_typeMembers gives_type)) fun inside hinside => .pure ?_
  have hclauses : AllShaped clauses := hclauses
  simp [hname.shaped, hgenerics, hclauses, hinside]

theorem gives_className : Gives className AllShaped :=
  .after fun _ => .ite
    (.bind (gives_identifier _) fun _ hname => .pure (by simpa using hname.shaped))
    (.pure (by simp))

theorem gives_classParts : Gives classParts AllShaped := by
  refine .bind gives_className fun name hname => ?_
  refine .bind (gives_typeParametersIfAny gives_type) fun generics hgenerics => ?_
  refine .bind (.repeatWhile gives_heritageClause) fun clauses hclauses => ?_
  refine .bind (gives_braced (gives_classMembers gives_type)) fun inside hinside => .pure ?_
  have hclauses : AllShaped clauses := hclauses
  simp [hname, hgenerics, hclauses, hinside]

theorem gives_typeAliasParts : Gives typeAliasParts AllShaped := by
  refine .bind (gives_identifier _) fun name hname => ?_
  refine .bind (gives_typeParametersIfAny gives_type) fun generics hgenerics => ?_
  refine .after fun _ => .bind gives_type fun meaning hmeaning => .after fun _ => .pure ?_
  simp [hname.shaped, hgenerics, hmeaning.shaped]

theorem gives_enumParts : Gives enumParts AllShaped :=
  .bind (gives_identifier _) fun _ hname => .after fun _ => .ite
    (.after fun _ => .pure (by simpa using hname.shaped)) (.fail _)

theorem gives_moduleName : Gives moduleName Shaped := by
  have hname : Gives entityName Shaped := gives_entityName.mono fun _ h => h.2
  refine .after fun s => ?_
  cases s.rest with
  | nil => exact hname
  | cons token rest => exact .ite (.after fun _ => .pure (by simp)) hname

theorem Segment.spelled {node : Node} (h : Segment node) :
    ∃ word, Pattern.isWord word.toList ∧ node.text = some word := by
  obtain ⟨word, hspelled, -, htext, -⟩ := h
  exact ⟨word, hspelled, htext⟩

theorem not_identifier_typeParameter {type : Parser Node} [Forward type] :
    Gives (typeParameter type) (·.kind ≠ .identifier) := by
  refine .after fun first => .after fun _ => .after fun s => .when fun _ => ?_
  exact .after fun name => .after fun bound => .after fun preset => .after fun last => .pure nofun

theorem worded_typeParametersIfAny {type : Parser Node} [Forward type] :
    Gives (typeParametersIfAny type) Worded :=
  .after fun _ => .ite
    (.after fun _ => (Gives.commaList not_identifier_typeParameter).mono fun _ => worded_of_kind_ne)
    (.pure worded_nil)

theorem not_identifier_heritageClause : Gives heritageClause (·.kind ≠ .identifier) := by
  refine .after fun s => ?_
  cases s.rest with
  | nil => exact .fail _
  | cons keyword rest =>
    exact .after fun _ => .after fun types => .after fun last => .pure nofun

theorem not_identifier_typeMember {type : Parser Node} [Forward type] :
    Gives (typeMember type) (·.kind ≠ .identifier) := by
  refine .after fun first => .after fun tags => .after fun words => .after fun s =>
    .ite ?_ (.ite ?_ (.ite ?_ ?_))
  · exact .after fun _ => .after fun name => .after fun parts => .after fun last => .pure nofun
  · exact .after fun parts => .after fun last => .pure nofun
  · exact .after fun _ => .after fun parts => .after fun last => .pure nofun
  · refine .after fun name => .after fun question => .after fun t => .ite ?_ ?_
    · exact .after fun parts => .after fun last => .pure nofun
    · exact .after fun typeNode => .after fun last => .pure nofun

theorem worded_typeMembers {type : Parser Node} [Forward type] :
    Gives (typeMembers type) Worded :=
  (Gives.members (.bind not_identifier_typeMember fun _ hnode =>
    .pure (by simpa using hnode))).mono fun _ => worded_of_kind_ne

theorem not_identifier_classMember {type : Parser Node} [Forward type] :
    Gives (classMember type) fun node? => ∀ node ∈ node?, node.kind ≠ .identifier := by
  refine .after fun before => .after fun _ => .after fun behind => .after fun s => .ite ?_ ?_
  · exact .after fun _ => .after fun _ => .pure (by simp)
  refine .after fun words => .after fun s => .ite ?_ (.ite ?_ ?_)
  · exact .after fun _ => .after fun parts => .after fun _ => .after fun last =>
      .pure (by simp [Node.inner])
  · exact .after fun _ => .after fun name => .after fun parts => .after fun last =>
      .pure (by simp [Node.inner])
  refine .after fun _ => .after fun s => .ite ?_ ?_
  · exact .after fun parts => .after fun _ => .after fun last => .pure (by simp [Node.inner])
  refine .after fun name => .after fun question => .after fun _ => .after fun s => .ite ?_ ?_
  · exact .after fun parts => .after fun last => .pure (by simp [Node.inner])
  refine .after fun typeNode => .after fun _ => .when fun _ => ?_
  exact .after fun _ => .after fun last => .pure (by simp [Node.inner])

theorem worded_classMembers {type : Parser Node} [Forward type] :
    Gives (classMembers type) Worded :=
  (Gives.members not_identifier_classMember).mono fun _ => worded_of_kind_ne

theorem worded_heritageClauses {continues : State → Bool} :
    Gives (repeatWhile continues heritageClause) Worded :=
  (Gives.repeatWhile not_identifier_heritageClause).mono fun _ => worded_of_kind_ne

/-- The name is the only identifier among the parts of an interface. -/
theorem worded_interfaceParts : Gives interfaceParts Worded := by
  refine .bind (gives_identifier _) fun name hname => ?_
  refine .bind worded_typeParametersIfAny fun generics hgenerics => ?_
  refine .bind worded_heritageClauses fun clauses hclauses => ?_
  refine .bind (gives_braced worded_typeMembers) fun inside hinside => .pure ?_
  simp [hname.spelled, hgenerics, hclauses, hinside]

theorem worded_className : Gives className Worded :=
  .after fun _ => .ite (.bind (gives_identifier _) fun _ hname => .pure (by simp [hname.spelled]))
    (.pure worded_nil)

theorem worded_classParts : Gives classParts Worded := by
  refine .bind worded_className fun name hname => ?_
  refine .bind worded_typeParametersIfAny fun generics hgenerics => ?_
  refine .bind worded_heritageClauses fun clauses hclauses => ?_
  refine .bind (gives_braced worded_classMembers) fun inside hinside => .pure ?_
  simp [hname, hgenerics, hclauses, hinside]

/-- A declaration is formed as its kind asks for, behind any modifiers. -/
theorem formed_parts (block : Parser (List Node)) (heading : Heading) :
    Gives (heading.parts block) fun parts =>
      ∀ words, Worded words → Formed heading.kind (words ++ parts) := by
  cases heading with
  | ofInterface =>
    exact worded_interfaceParts.mono fun _ hparts _ hwords => worded_append.mpr ⟨hwords, hparts⟩
  | ofClass =>
    exact worded_classParts.mono fun _ hparts _ hwords => worded_append.mpr ⟨hwords, hparts⟩
  | ofTypeAlias | ofEnum | ofModule => exact fun _ _ _ _ _ _ _ => trivial

section

variable {block : Parser (List Node)} [Forward block]

theorem gives_moduleParts (h : Gives block AllShaped) : Gives (moduleParts block) AllShaped := by
  refine .bind gives_moduleName fun name hname => .after fun s => .ite ?_ ?_
  · refine .bind (gives_braced h) fun statements hstatements => .after fun last => .pure ?_
    simp [Formed, hname, hstatements]
  · exact .after fun _ => .pure (by simpa using hname)

theorem gives_parts (h : Gives block AllShaped) (heading : Heading) :
    Gives (heading.parts block) AllShaped := by
  cases heading with
  | ofInterface => exact gives_interfaceParts
  | ofClass => exact gives_classParts
  | ofTypeAlias => exact gives_typeAliasParts
  | ofEnum => exact gives_enumParts
  | ofModule => exact gives_moduleParts h

theorem gives_declaration (h : Gives block AllShaped) (first : State) (tags : List DocTag)
    {words : List Node} (hwords : AllShaped words ∧ Worded words) (heading : Heading) :
    Gives (declaration block first tags words heading) fun node? =>
      ∀ node ∈ node?, node.Shaped := by
  refine .bind ((gives_parts h heading).and (formed_parts block heading)) fun parts hparts => ?_
  refine .after fun last => .after fun _ => .pure fun node hnode => ?_
  cases hnode
  simp [Heading.node, Node.inner, hparts.2 words hwords.2, hwords.1, hparts.1]

theorem gives_statement (h : Gives block AllShaped) :
    Gives (statement block) fun node? => ∀ node ∈ node?, node.Shaped := by
  refine .after fun first => .after fun before => .after fun _ => .after fun behind => ?_
  refine .bind ((gives_modifiers isModifier_of_statementModifier).and
    (worded_modifiers isModifier_of_statementModifier)) fun words hwords => .after fun s => ?_
  cases s.heading? with
  | none => exact .after fun _ => .pure (by simp)
  | some announced => exact .after fun _ => gives_declaration h _ _ hwords _

theorem gives_statements (h : Gives block AllShaped) : Gives (statements block) AllShaped :=
  .members (gives_statement h)

end

theorem gives_blockWithin (levels : Nat) : Gives (blockWithin levels) AllShaped := by
  induction levels with
  | zero => exact .refuse
  | succ levels ih => exact (gives_statements ih).nested

theorem gives_runsUpTo (count : Nat) : Gives (runsUpTo count) AllShaped := by
  induction count with
  | zero => exact .pure (by simp)
  | succ count ih =>
    refine .bind (gives_statements (gives_blockWithin maxDepth)) fun nodes hnodes => ?_
    refine .after fun s => .ite ?_ (.pure hnodes)
    refine .after fun _ => .after fun _ => .bind ih fun others hothers => .pure ?_
    simp [hnodes, hothers]

end Parser

/-- Whatever a source holds, the nodes of its tree have the children that their kinds ask
for. -/
theorem Parse.shaped (source : String) : (Parse.ofSource source).root.Shaped := by
  have hsource : (Parser.State.ofSource source).Spelled := TokenStream.spelled_ofSource source
  rcases h : Parser.sourceFile (Parser.State.ofSource source) with ⟨error | nodes, t⟩
  · simp [Parse.ofSource, h, Node.Formed, Except.toOption]
  · have hnodes : Node.AllShaped nodes := Parser.gives_runsUpTo _ _ hsource _ _ h
    simpa [Parse.ofSource, h, Node.Formed, Except.toOption] using hnodes

theorem Parse.shaped_of_mem {source : String} {node : Node}
    (h : node ∈ (Parse.ofSource source).root.descendants) : node.Shaped := by
  rw [Node.descendants_eq] at h
  exact Node.shaped_of_mem_preorder _ (Parse.shaped source) node h

end DeclSchema
