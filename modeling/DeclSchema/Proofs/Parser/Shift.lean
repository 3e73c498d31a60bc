import DeclSchema.Parser.Declaration

/-!
# Moving a source along

Everything that carries a span can be moved along by an offset. What is measured of a
list of tokens depends on kinds, words and lines only, and so does not change when the
tokens are moved.
-/

namespace DeclSchema

/-- What has a place in a source, and can be moved to a later one. -/
class Shift (α : Type) where
  shift : Nat → α → α

export Shift (shift)

instance : Shift Unit := ⟨fun _ => id⟩

instance : Shift Bool := ⟨fun _ => id⟩

instance : Shift DocTag := ⟨fun _ => id⟩

instance {α : Type} [Shift α] : Shift (List α) := ⟨fun offset => List.map (shift offset)⟩

instance {α : Type} [Shift α] : Shift (Option α) := ⟨fun offset => Option.map (shift offset)⟩

instance {ε α : Type} [Shift ε] [Shift α] : Shift (Except ε α) where
  shift offset
    | .ok a => .ok (shift offset a)
    | .error error => .error (shift offset error)

instance : Shift Span := ⟨fun offset span => ⟨span.start + offset, span.stop + offset⟩⟩

instance : Shift Lexeme := ⟨fun offset lexeme => { lexeme with span := shift offset lexeme.span }⟩

instance : Shift Token := ⟨fun offset token => { token with toLexeme := shift offset token.toLexeme }⟩

instance : Shift ParseError := ⟨fun offset error => { error with span := shift offset error.span }⟩

namespace Node

/-- A node with all the nodes below it, moved along. -/
def moved (offset : Nat) : Node → Node
  | ⟨kind, text, tags, span, children⟩ =>
    ⟨kind, text, tags, shift offset span, movedList offset children⟩
where
  /-- Several nodes moved along. -/
  movedList (offset : Nat) : List Node → List Node
    | [] => []
    | node :: rest => moved offset node :: movedList offset rest

theorem movedList_eq (offset : Nat) (nodes : List Node) :
    moved.movedList offset nodes = nodes.map (moved offset) := by
  induction nodes with
  | nil => rfl
  | cons node rest ih => rw [moved.movedList, ih, List.map_cons]

end Node

instance : Shift Node := ⟨Node.moved⟩

section

variable (offset : Nat)

@[simp] theorem shift_unit (u : Unit) : shift offset u = u := rfl

@[simp] theorem shift_bool (b : Bool) : shift offset b = b := rfl

@[simp] theorem shift_tags (tags : List DocTag) : shift offset tags = tags :=
  List.map_id tags

@[simp] theorem shift_nil {α : Type} [Shift α] : shift offset ([] : List α) = [] := rfl

@[simp] theorem shift_cons {α : Type} [Shift α] (a : α) (as : List α) :
    shift offset (a :: as) = shift offset a :: shift offset as := rfl

@[simp] theorem shift_append {α : Type} [Shift α] (as bs : List α) :
    shift offset (as ++ bs) = shift offset as ++ shift offset bs :=
  List.map_append

@[simp] theorem length_shift {α : Type} [Shift α] (as : List α) :
    (shift offset as).length = as.length :=
  List.length_map _

@[simp] theorem shift_none {α : Type} [Shift α] : shift offset (none : Option α) = none := rfl

@[simp] theorem shift_some {α : Type} [Shift α] (a : α) :
    shift offset (some a) = some (shift offset a) := rfl

@[simp] theorem shift_ok {α : Type} [Shift α] (a : α) :
    shift offset (.ok a : Except ParseError α) = .ok (shift offset a) := rfl

@[simp] theorem shift_error {α : Type} [Shift α] (error : ParseError) :
    shift offset (.error error : Except ParseError α) = .error (shift offset error) := rfl

@[simp] theorem start_shift (span : Span) : (shift offset span).start = span.start + offset := rfl

@[simp] theorem stop_shift (span : Span) : (shift offset span).stop = span.stop + offset := rfl

theorem ofBounds_add (start stop : Nat) :
    Span.ofBounds (start + offset) (stop + offset) = shift offset (Span.ofBounds start stop) :=
  Span.mk.injEq .. ▸ ⟨rfl, Nat.add_max_add_right stop start offset⟩

@[simp] theorem kind_shift (token : Token) : (shift offset token).kind = token.kind := rfl

@[simp] theorem text_shift (token : Token) : (shift offset token).text = token.text := rfl

@[simp] theorem span_shift (token : Token) :
    (shift offset token).span = shift offset token.span := rfl

@[simp] theorem newlineBefore_shift (token : Token) :
    (shift offset token).newlineBefore = token.newlineBefore := rfl

@[simp] theorem word?_shift (token : Token) : (shift offset token).word? = token.word? := rfl

@[simp] theorem span_shift_error (error : ParseError) :
    (shift offset error).span = shift offset error.span := rfl

theorem shift_mk (kind : NodeKind) (text : Option String) (tags : List DocTag) (span : Span)
    (children : List Node) :
    shift offset (⟨kind, text, tags, span, children⟩ : Node) =
      ⟨kind, text, tags, shift offset span, shift offset children⟩ := by
  show Node.moved offset _ = _
  rw [Node.moved, Node.movedList_eq]
  rfl

@[simp] theorem kind_shift_node (node : Node) : (shift offset node).kind = node.kind := by
  obtain ⟨kind, text, tags, span, children⟩ := node
  rw [shift_mk]

@[simp] theorem text_shift_node (node : Node) : (shift offset node).text = node.text := by
  obtain ⟨kind, text, tags, span, children⟩ := node
  rw [shift_mk]

@[simp] theorem tags_shift_node (node : Node) : (shift offset node).tags = node.tags := by
  obtain ⟨kind, text, tags, span, children⟩ := node
  rw [shift_mk]

@[simp] theorem span_shift_node (node : Node) :
    (shift offset node).span = shift offset node.span := by
  obtain ⟨kind, text, tags, span, children⟩ := node
  rw [shift_mk]

@[simp] theorem children_shift_node (node : Node) :
    (shift offset node).children = shift offset node.children := by
  obtain ⟨kind, text, tags, span, children⟩ := node
  rw [shift_mk]

@[simp] theorem shift_leaf (kind : NodeKind) (text : String) (span : Span) :
    shift offset (Node.leaf kind text span) = Node.leaf kind text (shift offset span) :=
  shift_mk ..

@[simp] theorem shift_mark (kind : NodeKind) (span : Span) :
    shift offset (Node.mark kind span) = Node.mark kind (shift offset span) :=
  shift_mk ..

@[simp] theorem shift_inner (kind : NodeKind) (start stop : Nat) (children : List Node) :
    shift offset (Node.inner kind start stop children) =
      Node.inner kind (start + offset) (stop + offset) (shift offset children) := by
  rw [Node.inner, shift_mk, Node.inner, ofBounds_add]

end

theorem shift_zero_list {α : Type} [Shift α] (h : ∀ a : α, shift 0 a = a) (as : List α) :
    shift 0 as = as :=
  (List.map_congr_left fun a _ => h a).trans (List.map_id _)

theorem shift_zero_tokens (tokens : List Token) : shift 0 tokens = tokens :=
  shift_zero_list (fun _ => rfl) tokens

theorem shift_zero_errors (errors : List ParseError) : shift 0 errors = errors :=
  shift_zero_list (fun _ => rfl) errors

theorem shift_zero_node (node : Node) : shift 0 node = node := by
  induction node using Node.moved.induct
    (fun nodes => Node.moved.movedList 0 nodes = nodes) with
  | case1 kind text tags span children ih =>
    show Node.moved 0 _ = _
    rw [Node.moved, ih]
    rfl
  | case2 => rfl
  | case3 node rest hnode hrest =>
    rw [Node.moved.movedList, hrest]
    exact congrArg (· :: rest) hnode

theorem shift_zero_nodes (nodes : List Node) : shift 0 nodes = nodes :=
  shift_zero_list shift_zero_node nodes

namespace Parser

section

variable (offset : Nat)

@[simp] theorem shift_tokenLeaf (kind : NodeKind) (token : Token) :
    shift offset (tokenLeaf kind token) = tokenLeaf kind (shift offset token) :=
  shift_leaf ..

@[simp] theorem shift_stringLeaf (token : Token) :
    shift offset (stringLeaf token) = stringLeaf (shift offset token) :=
  shift_leaf ..

@[simp] theorem shift_literalType (literal : Node) :
    shift offset (literalType literal) = literalType (shift offset literal) := by
  simp [literalType, shift_mk]

@[simp] theorem shift_combine (kind : NodeKind) (start stop : Nat) (nodes : List Node) :
    shift offset (combine kind start stop nodes) =
      combine kind (start + offset) (stop + offset) (shift offset nodes) := by
  match nodes with
  | [] => simp [combine]
  | [node] => simp [combine]
  | first :: second :: rest => simp [combine]

@[simp] theorem shift_qualified (start stop : Nat) (segments : List Node) :
    shift offset (qualified start stop segments) =
      qualified (start + offset) (stop + offset) (shift offset segments) := by
  have htexts : (shift offset segments).map (fun segment => segment.text.getD "") =
      segments.map fun segment => segment.text.getD "" :=
    List.map_map.trans (List.map_congr_left fun segment _ => by simp)
  simp only [qualified, Node.inner, shift_mk, ofBounds_add, htexts]

@[simp] theorem groupLength_shift (depth : Nat) (tokens : List Token) :
    groupLength depth (shift offset tokens) = groupLength depth tokens := by
  induction tokens generalizing depth with
  | nil => rfl
  | cons token rest ih => simp [groupLength, ih]

@[simp] theorem head?_shift_any (p : Token → Bool) (h : ∀ token, p (shift offset token) = p token)
    (tokens : List Token) : (shift offset tokens).head?.any p = tokens.head?.any p := by
  cases tokens <;> simp [h]

@[simp] theorem statementLength_shift (start : Bool) (depth : Nat) (tokens : List Token) :
    statementLength start depth (shift offset tokens) = statementLength start depth tokens := by
  induction tokens generalizing start depth with
  | nil => rfl
  | cons token rest ih => simp [statementLength, ih]

@[simp] theorem malformedLength_shift (depth : Nat) (tokens : List Token) :
    malformedLength depth (shift offset tokens) = malformedLength depth tokens := by
  induction tokens generalizing depth with
  | nil => rfl
  | cons token rest ih => simp [malformedLength, ih]

@[simp] theorem initializerLength_shift (ends : TokenKind → Bool) (start : Bool) (depth : Nat)
    (tokens : List Token) :
    initializerLength ends start depth (shift offset tokens) =
      initializerLength ends start depth tokens := by
  induction tokens generalizing start depth with
  | nil => rfl
  | cons token rest ih => simp [initializerLength, ih]

@[simp] theorem returnTypeLength_shift (withBody start : Bool) (depth : Nat)
    (tokens : List Token) :
    returnTypeLength withBody start depth (shift offset tokens) =
      returnTypeLength withBody start depth tokens := by
  induction tokens generalizing start depth with
  | nil => rfl
  | cons token rest ih => simp [returnTypeLength, ih]

@[simp] theorem drop_shift {α : Type} [Shift α] (count : Nat) (as : List α) :
    (shift offset as).drop count = shift offset (as.drop count) :=
  List.map_drop.symm

@[simp] theorem take_shift {α : Type} [Shift α] (count : Nat) (as : List α) :
    (shift offset as).take count = shift offset (as.take count) :=
  List.map_take.symm

@[simp] theorem dottedLength_shift (tokens : List Token) :
    dottedLength (shift offset tokens) = dottedLength tokens := by
  induction tokens using dottedLength.induct <;> simp_all [dottedLength]

@[simp] theorem decoratorLength_shift (tokens : List Token) :
    decoratorLength (shift offset tokens) = decoratorLength tokens := by
  cases tokens <;> simp [decoratorLength]

@[simp] theorem decoratorsLength_shift (tokens : List Token) :
    decoratorsLength (shift offset tokens) = decoratorsLength tokens := by
  have hupTo : ∀ count (tokens : List Token),
      decoratorsUpTo count (shift offset tokens) = decoratorsUpTo count tokens := by
    intro count
    induction count with
    | zero => intro tokens; rfl
    | succ count ih => intro tokens; simp [decoratorsUpTo, ih]
  rw [decoratorsLength, hupTo, length_shift, decoratorsLength]

@[simp] theorem readonlyLength_shift (tokens : List Token) :
    readonlyLength (shift offset tokens) = readonlyLength tokens := by
  induction tokens using readonlyLength.induct with
  | case1 token following rest hword ih => simp_all [readonlyLength]
  | case2 token following rest hword =>
    rw [shift_cons, shift_cons, readonlyLength, readonlyLength, if_neg hword]
    exact if_neg hword
  | case3 tokens hshort =>
    match tokens with
    | [] => rfl
    | [token] => rfl
    | token :: following :: rest => exact (hshort _ _ _ rfl).elim

@[simp] theorem closingParen?_shift (depth : Nat) (tokens : List Token) :
    closingParen? depth (shift offset tokens) = closingParen? depth tokens := by
  induction tokens generalizing depth with
  | nil => rfl
  | cons token rest ih => simp [closingParen?, ih]

@[simp] theorem startsFunctionType_shift (tokens : List Token) :
    startsFunctionType (shift offset tokens) = startsFunctionType tokens := by
  simp only [startsFunctionType, closingParen?_shift]
  cases closingParen? 0 tokens with
  | none => rfl
  | some close =>
    show ((tokens.map (shift offset))[close + 1]?).any _ = _
    rw [List.getElem?_map, Option.any_map]
    rfl

end

end Parser

end DeclSchema
