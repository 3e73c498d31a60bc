import DeclSchema.Proofs.Phrase.Reading

/-!
# The parsers of types on phrases
-/

namespace DeclSchema

open DeclSchema.Parser

namespace Phrase

variable {levels : Nat} {type : Parser Node} {s : State} {left : List Glyph}

section

variable {operator : TokenKind} {kind : NodeKind} {operand : Parser Node}

theorem combine_of_two_le {nodes : List Node} (h : 2 ≤ nodes.length) (start stop : Nat) :
    combine kind start stop nodes = Node.inner kind start stop nodes := by
  match nodes, h with
  | _ :: _ :: _, _ => rfl

/-- An operand that no operator follows is not wrapped. -/
theorem reads_operands_alone {depth : Nat} {Q : Node → Prop} (hstart : ¬ s.isAt operator)
    (hleft : ¬ left.head?.any (·.kind == operator)) (h : Reads levels depth operand s left Q) :
    Reads levels depth (operands operator kind operand) s left Q := by
  refine .look (.accept_not hstart ?_)
  have hlist : Reads levels depth (separated operator operand) s left
      fun nodes => ∃ node, nodes = [node] ∧ Q node := by
    refine h.andThen fun node count hnode hend => ?_
    have hstop : ¬ (s.advance count).isAt operator := by
      rw [State.isAt_eq, hend]
      exact hleft
    exact .stay (upTo_of_not hstop _) (.pure hend ⟨node, rfl, hnode⟩)
  refine hlist.andThen fun nodes count hnodes hend => .look (.pure hend ?_)
  obtain ⟨node, rfl, hnode⟩ := hnodes
  exact hnode

section

variable {category : Category} {first : Phrase (.one category)} {others : Phrase (.others category)}
  {ends : TokenKind → Bool} (hseparator : category.separatorGlyph.kind = operator)
  (hends : ends operator) (hfirst : first.ReadBy levels operand ends)
  (hothers : others.ListedBy levels operand operator ends)
  (h : s.glyphs = first.glyphs ++ (others.glyphs ++ left)) (hdepth : s.depth + levels = maxDepth)
  (hleft : left.head?.any (ends ·.kind)) (hstop : ¬ left.head?.any (·.kind == operator))

include hseparator hends hfirst hothers h hdepth hleft hstop

theorem reads_separated :
    Reads levels (max first.depth others.depth) (separated operator operand) s left
      fun nodes => nodes.map Node.withoutSpans = first.nodes ++ others.nodes := by
  refine (hfirst s _ h hdepth (head_others (hseparator ▸ hends) hleft)).bind
    fun node count hnode hmid => ?_
  have hcount : others.length ≤ (s.advance count).rest.length := by
    have hlength := others.length_le_length_glyphs
    rw [← State.length_glyphs, hmid, List.length_append]
    omega
  refine (hothers _ left _ hmid hdepth hleft hstop hcount).repeatWhile.andThen
    fun nodes _ hnodes hend => .pure hend ?_
  rw [List.map_cons, hnodes, ← hnode]
  rfl

end

/-- Operands with an operator between them are the children of one node. -/
theorem reads_operands {category : Category} {first second : Phrase (.one category)}
    {others : Phrase (.others category)} {ends : TokenKind → Bool}
    (hseparator : category.separatorGlyph.kind = operator) (hends : ends operator)
    (hfirst : first.ReadBy levels operand ends)
    (hothers : (more second others).ListedBy levels operand operator ends)
    (hstart : ¬ s.isAt operator)
    (h : s.glyphs = first.glyphs ++ ((more second others).glyphs ++ left))
    (hdepth : s.depth + levels = maxDepth) (hleft : left.head?.any (ends ·.kind))
    (hstop : ¬ left.head?.any (·.kind == operator)) :
    Reads levels (max first.depth (max second.depth others.depth)) (operands operator kind operand)
      s left fun node =>
        node.withoutSpans = .bare kind (first.nodes ++ second.nodes ++ others.nodes) := by
  refine .look (.accept_not hstart ?_)
  refine (reads_separated hseparator hends hfirst hothers h hdepth hleft hstop).andThen
    fun nodes _ hnodes hend => .look (.pure hend ?_)
  have hlength : 2 ≤ nodes.length := by
    obtain ⟨node, hnode⟩ := first.exists_node
    obtain ⟨node', hnode'⟩ := second.exists_node
    rw [← List.length_map (f := Node.withoutSpans), hnodes, Phrase.nodes, hnode, hnode',
      List.length_append, List.length_append, List.length_singleton, List.length_singleton]
    omega
  rw [combine_of_two_le hlength, Node.withoutSpans_inner, hnodes, Phrase.nodes, List.append_assoc]

end

section

theorem suffixesUpTo_of_not (h : ¬ s.atSuffix) (start count : Nat) (target : Node) :
    suffixesUpTo type start count target s = (.ok target, s) := by
  cases count with
  | zero => rfl
  | succ count =>
    show (if s.atSuffix then _ else pure target : Parser Node) s = _
    rw [if_neg h]
    rfl

theorem suffixesUpTo_of_atSuffix (h : s.atSuffix) (start count : Nat) (target : Node) :
    suffixesUpTo type start (count + 1) target s =
      (suffix type start target >>= suffixesUpTo type start count) s := by
  show (if s.atSuffix then _ else pure target : Parser Node) s = _
  rw [if_pos h]

/-- Reading some pairs of brackets and then more of them. -/
theorem suffixesUpTo_add (start m n : Nat) (target : Node) :
    suffixesUpTo type start (m + n) target =
      suffixesUpTo type start m target >>= suffixesUpTo type start n := by
  induction m generalizing target with
  | zero =>
    rw [Nat.zero_add]
    rfl
  | succ m ih =>
    funext s
    rw [Nat.add_right_comm]
    by_cases h : s.atSuffix
    · rw [suffixesUpTo_of_atSuffix h, bind_apply, bind_apply, suffixesUpTo_of_atSuffix h, bind_apply]
      rcases suffix type start target s with ⟨error | node, t⟩
      · rfl
      · exact congrFun (ih node) t
    · rw [suffixesUpTo_of_not h, bind_apply_ok (suffixesUpTo_of_not h ..), suffixesUpTo_of_not h]

/-- A primary type and as many pairs of square brackets as a phrase has. -/
def suffixedType (type : Parser Node) (start count : Nat) : Parser Node :=
  primaryType type >>= suffixesUpTo type start count

theorem suffixedType_add (start m n : Nat) :
    suffixedType type start (m + n) = suffixedType type start m >>= suffixesUpTo type start n := by
  rw [suffixedType, suffixedType, bind_assoc]
  congr 1
  funext target
  exact suffixesUpTo_add start m n target

theorem reads_suffixedType_zero {depth : Nat} {Q : Node → Prop} (start : Nat)
    (h : Reads levels depth (primaryType type) s left Q) :
    Reads levels depth (suffixedType type start 0) s left Q :=
  h.andThen fun _ _ hnode hend => .pure hend hnode

/-- A phrase of suffixed types as it is read, pair by pair of its square brackets. -/
def SuffixedBy {part : Part} (t : Phrase part) (levels : Nat) (type : Parser Node) : Prop :=
  ∀ start, t.ReadBy levels (suffixedType type start t.suffixes) endsPrimary

theorem atSuffix_of_glyphs {glyphs : List Glyph}
    (h : s.glyphs = .inline .lBracket "[" :: glyphs) : s.atSuffix := by
  rw [State.atSuffix, State.isAt_eq, State.atNewline_eq, h]
  rfl

theorem reads_suffixesUpTo_one {depth start : Nat} {target : Node} {Q : Node → Prop}
    (hat : s.atSuffix) (h : Reads levels depth (suffix type start target) s left Q) :
    Reads levels depth (suffixesUpTo type start 1 target) s left Q := by
  refine .look ?_
  rw [if_pos hat]
  exact h.andThen fun _ _ hnode hend => .pure hend hnode

theorem suffixedBy_array {target : Phrase (.one .suffixed)} (h : target.SuffixedBy levels type) :
    (array target).SuffixedBy levels type := by
  intro start s left hs hdepth hleft
  rw [glyphs, List.append_assoc] at hs
  rw [suffixes, suffixedType_add]
  refine (h start s _ hs hdepth rfl).andThen fun node count hnode hmid => ?_
  refine reads_suffixesUpTo_one (atSuffix_of_glyphs hmid) ?_
  refine .expect hmid rfl fun _ hnext => .accept hnext rfl fun hend => ?_
  rw [if_pos rfl]
  refine .look (.pure hend ?_)
  rw [Node.withoutSpans_inner, nodes, ← hnode]
  rfl

theorem suffixedBy_indexed {target : Phrase (.one .suffixed)} {index : Phrase (.one .type)}
    (h : target.SuffixedBy levels type) (hindex : index.ReadBy levels type endsType) :
    (indexed target index).SuffixedBy levels type := by
  intro start s left hs hdepth hleft
  simp only [glyphs, List.append_assoc] at hs
  rw [suffixes, suffixedType_add]
  refine (h start s _ hs hdepth rfl).bind fun node count hnode hmid => ?_
  refine reads_suffixesUpTo_one (atSuffix_of_glyphs hmid) ?_
  refine .expect hmid rfl fun _ hnext => ?_
  have hopens : OpensType (index.glyphs ++ ([.inline .rBracket "]"] ++ left)) :=
    index.opensType_glyphs rfl Bool.false_ne_true
  have hclosed : ¬ ((s.advance count).advance 1).isAt .rBracket := by
    rw [State.isAt_eq, hnext]
    exact hopens.not_head Bool.false_ne_true
  refine .accept_not hclosed ?_
  rw [if_neg Bool.false_ne_true]
  refine (hindex _ _ hnext hdepth rfl).andThen fun inside _ hinside hbehind => ?_
  refine .expect hbehind rfl fun _ hend => .look (.pure hend ?_)
  rw [Node.withoutSpans_inner, nodes, ← hnode, ← hinside]
  rfl

theorem readonlyLength_of_opensType (h : OpensType s.glyphs) : readonlyLength s.rest = 0 := by
  obtain ⟨first, glyphs, hs, -, hword⟩ := h
  obtain ⟨token, rest, hrest, rfl⟩ := State.exists_rest hs
  have hne : token.word? ≠ some "readonly" := fun hreadonly =>
    have hboth := Token.word?_eq_some_iff.mp hreadonly
    (hword hboth.1).1 hboth.2
  rw [hrest]
  cases rest with
  | nil => rfl
  | cons following rest =>
    rw [readonlyLength, if_neg]
    simp [hne]

theorem reads_postfixType {depth count : Nat} {Q : Node → Prop} (hcount : count ≤ s.rest.length)
    (hopens : OpensType s.glyphs) (hleft : ¬ left.head?.any (·.kind == .lBracket))
    (h : ∀ start, Reads levels depth (suffixedType type start count) s left Q) :
    Reads levels depth (postfixType type) s left Q := by
  refine .look ?_
  rw [readonlyLength_of_opensType hopens]
  refine .stay (congrArg _ (State.advance_zero s)) (.look ?_)
  obtain ⟨more, hmore⟩ := Nat.exists_eq_add_of_le hcount
  rw [hmore]
  show Reads levels depth (suffixedType type s.start (count + more)) s left Q
  rw [suffixedType_add]
  refine (h s.start).andThen fun node used hnode hend => ?_
  have hstop : ¬ (s.advance used).atSuffix := by
    rw [State.atSuffix, State.isAt_eq, hend]
    simp [hleft]
  exact .done (suffixesUpTo_of_not hstop ..) hend hnode

end

section

theorem suffixedBy_string (value : String) : (string value).SuffixedBy levels type := by
  intro start s left h hdepth hleft
  refine reads_suffixedType_zero start ?_
  obtain ⟨token, rest, hrest, htoken⟩ := State.exists_rest h
  have hkind : token.kind = .string := congrArg Glyph.kind htoken
  have htext : token.text = Quoted.quote value := congrArg Glyph.text htoken
  refine .look ?_
  rw [hrest]
  dsimp only
  rw [hkind]
  refine .advance 1 fun hend => .pure (hend.trans (by rw [h]; rfl)) ?_
  rw [Node.withoutSpans_literalType, stringLeaf, htext, unquote_quote]
  rfl

theorem suffixedBy_number (negative : Bool) (numeral : NumberText) :
    (number negative numeral).SuffixedBy levels type := by
  intro start s left h hdepth hleft
  refine reads_suffixedType_zero start ?_
  cases negative with
  | false =>
    obtain ⟨token, rest, hrest, htoken⟩ := State.exists_rest h
    have hkind : token.kind = .number := congrArg Glyph.kind htoken
    have htext : token.text = numeral.text := congrArg Glyph.text htoken
    refine .look ?_
    rw [hrest]
    dsimp only
    rw [hkind]
    refine .advance 1 fun hend => .pure (hend.trans (by rw [h]; rfl)) ?_
    rw [Node.withoutSpans_literalType, tokenLeaf, htext]
    rfl
  | true =>
    obtain ⟨token, rest, hrest, htoken⟩ := State.exists_rest h
    have hkind : token.kind = .minus := congrArg Glyph.kind htoken
    have hnumber : s.nthIs 1 .number := by
      rw [State.nthIs_eq, h]
      rfl
    refine .look ?_
    rw [hrest]
    dsimp only
    rw [hkind]
    dsimp only
    rw [if_pos hnumber]
    refine .advance 1 fun hnext => ?_
    rw [h] at hnext
    refine .token hnext rfl _ fun digits hdigits hend => .pure hend ?_
    have htext : digits.text = numeral.text := congrArg Glyph.text hdigits
    rw [Node.withoutSpans_literalType, htext]
    rfl

end

section

variable {word : String} {glyphs : List Glyph}

theorem reads_word {depth : Nat} {Q : Node → Prop} (h : s.glyphs = .inline .word word :: glyphs)
    (hread : ∀ token : Token, token.text = word → Reads levels depth (wordType type token) s left Q) :
    Reads levels depth (primaryType type) s left Q := by
  obtain ⟨token, rest, hrest, htoken⟩ := State.exists_rest h
  have hkind : token.kind = .word := congrArg Glyph.kind htoken
  refine .look ?_
  rw [hrest]
  dsimp only
  rw [hkind]
  exact hread token (congrArg Glyph.text htoken)

/-- A word that begins no type of its own kind is a keyword or the beginning of a name. -/
theorem reads_wordType {depth : Nat} {Q : Node → Prop} {token : Token} (htoken : token.text = word)
    (hword : word ∉ ["typeof", "true", "false"])
    (hnew : word = "new" → ¬ (s.nthIs 1 .lParen || s.nthIs 1 .lt)) (hnext : ¬ s.nthIsWord 1)
    (h : Reads levels depth
      (match NodeKind.keywordType? word with
      | none => typeReference type
      | some kind =>
        if s.nthIs 1 .dot then
          typeReference type
        else do
          advance 1
          return tokenLeaf kind token)
      s left Q) :
    Reads levels depth (wordType type token) s left Q := by
  subst htoken
  simp only [List.mem_cons, List.not_mem_nil, or_false, not_or] at hword
  refine .look ?_
  dsimp only
  rw [if_neg hword.1, if_neg hword.2.1, if_neg hword.2.2, if_neg (by simpa using hnew),
    if_neg (by simp [hnext])]
  exact h

theorem suffixedBy_keyword (word : Word) (kind : NodeKind)
    (hword : NodeKind.keywordType? word.text = some kind) :
    (keyword word kind hword).SuffixedBy levels type := by
  intro start s left h hdepth hleft
  have hne : ∀ text, NodeKind.keywordType? text = none → word.text ≠ text := by
    intro text hnone heq
    rw [heq, hnone] at hword
    cases hword
  have hnext : ∀ kind, ¬ endsPrimary kind → ¬ s.nthIs 1 kind := by
    intro kind hkind
    rw [State.nthIs_eq, h]
    show ¬ Option.any (·.kind == kind) left[0]?
    rw [← List.head?_eq_getElem?]
    exact not_head_of_ends hkind hleft
  refine reads_suffixedType_zero start (reads_word h fun token htoken => ?_)
  refine reads_wordType htoken ?_ (fun hnew => absurd hnew (hne "new" rfl)) ?_ ?_
  · simp [hne "typeof" rfl, hne "true" rfl, hne "false" rfl]
  · rw [State.nthIsWord_eq, ← State.nthIs_eq]
    exact hnext .word Bool.false_ne_true
  · rw [hword]
    dsimp only
    rw [if_neg (hnext .dot Bool.false_ne_true)]
    refine .advance 1 fun hend => .pure (hend.trans (by rw [h]; rfl)) ?_
    rw [tokenLeaf, htoken]
    rfl

theorem suffixedBy_truth (value : Bool) : (truth value).SuffixedBy levels type := by
  intro start s left h hdepth hleft
  refine reads_suffixedType_zero start ?_
  cases value with
  | true =>
    refine reads_word h fun token htoken => .look ?_
    dsimp only
    rw [htoken, if_neg (by decide), if_pos rfl]
    refine .advance 1 fun hend => .pure (hend.trans (by rw [h]; rfl)) ?_
    rw [Node.withoutSpans_literalType, tokenLeaf, htoken]
    rfl
  | false =>
    refine reads_word h fun token htoken => .look ?_
    dsimp only
    rw [htoken, if_neg (by decide), if_neg (by decide), if_pos rfl]
    refine .advance 1 fun hend => .pure (hend.trans (by rw [h]; rfl)) ?_
    rw [Node.withoutSpans_literalType, tokenLeaf, htoken]
    rfl

theorem suffixedBy_query (name : DottedName) : (query name).SuffixedBy levels type := by
  intro start s left h hdepth hleft
  refine reads_suffixedType_zero start (reads_word h fun token htoken => .look ?_)
  dsimp only
  rw [htoken, if_pos rfl]
  refine .look (.advance 1 fun hnext => .look ?_)
  have hname : (s.advance 1).glyphs = name.glyphs ++ left := hnext.trans (by rw [h]; rfl)
  have hword : (s.advance 1).nthIsWord 0 := by
    rw [State.nthIsWord_eq, hname]
    rfl
  rw [if_pos hword]
  refine (reads_entityName name (not_head_of_ends Bool.false_ne_true hleft) hname).andThen
    fun node count hnode hend => .look ?_
  have hplain : ¬ ((s.advance 1).advance count).isAt .lt := by
    rw [State.isAt_eq, hend]
    exact not_head_of_ends Bool.false_ne_true hleft
  rw [if_neg hplain]
  refine .stay rfl (.look (.pure hend ?_))
  rw [Node.withoutSpans_inner, nodes, ← hnode]
  rfl

theorem reads_name {name : DottedName} (hname : ¬ name.first.isReserved) {depth : Nat}
    {Q : Node → Prop} (h : s.glyphs = name.glyphs ++ glyphs)
    (hnew : name.others = [] → name.first.text = "new" →
      ¬ glyphs.head?.any (·.kind == .lParen) ∧ ¬ glyphs.head?.any (·.kind == .lt))
    (hnext : ¬ glyphs.head?.any (·.kind == .word))
    (hread : Reads levels depth (typeReference type) s left Q) :
    Reads levels depth (primaryType type) s left Q := by
  obtain ⟨first, others⟩ := name
  have hsecond : ∀ kind, kind ≠ .dot → s.nthIs 1 kind →
      others = [] ∧ glyphs.head?.any (·.kind == kind) := by
    intro kind hdot hat
    rw [State.nthIs_eq, h] at hat
    cases others with
    | nil => exact ⟨rfl, by rwa [List.head?_eq_getElem?]⟩
    | cons second others => exact absurd (eq_of_beq hat).symm hdot
  refine reads_word h fun token htoken => reads_wordType htoken ?_ ?_ ?_ ?_
  · intro hmem
    exact Word.ne_of_not_isReserved hname (List.mem_append_left ["readonly"] hmem) rfl
  · intro htext hat
    rcases Bool.or_eq_true_iff.mp hat with hat | hat
    · obtain ⟨hothers, hhead⟩ := hsecond .lParen (by decide) hat
      exact (hnew hothers htext).1 hhead
    · obtain ⟨hothers, hhead⟩ := hsecond .lt (by decide) hat
      exact (hnew hothers htext).2 hhead
  · rw [State.nthIsWord_eq, ← State.nthIs_eq]
    exact fun hat => hnext (hsecond .word (by decide) hat).2
  · have hnone : NodeKind.keywordType? first.text = none := by
      cases hkeyword : NodeKind.keywordType? first.text with
      | none => rfl
      | some kind => exact absurd (by simp [Word.isReserved, hkeyword]) hname
    rw [hnone]
    exact hread

theorem suffixedBy_reference (name : DottedName) (hname : ¬ name.first.isReserved) :
    (reference name hname).SuffixedBy levels type := by
  intro start s left h hdepth hleft
  have hnot : ∀ kind, ¬ endsPrimary kind → ¬ left.head?.any (·.kind == kind) :=
    fun kind hkind => not_head_of_ends hkind hleft
  refine reads_suffixedType_zero start ?_
  refine reads_name hname h (fun _ _ => ⟨hnot _ Bool.false_ne_true, hnot _ Bool.false_ne_true⟩)
    (hnot _ Bool.false_ne_true) (.look ?_)
  refine (reads_entityName name (hnot _ Bool.false_ne_true) h).andThen
    fun node count hnode hend => .look ?_
  have hplain : ¬ (s.advance count).isAt .lt := by
    rw [State.isAt_eq, hend]
    exact hnot _ Bool.false_ne_true
  rw [if_neg (by simp [hplain])]
  refine .stay rfl (.look (.pure hend ?_))
  rw [Node.withoutSpans_inner, nodes, ← hnode]
  rfl

theorem reads_typeArguments {first : Phrase (.one .type)} {others : Phrase (.others .type)}
    (hfirst : first.ReadBy levels type endsType)
    (hothers : others.ListedBy levels type .comma endsType)
    (h : s.glyphs = .inline .lt "<" :: (first.glyphs ++ (others.glyphs ++ .inline .gt ">" :: left)))
    (hdepth : s.depth + levels = maxDepth) :
    Reads levels (max first.depth others.depth) (typeArguments type) s left
      fun nodes => nodes.map Node.withoutSpans = first.nodes ++ others.nodes := by
  refine .expect h rfl fun _ hnext => ?_
  refine (reads_separated rfl rfl hfirst hothers hnext hdepth rfl Bool.false_ne_true).andThen
    fun nodes _ hnodes hmid => ?_
  exact .expect hmid rfl fun _ hend => .pure hend hnodes

theorem suffixedBy_applied (name : DottedName) (hname : ¬ name.first.isReserved)
    (hnew : name.others = [] → name.first.text ≠ "new") {first : Phrase (.one .type)}
    {others : Phrase (.others .type)} (hfirst : first.ReadBy levels type endsType)
    (hothers : others.ListedBy levels type .comma endsType) :
    (applied name hname hnew first others).SuffixedBy levels type := by
  intro start s left h hdepth hleft
  simp only [Phrase.glyphs, List.append_assoc] at h
  refine reads_suffixedType_zero start ?_
  refine reads_name hname h (fun hnil htext => absurd htext (hnew hnil)) Bool.false_ne_true (.look ?_)
  have hangle : ∀ rest, ¬ ([Glyph.inline .lt "<"] ++ rest).head?.any (·.kind == .dot) :=
    fun _ => Bool.false_ne_true
  refine ((reads_entityName name (hangle _) h).bind fun node count hnode hmid =>
    .look ?_).congr (Nat.zero_max _)
  have hat : (s.advance count).isAt .lt && !(s.advance count).atNewline := by
    rw [State.isAt_eq, State.atNewline_eq, hmid]
    rfl
  rw [if_pos hat]
  refine (reads_typeArguments hfirst hothers hmid hdepth).andThen
    fun arguments _ harguments hend => .look (.pure hend ?_)
  rw [Node.withoutSpans_inner, nodes, List.map_cons, harguments, hnode]
  rfl

end

section

variable {inside : Phrase (.one .type)}

theorem suffixedBy_parenthesized (hinside : inside.ReadBy levels type endsType) :
    (parenthesized inside).SuffixedBy levels type := by
  intro start s left h hdepth hleft
  simp only [Phrase.glyphs, List.append_assoc] at h
  refine reads_suffixedType_zero start ?_
  obtain ⟨token, rest, hrest, htoken⟩ := State.exists_rest h
  have hkind : token.kind = .lParen := congrArg Glyph.kind htoken
  have hplain : ¬ startsFunctionType s.rest := by
    rw [startsFunctionType_eq inside.balanced h]
    exact not_head_of_ends Bool.false_ne_true hleft
  refine .look ?_
  rw [if_neg hplain, hrest]
  dsimp only
  rw [hkind]
  refine .look (.expect h rfl fun _ hnext => ?_)
  refine (hinside _ _ hnext hdepth rfl).andThen fun node _ hnode hmid => ?_
  refine .expect hmid rfl fun _ hend => .look (.pure hend ?_)
  rw [Node.withoutSpans_inner, nodes, ← hnode]
  rfl

theorem labelLength_of_opensType (h : OpensType s.glyphs) : s.labelLength = 0 := by
  obtain ⟨first, rest, hs, -, hword⟩ := h
  have hlabel : s.nthIsWord 0 → ∀ kind, labels kind → ¬ s.nthIs 1 kind := by
    intro hat kind hkind hnext
    rw [State.nthIsWord_eq, hs] at hat
    rw [State.nthIs_eq, hs, List.getElem?_cons_succ, ← List.head?_eq_getElem?] at hnext
    exact (hword (eq_of_beq hat)).2 (head_of_kind hkind hnext)
  unfold State.labelLength
  by_cases hat : s.nthIsWord 0
  · simp [hlabel hat .colon rfl, hlabel hat .question rfl]
  · simp [hat]

theorem readBy_element (hinside : inside.ReadBy levels type endsType) :
    (element inside).ReadBy levels (tupleElement type) endsType := by
  intro s left h hdepth hleft
  have hopens : OpensType s.glyphs := by
    rw [h]
    exact inside.opensType_glyphs rfl (not_labels_of_endsType hleft)
  have hplain : ¬ s.isAt .ellipsis := by
    rw [State.isAt_eq]
    exact hopens.not_head Bool.false_ne_true
  refine .look (.accept_not hplain (.look ?_))
  rw [labelLength_of_opensType hopens]
  refine .stay (congrArg _ (State.advance_zero s)) ?_
  refine (hinside s left h hdepth hleft).andThen fun node count hnode hend => ?_
  have hquestion : ¬ (s.advance count).isAt .question := by
    rw [State.isAt_eq, hend]
    exact not_head_of_ends Bool.false_ne_true hleft
  refine .accept_not hquestion ?_
  exact .pure hend hnode

theorem readBy_spread (hinside : inside.ReadBy levels type endsType) :
    (spread inside).ReadBy levels (tupleElement type) endsType := by
  intro s left h hdepth hleft
  refine .look (.accept h rfl fun hnext => .look ?_)
  have hopens : OpensType (s.advance 1).glyphs := by
    rw [hnext]
    exact inside.opensType_glyphs rfl (not_labels_of_endsType hleft)
  rw [labelLength_of_opensType hopens]
  refine .stay (congrArg _ (State.advance_zero _)) ?_
  refine (hinside _ left hnext hdepth hleft).andThen fun node count hnode hend => ?_
  have hquestion : ¬ ((s.advance 1).advance count).isAt .question := by
    rw [State.isAt_eq, hend]
    exact not_head_of_ends Bool.false_ne_true hleft
  refine .accept_not hquestion (.look (.pure hend ?_))
  rw [Node.withoutSpans_inner, nodes, ← hnode]
  rfl

/-- An element of a tuple is a type, or has a mark before it. -/
theorem not_head_element {item : Phrase (.one .element)} (hleft : left.head?.any (endsType ·.kind)) :
    ¬ (item.glyphs ++ left).head?.any (·.kind == .rBracket) := by
  cases item with
  | element inside =>
    exact (inside.opensType_glyphs rfl (not_labels_of_endsType hleft)).not_head Bool.false_ne_true
  | spread inside => exact Bool.false_ne_true

theorem not_head_parameter {item : Phrase (.one .parameter)} :
    ¬ (item.glyphs ++ left).head?.any (·.kind == .rParen) := by
  cases item with
  | parameter name type => exact Bool.false_ne_true

theorem suffixedBy_emptyTuple : emptyTuple.SuffixedBy levels type := by
  intro start s left h hdepth hleft
  refine reads_suffixedType_zero start ?_
  obtain ⟨token, rest, hrest, htoken⟩ := State.exists_rest h
  have hkind : token.kind = .lBracket := congrArg Glyph.kind htoken
  refine .look ?_
  rw [hrest]
  dsimp only
  rw [hkind]
  refine .look (.expect h rfl fun _ hnext => ?_)
  refine (reads_commaList_nil hnext rfl).andThen fun elements _ helements hend =>
    .look (.pure hend ?_)
  rw [Node.withoutSpans_inner, nodes, helements]
  rfl

theorem suffixedBy_tuple {first : Phrase (.one .element)} {others : Phrase (.others .element)}
    (hfirst : first.ReadBy levels (tupleElement type) endsType)
    (hothers : others.ClosedBy levels (tupleElement type) .rBracket) :
    (tuple first others).SuffixedBy levels type := by
  intro start s left h hdepth hleft
  simp only [Phrase.glyphs, List.append_assoc] at h
  refine reads_suffixedType_zero start ?_
  obtain ⟨token, rest, hrest, htoken⟩ := State.exists_rest h
  have hkind : token.kind = .lBracket := congrArg Glyph.kind htoken
  refine .look ?_
  rw [hrest]
  dsimp only
  rw [hkind]
  refine .look (.expect h rfl fun _ hnext => ?_)
  refine (reads_commaList rfl ⟨rfl, rfl⟩ not_head_element hfirst hothers hnext hdepth rfl).andThen
    fun elements _ helements hend => .look (.pure hend ?_)
  rw [Node.withoutSpans_inner, nodes, helements]

end

section

/-- A name with a colon behind it is a parameter without modifiers. -/
theorem readBy_parameter {name : Word} {meaning : Phrase (.one .type)}
    (h : meaning.ReadBy levels type endsType) :
    (parameter name meaning).ReadBy levels (Parser.parameter type) endsType := by
  intro s left hs hdepth hleft
  simp only [glyphs, List.append_assoc] at hs
  obtain ⟨first, rest, hrest, hfirst, hothers⟩ := List.map_eq_cons_iff.mp hs
  obtain ⟨colon, behind, rfl, hcolon, -⟩ := List.map_eq_cons_iff.mp hothers
  have hkind : first.kind = .word := congrArg Glyph.kind hfirst
  have hmodifiers : modifiers parameterModifier s = (.ok [], s) := by
    refine modifiers_of_stop hrest ?_
    have hcolon : colon.kind = .colon := congrArg Glyph.kind hcolon
    unfold parameterModifier Token.word?
    rw [if_pos hkind, List.head?_cons]
    dsimp only [Option.any_some]
    rw [hcolon]
    rfl
  have hellipsis : ¬ s.isAt .ellipsis := by
    rw [State.isAt_eq, hs]
    exact Bool.false_ne_true
  refine .stay (skipDecorators_of_ne hrest (by simp [hkind])) (.look (.stay hmodifiers ?_))
  refine .accept_not hellipsis (.step (binding_of_word hrest hkind) ?_)
  have hnext := State.glyphs_advance_one hs
  obtain ⟨mark, others, hmark, hcolon'⟩ := State.exists_rest hnext
  have hcolon' : mark.kind = .colon := congrArg Glyph.kind hcolon'
  have htype : Reads levels meaning.depth (optional (accept .colon) type) (s.advance 1) left
      fun nodes => nodes.map Node.withoutSpans = meaning.nodes :=
    .accept hnext rfl fun hmid =>
      (h _ left hmid hdepth hleft).andThen fun _ _ hnode hend => .pure hend hnode
  refine .stay (questionMark_of_ne hmark (by simp [hcolon'])) ?_
  refine htype.andThen fun types count htypes hend => ?_
  have heq : ¬ ((s.advance 1).advance count).isAt .eq := by
    rw [State.isAt_eq, hend]
    exact not_head_of_ends Bool.false_ne_true hleft
  refine .accept_not heq ?_
  rw [if_neg Bool.false_ne_true]
  refine .look (.pure hend ?_)
  have hname : (tokenLeaf .identifier first).withoutSpans = name.node := by
    rw [tokenLeaf, Node.withoutSpans_leaf, Word.node]
    exact congrArg _ (congrArg Glyph.text hfirst)
  simp [nodes, hname, htypes]

section

variable {returned : Phrase (.one .type)} (hreturned : returned.ReadBy levels type endsType)
  (hdepth : s.depth + levels = maxDepth) (hleft : left.head?.any (endsType ·.kind))

include hreturned hdepth hleft

theorem reads_functionType {depth : Nat} {nodes : List Node} {glyphs : List Glyph}
    (h : s.glyphs = .inline .lParen "(" :: glyphs)
    (hparameters : Reads levels depth (commaList .rParen (Parser.parameter type)) (s.advance 1)
      (.inline .arrow "=>" :: (returned.glyphs ++ left))
      fun parameters => parameters.map Node.withoutSpans = nodes) :
    Reads levels (max depth returned.depth) (functionType type) s left
      fun node => node.withoutSpans = .bare .functionType (nodes ++ returned.nodes) := by
  obtain ⟨token, rest, hrest, htoken⟩ := State.exists_rest h
  have hkind : token.kind = .lParen := congrArg Glyph.kind htoken
  have hparens : Reads levels depth (parameters type) s _ _ := .expect h rfl fun _ _ => hparameters
  refine .look (.stay (typeParametersIfAny_of_ne hrest (by simp [hkind])) ?_)
  refine hparens.bind fun parameters count hnodes hmid => ?_
  refine .expect hmid rfl fun _ hnext => ?_
  refine (hreturned _ left hnext hdepth hleft).andThen fun node _ hnode hend =>
    .look (.pure hend ?_)
  rw [Node.withoutSpans_inner, ← hnode, ← hnodes, List.nil_append, List.map_append]
  rfl

theorem reads_primaryType_function {depth : Nat} {nodes : List Node} {inside : List Glyph}
    (hinside : Balanced inside)
    (h : s.glyphs = .inline .lParen "(" :: inside ++
      .inline .rParen ")" :: .inline .arrow "=>" :: (returned.glyphs ++ left))
    (hparameters : Reads levels depth (commaList .rParen (Parser.parameter type)) (s.advance 1)
      (.inline .arrow "=>" :: (returned.glyphs ++ left))
      fun parameters => parameters.map Node.withoutSpans = nodes) :
    Reads levels (max depth returned.depth) (primaryType type) s left
      fun node => node.withoutSpans = .bare .functionType (nodes ++ returned.nodes) := by
  obtain ⟨token, rest, hrest, htoken⟩ := State.exists_rest h
  have hkind : token.kind = .lParen := congrArg Glyph.kind htoken
  have harrow : startsFunctionType s.rest := by
    rw [startsFunctionType_eq hinside h]
    rfl
  refine .look ?_
  rw [if_pos harrow, hrest]
  dsimp only
  rw [hkind]
  exact reads_functionType hreturned hdepth hleft h hparameters

end

/-- A primary type by itself, as a type. -/
theorem reads_unionType_of_primaryType {depth : Nat} {Q : Node → Prop} (hopens : OpensType s.glyphs)
    (hleft : left.head?.any (endsType ·.kind))
    (h : Reads levels depth (primaryType type) s left Q) :
    Reads levels depth (unionType type) s left Q := by
  have hstop : ∀ kind, ¬ endsType kind → ¬ left.head?.any (·.kind == kind) :=
    fun kind hkind => not_head_of_ends hkind hleft
  have hstart : ∀ kind, ¬ opensType kind → ¬ s.isAt kind := by
    intro kind hkind
    rw [State.isAt_eq]
    exact hopens.not_head hkind
  refine reads_operands_alone (hstart _ Bool.false_ne_true) (hstop _ Bool.false_ne_true) ?_
  refine reads_operands_alone (hstart _ Bool.false_ne_true) (hstop _ Bool.false_ne_true) ?_
  exact reads_postfixType (Nat.zero_le _) hopens (hstop _ Bool.false_ne_true)
    fun start => reads_suffixedType_zero start h

theorem opensType_of_glyphs {part : Part} {t : Phrase part} (hpart : part.isType)
    (h : s.glyphs = t.glyphs ++ left) (hleft : ¬ left.head?.any (labels ·.kind)) :
    OpensType s.glyphs :=
  h ▸ t.opensType_glyphs hpart hleft

section

variable {returned : Phrase (.one .type)} (hreturned : returned.ReadBy levels type endsType)
  (hdepth : s.depth + levels = maxDepth) (hleft : left.head?.any (endsType ·.kind))

include hreturned hdepth hleft

theorem reads_nullary (h : s.glyphs = (nullary returned).glyphs ++ left) :
    Reads levels returned.depth (unionType type) s left
      fun node => [node.withoutSpans] = (nullary returned).nodes := by
  have hopens := opensType_of_glyphs rfl h (not_labels_of_endsType hleft)
  refine reads_unionType_of_primaryType hopens hleft ?_
  have hnext := State.glyphs_advance_one h
  have hparameters : Reads levels 0 (commaList .rParen (Parser.parameter type)) (s.advance 1)
      (.inline .arrow "=>" :: (returned.glyphs ++ left))
      fun parameters => parameters.map Node.withoutSpans = [] :=
    (reads_commaList_nil hnext rfl).imp fun _ hnil => List.map_eq_nil_iff.mpr hnil
  have hread := reads_primaryType_function hreturned hdepth hleft .nil h hparameters
  exact (hread.congr (Nat.zero_max _)).imp fun node hnode => congrArg (fun node => [node]) hnode

theorem reads_function {first : Phrase (.one .parameter)} {others : Phrase (.others .parameter)}
    (hfirst : first.ReadBy levels (Parser.parameter type) endsType)
    (hothers : others.ClosedBy levels (Parser.parameter type) .rParen)
    (h : s.glyphs = (function first others returned).glyphs ++ left) :
    Reads levels (max (max first.depth others.depth) returned.depth) (unionType type) s left
      fun node => [node.withoutSpans] = (function first others returned).nodes := by
  have hopens := opensType_of_glyphs rfl h (not_labels_of_endsType hleft)
  refine reads_unionType_of_primaryType hopens hleft ?_
  simp only [glyphs, List.append_assoc] at h
  have hnext := State.glyphs_advance_one h
  have hparameters := reads_commaList rfl ⟨rfl, rfl⟩ (fun _ => not_head_parameter) hfirst hothers
    hnext hdepth rfl
  have hread := reads_primaryType_function hreturned hdepth hleft
    (first.balanced.append others.balanced) (h.trans (by simp)) hparameters
  exact hread.imp fun node hnode => congrArg (fun node => [node]) hnode

end

/-- The brackets of a suffixed type are among its tokens. -/
theorem suffixes_le_length_glyphs {category : Category} :
    (t : Phrase (.one category)) → t.suffixes ≤ t.glyphs.length
  | array target => by
    have ih := target.suffixes_le_length_glyphs
    rw [suffixes, glyphs, List.length_append, List.length_cons]
    omega
  | indexed target index => by
    have ih := target.suffixes_le_length_glyphs
    rw [suffixes, glyphs, List.length_append, List.length_append, List.length_append,
      List.length_singleton]
    omega
  | ofIntersection _ | ofSuffixed _ | element _ | truth _ | number .. | nullary _ | function ..
  | union .. | intersection .. | keyword .. | string _ | reference .. | applied .. | query _
  | parenthesized _ | emptyTuple | tuple .. | parameter .. | spread _ => Nat.zero_le _

theorem readBy_postfixType {t : Phrase (.one .suffixed)} (h : t.SuffixedBy levels type) :
    t.ReadBy levels (postfixType type) Category.suffixed.ends := by
  intro s left hs hdepth hleft
  have hprimary := head_imp Category.suffixed.endsPrimary_of_ends hleft
  have hcount : t.suffixes ≤ s.rest.length := by
    have hle := t.suffixes_le_length_glyphs
    rw [← State.length_glyphs, hs, List.length_append]
    omega
  exact reads_postfixType hcount (opensType_of_glyphs rfl hs (not_labels_of_endsPrimary hprimary))
    (not_head_of_ends Bool.false_ne_true hleft) fun start => h start s left hs hdepth hprimary

section

variable {category : Category} {operand : Parser Node} (operator : TokenKind) {kind : NodeKind}
  {ends : TokenKind → Bool} (htype : (Part.one category).isType)
  (hopens : ¬ opensType operator) (hends : ∀ kind, ends kind → category.ends kind)
  (hstop : ¬ ends operator) (hdepth : s.depth + levels = maxDepth)
  (hleft : left.head?.any (ends ·.kind))

include htype hopens hends hstop hdepth hleft

theorem reads_single {only : Phrase (.one category)} (h : only.ReadBy levels operand category.ends)
    (hs : s.glyphs = only.glyphs ++ left) :
    Reads levels only.depth (operands operator kind operand) s left
      fun node => [node.withoutSpans] = only.nodes := by
  have hinner := head_imp hends hleft
  have hlabels := not_labels_of_endsPrimary (head_imp category.endsPrimary_of_ends hinner)
  have hstart : ¬ s.isAt operator := by
    rw [State.isAt_eq]
    exact (opensType_of_glyphs htype hs hlabels).not_head hopens
  exact reads_operands_alone hstart (not_head_of_ends hstop hleft) (h s left hs hdepth hinner)

theorem reads_several {first second : Phrase (.one category)} {others : Phrase (.others category)}
    (hseparator : category.separatorGlyph.kind = operator) (hoperator : category.ends operator)
    (hfirst : first.ReadBy levels operand category.ends)
    (hsecond : second.ReadBy levels operand category.ends)
    (hothers : others.ListedBy levels operand operator category.ends)
    (hs : s.glyphs = first.glyphs ++ ((more second others).glyphs ++ left)) :
    Reads levels (max first.depth (max second.depth others.depth)) (operands operator kind operand)
      s left fun node =>
        [node.withoutSpans] = [.bare kind (first.nodes ++ second.nodes ++ others.nodes)] := by
  have hlabels : ¬ ((more second others).glyphs ++ left).head?.any (labels ·.kind) := by
    rw [glyphs, List.append_assoc, List.append_assoc]
    cases category <;> exact Bool.false_ne_true
  have hstart : ¬ s.isAt operator := by
    rw [State.isAt_eq]
    exact (opensType_of_glyphs htype hs hlabels).not_head hopens
  exact (reads_operands hseparator hoperator hfirst
    (listedBy_more hseparator hoperator hsecond hothers) hstart hs hdepth (head_imp hends hleft)
    (not_head_of_ends hstop hleft)).imp fun node hnode => congrArg (fun node => [node]) hnode

end

end

end Phrase

end DeclSchema
