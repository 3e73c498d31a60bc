import DeclSchema.Proofs.Parser.ClassMembers
import DeclSchema.Proofs.Parser.Rounds
import DeclSchema.Proofs.Phrase.Classes
import DeclSchema.Proofs.Phrase.Documents

/-!
# Classes are read as they are written

What comes before a type or a body of a class are known tokens, so that it is known which parts
of the grammar read them. Behind each type and each body the text goes on where it was left.
-/

namespace DeclSchema

open Pattern TokenStream

namespace Parser

section

variable {s t u : State} {tail : List Char} {left : List Glyph}

/-- Where tokens are left, it is known how many were read. -/
theorem Reads.exact {α : Type} {p : Parser α} {levels : Nat} {Q : α → Prop} {first : List Glyph}
    (h : Reads levels 0 p s left Q) (hs : s.glyphs = first ++ left) (hne : left ≠ []) :
    ∃ a, p s = (.ok a, s.advance first.length) ∧ Q a := by
  obtain ⟨a, count, hrun, hleft, ha⟩ := h.enough (Nat.zero_le _)
  have hcount : count = first.length := by
    rw [State.glyphs_advance, hs] at hleft
    have hlength := congrArg List.length hleft
    rw [List.length_drop, List.length_append] at hlength
    have hpos := List.length_pos_iff.mpr hne
    omega
  exact ⟨a, hcount ▸ hrun, ha⟩

theorem State.glyphs_advance_append {first : List Glyph} (h : s.glyphs = first ++ left) :
    (s.advance first.length).glyphs = left := by
  rw [State.glyphs_advance, h]
  exact List.drop_left' rfl

/-- A colon and a type. -/
theorem optional_type (T : TypeText) {d : Char} (hd : d ∈ [';', ',', ')'])
    (h : s.glyphs = .inline .colon ":" :: left)
    (hs : (s.advance 1).Stands (T.text.toList ++ d :: tail)) :
    ∃ node t, optional (accept .colon) type s = (.ok [node], t) ∧ t.Awaits (d :: tail) ∧
      node.withoutSpans = T.node.withoutSpans := by
  obtain ⟨offset, t, hrun, ht⟩ := T.isType.type_eq hd hs
  refine ⟨shift offset T.node, t, ?_, ht, Node.withoutSpans_shift offset T.node⟩
  have hcolon : accept .colon s = (.ok true, s.advance 1) :=
    if_pos (by rw [State.isAt_eq, h]; rfl)
  unfold optional
  rw [bind_apply_ok hcolon, if_pos rfl, bind_apply_ok hrun]
  rfl

/-- What ends with a type and a semicolon is a field. -/
theorem namedBehind_field (T : TypeText) (start : Nat) (nodes : List Node)
    (h : s.glyphs = .inline .colon ":" :: left)
    (hs : (s.advance 1).Stands (T.text.toList ++ ';' :: tail)) :
    ∃ node t, namedBehind type start nodes s = (.ok (some node), t) ∧ t.Stands tail ∧
      node.withoutSpans =
        .bare .propertyDeclaration (nodes.map Node.withoutSpans ++ [T.node.withoutSpans]) := by
  obtain ⟨typeNode, u, hrun, hu, htype⟩ := optional_type T (by decide) h hs
  obtain ⟨mark, rest, hrest, hmark, hbehind⟩ :=
    hu.mark rfl (by decide) (by decide)
  have hplain : ¬ s.atSignature := by
    rw [State.atSignature, State.isAt_eq, State.isAt_eq, h]
    exact Bool.false_ne_true
  have heq : accept .eq u = (.ok false, u) :=
    if_neg (mt (isAt_iff hrest).mp (by rw [hmark]; decide))
  have hsemicolon : accept .semicolon u = (.ok true, u.advance 1) :=
    if_pos ((isAt_iff hrest).mpr hmark)
  refine ⟨.inner .propertyDeclaration start (u.advance 1).prevEnd (nodes ++ [typeNode]),
    u.advance 1, ?_, hbehind, ?_⟩
  · unfold namedBehind
    rw [look_bind_apply, if_neg hplain, bind_apply_ok hrun, bind_apply_ok heq,
      if_neg Bool.false_ne_true]
    exact bind_apply_ok hsemicolon
  · rw [Node.withoutSpans_inner, List.map_append, List.map_singleton, htype]

section

variable {first second : Glyph} {words name question : List Node}

/-- Neither a decorator nor a block that initialises the class comes first. -/
theorem State.atMember_of_glyphs (hdocs : s.docs.lookup s.start = none)
    (h : s.glyphs = first :: second :: left) (hat : first.kind ≠ .atSign)
    (hbrace : second.kind ≠ .lBrace) : s.AtMember where
  undocumented := hdocs
  plain := by
    obtain ⟨token, rest, hrest, rfl⟩ := State.exists_rest h
    exact ⟨token, rest, hrest, hat⟩
  member := by
    rw [State.nthIs_eq, h]
    simp [hbrace]

/-- Words that no name follows are no modifiers. -/
theorem modifiers_class_of_glyphs (h : s.glyphs = first :: second :: left)
    (hstop : first.kind ≠ .word ∨ second.kind = .lParen) :
    modifiers classModifier s = (.ok [], s) := by
  obtain ⟨token, rest, hrest, htoken, hbehind⟩ := List.map_eq_cons_iff.mp h
  obtain ⟨following, others, rfl, hfollowing, -⟩ := List.map_eq_cons_iff.mp hbehind
  refine modifiers_of_stop hrest ?_
  unfold classModifier
  rcases hstop with hword | hparen
  · rw [Token.word?_eq_none_iff.mpr (by rw [← htoken] at hword; exact hword)]
  · have hkind : following.kind = .lParen := (congrArg Glyph.kind hfollowing).trans hparen
    cases token.word? with
    | none => rfl
    | some word => simp [hkind]

/-- What has a key, a hidden name, or a word before parameters is not something else. -/
theorem classMember_of_glyphs (hs : s.AtMember)
    (hwords : modifiers classModifier s = (.ok words, t))
    (h : t.glyphs = first :: second :: left)
    (hfirst : first.kind = .string ∨ first.kind = .hash ∨
      first.kind = .word ∧ second.kind = .lParen ∧ first.text ≠ "constructor")
    (hname : memberName t = (.ok name, u)) {v : State}
    (hquestion : questionMark u = (.ok question, v)) (hbang : ¬ v.isAt .bang) :
    classMember type s = namedBehind type s.start (words ++ name ++ question) v := by
  obtain ⟨kind, text, newline⟩ := first
  obtain ⟨kind', text', newline'⟩ := second
  refine classMember_of_name hs hwords ?_ ?_ ?_ ?_ hname hquestion hbang
  · rcases hfirst with rfl | rfl | ⟨rfl, rfl, htext⟩ <;>
      simp_all [State.atWord, State.nthWord?_eq, Glyph.word?]
  · rcases hfirst with rfl | rfl | ⟨rfl, rfl, htext⟩ <;>
      simp_all [State.atAccessor, State.atWord, State.nthWord?_eq, State.nthStartsName_eq,
        Glyph.word?]
  · rcases hfirst with rfl | rfl | ⟨rfl, rfl, htext⟩ <;> simp_all [State.isAt_eq]
  · rcases hfirst with rfl | rfl | ⟨rfl, rfl, htext⟩ <;>
      simp_all [State.atIndexSignature, State.isAt_eq]

/-- Behind its name a field may have a question mark, and then has a colon. -/
theorem classMember_of_fieldName (isOptional : Bool) (hs : s.AtMember)
    (hwords : modifiers classModifier s = (.ok words, t)) (h : t.glyphs = first :: second :: left)
    (hfirst : first.kind = .string ∨ first.kind = .hash) (hname : memberName t = (.ok name, u))
    {behind : List Glyph} (hu : u.glyphs = questionGlyphs isOptional ++ .inline .colon ":" :: behind) :
    ∃ question, classMember type s = namedBehind type s.start (words ++ name ++ question)
        (u.advance (questionGlyphs isOptional).length) ∧
      question.map Node.withoutSpans = questionNodes isOptional ∧
      (u.advance (questionGlyphs isOptional).length).glyphs = .inline .colon ":" :: behind := by
  have hcolon := State.glyphs_advance_append hu
  have hread : Reads 0 0 questionMark u _ _ :=
    reads_questionMark isOptional hu Bool.false_ne_true (List.cons_ne_nil _ _)
  obtain ⟨question, hquestion, hnodes⟩ := hread.exact hu (List.cons_ne_nil _ _)
  have hbang : ¬ (u.advance (questionGlyphs isOptional).length).isAt .bang := by
    rw [State.isAt_eq, hcolon]
    exact Bool.false_ne_true
  exact ⟨question, classMember_of_glyphs hs hwords h (hfirst.imp id .inl) hname hquestion hbang,
    hnodes, hcolon⟩

end

theorem memberName_hidden {name : Word}
    (h : s.glyphs = .inline .hash "#" :: .inline .word name.text :: left) :
    ∃ node, memberName s = (.ok [node], s.advance 2) ∧
      node.withoutSpans = .bareLeaf .identifier ("#" ++ name.text) := by
  obtain ⟨token, rest, hrest, htoken, hbehind⟩ := List.map_eq_cons_iff.mp h
  obtain ⟨following, others, rfl, hfollowing, -⟩ := List.map_eq_cons_iff.mp hbehind
  have hkind : token.kind = .hash := congrArg Glyph.kind htoken
  have hword : following.kind = .word := congrArg Glyph.kind hfollowing
  have htext : following.text = name.text := congrArg Glyph.text hfollowing
  refine ⟨.leaf .identifier ("#" ++ name.text) ⟨token.span.start, following.span.stop⟩, ?_, rfl⟩
  refine (look_bind_apply _ _).trans ?_
  rw [hrest]
  dsimp only [List.head?]
  rw [hkind]
  dsimp only
  rw [if_pos hword, htext]
  rfl

theorem modifiers_static (h : s.glyphs = (FieldHead.ofStatic key).glyphs ++ left) :
    ∃ node, modifiers classModifier s = (.ok [node], s.advance 1) ∧
      node.withoutSpans = .bareLeaf .staticKeyword "static" := by
  obtain ⟨token, rest, hrest, htoken, hbehind⟩ := List.map_eq_cons_iff.mp h
  obtain ⟨following, others, rfl, hfollowing, -⟩ := List.map_eq_cons_iff.mp hbehind
  have hword : token.word? = some "static" :=
    Token.word?_eq_some_iff.mpr ⟨congrArg Glyph.kind htoken, congrArg Glyph.text htoken⟩
  have hkind : following.kind = .string := congrArg Glyph.kind hfollowing
  have hkeep : classModifier false token (following :: others) = .keep .staticKeyword := by
    unfold classModifier
    rw [hword]
    simp [hkind, NodeKind.modifier?]
  have hstop : classModifier true following others = .stop := by
    unfold classModifier
    rw [Token.word?_eq_none_iff.mpr (by simp [hkind])]
  have hleading : leadingModifiers classModifier false s.rest =
      ([.leaf .staticKeyword token.text token.span], 1) := by
    rw [hrest, leadingModifiers, hkeep]
    dsimp only
    rw [leadingModifiers_of_stop hstop]
  refine ⟨.leaf .staticKeyword token.text token.span, ?_, ?_⟩
  · show (Except.ok (leadingModifiers classModifier false s.rest).1,
      s.advance (leadingModifiers classModifier false s.rest).2) = _
    rw [hleading]
  · exact congrArg (Node.bareLeaf .staticKeyword) (congrArg Glyph.text htoken)

/-- What stands before the type of a field is read up to the colon. -/
theorem classMember_fieldHead (head : FieldHead) (hs : s.Stands (head.print.toList ++ tail)) :
    ∃ nodes v left, classMember type s = namedBehind type s.start nodes v ∧
      nodes.map Node.withoutSpans = head.nodes ∧ v.glyphs = .inline .colon ":" :: left ∧
      (v.advance 1).Stands tail := by
  have hspells := head.spells tail
  obtain ⟨⟨left, h⟩, hbehind⟩ := hs.spells hspells
  cases head with
  | ofInstance key isOptional =>
    have hdocs := hs.lookup_docs hspells
    rw [FieldHead.glyphs, List.append_assoc, List.append_assoc] at h
    obtain ⟨second, others, hsecond, hbrace⟩ : ∃ second others,
        questionGlyphs isOptional ++ ([.inline .colon ":"] ++ left) = second :: others ∧
          second.kind ≠ .lBrace := by
      cases isOptional <;> exact ⟨_, _, rfl, by decide⟩
    have hglyphs : s.glyphs = .inline .string (Quoted.quote key) :: second :: others :=
      h.trans (congrArg _ hsecond)
    have hwords := modifiers_class_of_glyphs hglyphs (.inl nofun)
    have hread : Reads 0 0 memberName s _ _ := reads_memberName (.string key) h
    obtain ⟨name, hname, hnodes⟩ := hread.exact h (by rw [hsecond]; exact List.cons_ne_nil _ _)
    obtain ⟨question, hrun, hquestion, hcolon⟩ := classMember_of_fieldName isOptional
      (State.atMember_of_glyphs hdocs hglyphs nofun hbrace) hwords hglyphs (.inl rfl) hname
      (State.glyphs_advance_append h)
    refine ⟨_, _, left, hrun, ?_, hcolon, ?_⟩
    · rw [List.nil_append, List.map_append, hnodes, hquestion]
      rfl
    · rw [State.advance_advance, State.advance_advance]
      rw [FieldHead.glyphs, List.length_append, List.length_append, Nat.add_assoc] at hbehind
      exact hbehind
  | ofStatic key =>
    have hdocs := hs.lookup_docs hspells
    obtain ⟨word, hwords, hword⟩ := modifiers_static h
    have hkey : (s.advance 1).glyphs = (Key.string key).glyphs ++ (.inline .colon ":" :: left) :=
      State.glyphs_advance_one h
    have hread : Reads 0 0 memberName (s.advance 1) _ _ := reads_memberName (.string key) hkey
    obtain ⟨name, hname, hnodes⟩ := hread.exact hkey (List.cons_ne_nil _ _)
    obtain ⟨question, hrun, hquestion, hcolon⟩ := classMember_of_fieldName false
      (State.atMember_of_glyphs hdocs h nofun nofun) hwords hkey (.inl rfl) hname
      (State.glyphs_advance_append hkey)
    refine ⟨_, _, left, hrun, ?_, hcolon, ?_⟩
    · rw [List.map_append, List.map_append, hnodes, hquestion, List.map_singleton, hword]
      rfl
    · rw [State.advance_advance, State.advance_advance, State.advance_advance]
      exact hbehind
  | ofHidden name =>
    have hdocs := hs.lookup_docs hspells
    have hwords := modifiers_class_of_glyphs h (.inl nofun)
    obtain ⟨node, hname, hnode⟩ := memberName_hidden h
    have hcolon : (s.advance 2).glyphs = .inline .colon ":" :: left := by
      rw [State.glyphs_advance, h]
      rfl
    obtain ⟨question, hrun, hquestion, hcolon⟩ := classMember_of_fieldName false
      (State.atMember_of_glyphs hdocs h nofun nofun) hwords h (.inr rfl) hname hcolon
    refine ⟨_, _, left, hrun, ?_, hcolon, ?_⟩
    · rw [List.nil_append, List.map_append, hquestion, List.map_singleton, hnode]
      rfl
    · rw [State.advance_advance, State.advance_advance]
      exact hbehind

/-- Words that stand before another word are modifiers. -/
theorem leadingModifiers_parameter (modifiers : List Modifier) (name : Glyph) {next : Glyph}
    (hname : name.kind = .word) (hnext : next.kind = .question ∨ next.kind = .colon)
    {tokens : List Token} (h : tokens.map Token.glyph =
      modifiers.map Modifier.glyph ++ name :: next :: left) (kept : Bool) :
    ∃ words, leadingModifiers parameterModifier kept tokens = (words, modifiers.length) ∧
      words.map Node.withoutSpans = modifiers.map Modifier.node := by
  induction modifiers generalizing tokens kept with
  | nil =>
    obtain ⟨token, rest, rfl, htoken, hbehind⟩ := List.map_eq_cons_iff.mp h
    obtain ⟨following, others, rfl, hfollowing, -⟩ := List.map_eq_cons_iff.mp hbehind
    have hkind : following.kind = .question ∨ following.kind = .colon := by
      rwa [← congrArg Glyph.kind hfollowing] at hnext
    refine ⟨[], leadingModifiers_of_stop ?_, rfl⟩
    unfold parameterModifier
    cases token.word? with
    | none => rfl
    | some word => rcases hkind with hkind | hkind <;> simp [hkind]
  | cons modifier modifiers ih =>
    obtain ⟨token, rest, rfl, htoken, hbehind⟩ := List.map_eq_cons_iff.mp h
    obtain ⟨words, hwords, hnodes⟩ := ih hbehind true
    have hword : token.word? = some modifier.text :=
      Token.word?_eq_some_iff.mpr ⟨congrArg Glyph.kind htoken, congrArg Glyph.text htoken⟩
    have hbinds : ∃ following others, rest = following :: others ∧ following.kind = .word := by
      cases modifiers with
      | nil =>
        obtain ⟨following, others, rfl, hfollowing, -⟩ := List.map_eq_cons_iff.mp hbehind
        exact ⟨following, others, rfl, (congrArg Glyph.kind hfollowing).trans hname⟩
      | cons second modifiers =>
        obtain ⟨following, others, rfl, hfollowing, -⟩ := List.map_eq_cons_iff.mp hbehind
        exact ⟨following, others, rfl, congrArg Glyph.kind hfollowing⟩
    obtain ⟨following, others, rfl, hkind⟩ := hbinds
    have hkeep : parameterModifier kept token (following :: others) = .keep modifier.kind := by
      unfold parameterModifier
      rw [hword]
      simp [hkind, modifier.modifier?_text]
    refine ⟨.leaf modifier.kind token.text token.span :: words, ?_, ?_⟩
    · rw [leadingModifiers, hkeep]
      dsimp only
      rw [hwords]
      rfl
    · rw [List.map_cons, List.map_cons, hnodes]
      exact congrArg (· :: _) (congrArg (Node.bareLeaf modifier.kind) (congrArg Glyph.text htoken))

/-- The first token of a parameter is a word. -/
theorem exists_glyphs (parameter : ParameterPhrase) :
    ∃ text glyphs, parameter.glyphs = .inline .word text :: glyphs := by
  obtain ⟨modifiers, name, isOptional, T⟩ := parameter
  cases modifiers <;> exact ⟨_, _, rfl⟩

/-- What stands before the type of a parameter is read up to the colon. -/
theorem parameter_head (parameter : ParameterPhrase)
    (h : s.glyphs = parameter.glyphs ++ left) :
    ∃ words name question v, modifiers parameterModifier s =
        (.ok words, s.advance parameter.modifiers.length) ∧
      ¬ (s.advance parameter.modifiers.length).isAt .ellipsis ∧
      binding (s.advance parameter.modifiers.length) =
        (.ok [name], s.advance (parameter.modifiers.length + 1)) ∧
      questionMark (s.advance (parameter.modifiers.length + 1)) = (.ok question, v) ∧
      v.glyphs = .inline .colon ":" :: left ∧ v.advance 1 = s.advance parameter.glyphs.length ∧
      (words ++ [name] ++ question).map Node.withoutSpans =
        parameter.modifiers.map Modifier.node ++ [parameter.name.node] ++
          questionNodes parameter.isOptional := by
  obtain ⟨modifiers, name, isOptional, T⟩ := parameter
  have hglyphs : s.glyphs = modifiers.map Modifier.glyph ++
      .inline .word name.text :: (questionGlyphs isOptional ++ .inline .colon ":" :: left) := by
    rw [h]
    simp [ParameterPhrase.glyphs]
  obtain ⟨next, others, hnext, hkind⟩ : ∃ next others,
      questionGlyphs isOptional ++ .inline .colon ":" :: left = next :: others ∧
        (next.kind = .question ∨ next.kind = .colon) := by
    cases isOptional with
    | false => exact ⟨_, _, rfl, .inr rfl⟩
    | true => exact ⟨_, _, rfl, .inl rfl⟩
  obtain ⟨words, hwords, hwordNodes⟩ := leadingModifiers_parameter modifiers
    (.inline .word name.text) rfl hkind (hnext ▸ hglyphs) false
  have hname : (s.advance modifiers.length).glyphs =
      .inline .word name.text :: (questionGlyphs isOptional ++ .inline .colon ":" :: left) := by
    rw [State.glyphs_advance, hglyphs]
    exact List.drop_left' (List.length_map ..)
  obtain ⟨token, rest, hrest, htoken⟩ := State.exists_rest hname
  have hmark := State.glyphs_advance_one hname
  rw [State.advance_advance] at hmark
  have hread : Reads 0 0 questionMark (s.advance (modifiers.length + 1)) _ _ :=
    reads_questionMark isOptional hmark Bool.false_ne_true (List.cons_ne_nil _ _)
  obtain ⟨question, hquestion, hquestionNodes⟩ := hread.exact hmark (List.cons_ne_nil _ _)
  refine ⟨words, tokenLeaf .identifier token, question, _, ?_, ?_, ?_, hquestion,
    State.glyphs_advance_append hmark, ?_, ?_⟩
  · show (Except.ok (leadingModifiers parameterModifier false s.rest).1,
      s.advance (leadingModifiers parameterModifier false s.rest).2) = _
    rw [hwords]
  · rw [State.isAt_eq, hname]
    exact Bool.false_ne_true
  · rw [binding_of_word hrest (congrArg Glyph.kind htoken), State.advance_advance]
  · have hlength : (ParameterPhrase.mk modifiers name isOptional T).glyphs.length =
        modifiers.length + 1 + (questionGlyphs isOptional).length + 1 := by
      simp only [ParameterPhrase.glyphs, List.length_append, List.length_map, List.length_singleton]
    rw [State.advance_advance, State.advance_advance, hlength, Nat.add_assoc (_ + 1)]
  · rw [List.map_append, List.map_append, hwordNodes, hquestionNodes]
    exact congrArg (fun text => _ ++ [Node.bareLeaf .identifier text] ++ _)
      (congrArg Glyph.text htoken)

/-- A parameter is read up to what stands behind its type. -/
theorem parameter_eq (parameter : ParameterPhrase) {d : Char} (hd : d ∈ [',', ')'])
    (hs : s.Stands (parameter.print.toList ++ d :: tail)) :
    ∃ node t, Parser.parameter type s = (.ok node, t) ∧ t.Awaits (d :: tail) ∧
      node.withoutSpans = parameter.node := by
  rw [ParameterPhrase.print, String.toList_append, List.append_assoc] at hs
  obtain ⟨⟨left, h⟩, hbehind⟩ := hs.spells (parameter.spells_head _)
  obtain ⟨words, name, question, v, hwords, hellipsis, hname, hquestion, hcolon, hv, hnodes⟩ :=
    parameter_head parameter h
  rw [← hv] at hbehind
  obtain ⟨typeNode, u, htype, hu, htypeNode⟩ :=
    optional_type parameter.typeText (List.mem_cons_of_mem _ hd) hcolon hbehind
  have hdecorator : skipDecorators s = (.ok (), s) := by
    obtain ⟨text, glyphs, hglyphs⟩ := exists_glyphs parameter
    rw [hglyphs] at h
    obtain ⟨first, rest, hrest, hfirst⟩ := State.exists_rest h
    refine skipDecorators_of_ne hrest ?_
    rw [show first.kind = .word from congrArg Glyph.kind hfirst]
    decide
  have heq : accept .eq u = (.ok false, u) := by
    obtain ⟨kind, hkind, hlong, hdoc, hne⟩ : ∃ kind, TokenKind.ofMark? d = some kind ∧
        d ∉ ['/', '.', '='] ∧ kind ≠ .docComment ∧ kind ≠ .eq := by
      rw [List.mem_cons, List.mem_singleton] at hd
      rcases hd with rfl | rfl <;> exact ⟨_, rfl, by decide, by decide, by decide⟩
    obtain ⟨token, rest, hrest, htoken, -⟩ := hu.mark hkind hlong hdoc
    exact if_neg (mt (isAt_iff hrest).mp (by rw [htoken]; exact hne))
  refine ⟨.inner .parameter s.start u.prevEnd (words ++ [name] ++ question ++ [typeNode]), u, ?_,
    hu, ?_⟩
  · unfold Parser.parameter
    rw [bind_apply_ok hdecorator, look_bind_apply, bind_apply_ok hwords,
      bind_apply_ok (if_neg hellipsis), bind_apply_ok hname, bind_apply_ok hquestion,
      bind_apply_ok htype, bind_apply_ok heq]
    rfl
  · rw [Node.withoutSpans_inner, List.map_append, hnodes, List.map_singleton, htypeNode]
    rfl

theorem not_isAt_of_parameter (parameter : ParameterPhrase)
    (hs : s.Stands (parameter.print.toList ++ tail)) : ¬ s.isAt .rParen := by
  rw [ParameterPhrase.print, String.toList_append, List.append_assoc] at hs
  obtain ⟨⟨left, h⟩, -⟩ := hs.spells (parameter.spells_head _)
  obtain ⟨text, glyphs, hglyphs⟩ := exists_glyphs parameter
  rw [State.isAt_eq, h, hglyphs]
  exact Bool.false_ne_true

/-- A closing bracket behind what is read. -/
theorem State.Awaits.accept_rParen (h : s.Awaits (')' :: tail)) :
    accept .comma s = (.ok false, s) ∧
      ∃ token, expect .rParen s = (.ok token, s.advance 1) ∧ (s.advance 1).Stands tail := by
  obtain ⟨token, rest, hrest, hkind, hbehind⟩ := h.mark rfl (by decide) (by decide)
  refine ⟨if_neg (mt (isAt_iff hrest).mp (by rw [hkind]; decide)), token, ?_, hbehind⟩
  exact expect_of_eq hrest hkind

/-- The parameters of a list with at least one are read with the bracket behind them. The
induction is on the parameters behind the first. -/
theorem listUpTo_parameters (others : List ParameterPhrase) (first : ParameterPhrase) (count : Nat)
    (hcount : s.rest.length ≤ count)
    (hs : s.Stands ((", ".intercalate ((first :: others).map ParameterPhrase.print)).toList ++
      ')' :: tail)) :
    ∃ nodes t, listUpTo .rParen (parameter type) (count + 1) s = (.ok nodes, t) ∧ t.Stands tail ∧
      nodes.map Node.withoutSpans = (first :: others).map ParameterPhrase.node := by
  induction others generalizing first s count with
  | nil =>
    have hself : ", ".intercalate ([first].map ParameterPhrase.print) = first.print :=
      String.intercalate_singleton
    rw [hself] at hs
    obtain ⟨node, u, hrun, hu, hnode⟩ := parameter_eq first (by decide) hs
    obtain ⟨hcomma, token, hclose, hbehind⟩ := hu.accept_rParen
    refine ⟨[node], u.advance 1, ?_, hbehind, congrArg ([·]) hnode⟩
    unfold listUpTo
    rw [bind_apply_ok (if_neg (not_isAt_of_parameter first hs)), if_neg Bool.false_ne_true,
      bind_apply_ok hrun, bind_apply_ok hcomma, if_neg Bool.false_ne_true, bind_apply_ok hclose]
    rfl
  | cons second others ih =>
    have hsplit : ", ".intercalate ((first :: second :: others).map ParameterPhrase.print) =
        first.print ++ ", " ++ ", ".intercalate ((second :: others).map ParameterPhrase.print) :=
      String.intercalate_cons_cons
    rw [hsplit, String.toList_append, String.toList_append, List.append_assoc,
      List.append_assoc] at hs
    obtain ⟨node, u, hrun, hu, hnode⟩ := parameter_eq first (d := ',') (by decide) hs
    obtain ⟨token, rest, hrest, hkind, hbehind⟩ := hu.mark rfl (by decide) (by decide)
    have hcomma : accept .comma u = (.ok true, u.advance 1) := if_pos ((isAt_iff hrest).mpr hkind)
    have hle := (Forward.of_run hrun).rest.length_le
    have hlt := length_advance_lt (s := u) Nat.one_pos (by simp [hrest])
    obtain ⟨count, rfl⟩ := Nat.exists_eq_add_one_of_ne_zero (n := count) (by omega)
    obtain ⟨nodes, t, hothers, ht, hnodes⟩ := ih second count (by omega) hbehind.space
    refine ⟨node :: nodes, t, ?_, ht, by rw [List.map_cons, hnode, hnodes]; rfl⟩
    rw [listUpTo, bind_apply_ok (if_neg (not_isAt_of_parameter first hs)),
      if_neg Bool.false_ne_true, bind_apply_ok hrun, bind_apply_ok hcomma, if_pos rfl]
    exact bind_apply_ok hothers

theorem parameters_eq (phrases : List ParameterPhrase)
    (hs : s.Stands ((parametersText phrases).toList ++ tail)) :
    ∃ nodes t, parameters type s = (.ok nodes, t) ∧ t.Stands tail ∧
      nodes.map Node.withoutSpans = phrases.map ParameterPhrase.node := by
  rw [parametersText, String.toList_append, String.toList_append, List.append_assoc,
    List.append_assoc] at hs
  obtain ⟨⟨left, h⟩, hbehind⟩ := hs.spells (.marks "(" rfl)
  obtain ⟨opening, rest, hrest, hopening⟩ := State.exists_rest h
  have hopen : expect .lParen s = (.ok opening, s.advance 1) :=
    expect_of_eq hrest (congrArg Glyph.kind hopening)
  unfold parameters
  rw [bind_apply_ok hopen]
  cases phrases with
  | nil =>
    have hawaits : (s.advance 1).Awaits (')' :: tail) := hbehind.awaits
    obtain ⟨closing, behind, hclosing, hclose, hstands⟩ :=
      hawaits.mark rfl (by decide) (by decide)
    refine ⟨[], (s.advance 1).advance 1, ?_, hstands, rfl⟩
    have haccept : accept .rParen (s.advance 1) = (.ok true, (s.advance 1).advance 1) :=
      if_pos ((isAt_iff hclosing).mpr hclose)
    exact bind_apply_ok haccept
  | cons first others =>
    exact listUpTo_parameters others first _ (Nat.le_refl _) hbehind

theorem body_eq (inside : Body) (hs : s.Stands ((" " ++ inside.print).toList ++ tail)) :
    ¬ s.isAt .colon ∧ ∃ t, body s = (.ok (), t) ∧ t.Stands tail := by
  have hspace : s.Stands (inside.print.toList ++ tail) := by
    rw [String.toList_append, List.append_assoc] at hs
    exact hs.space
  obtain ⟨t, hrun, ht⟩ := inside.embeddable.skipGroup_eq hspace
  rw [Body.print, String.toList_append, String.toList_append, List.append_assoc,
    List.append_assoc] at hspace
  obtain ⟨⟨left, h⟩, -⟩ := hspace.spells (.marks "\x7b " rfl)
  have hopen : s.isAt .lBrace := by
    rw [State.isAt_eq, h]
    rfl
  refine ⟨?_, t, ?_, ht⟩
  · rw [State.isAt_eq, h]
    exact Bool.false_ne_true
  · unfold body
    rw [look_bind_apply, if_pos hopen, hrun]

/-- What ends with parameters and a body is a method. -/
theorem namedBehind_method (inside : Body) (start : Nat) (nodes : List Node)
    (hs : s.Stands ((parametersText []).toList ++ ((" " ++ inside.print).toList ++ tail))) :
    ∃ node t, namedBehind type start nodes s = (.ok (some node), t) ∧ t.Stands tail ∧
      node.withoutSpans = .bare .methodDeclaration (nodes.map Node.withoutSpans) := by
  obtain ⟨parts, u, hparts, hu, hnone⟩ := parameters_eq [] hs
  obtain ⟨hcolon, t, hbody, ht⟩ := body_eq inside hu
  obtain rfl : parts = [] := List.map_eq_nil_iff.mp hnone
  have hparen : ∃ opening rest, s.rest = opening :: rest ∧ opening.kind = .lParen := by
    obtain ⟨opening, rest, hrest, hopen, -⟩ :=
      State.Awaits.mark (c := '(') hs.awaits rfl (by decide) (by decide)
    exact ⟨opening, rest, hrest, hopen⟩
  obtain ⟨opening, rest, hrest, hopen⟩ := hparen
  have hsignature : s.atSignature := by
    rw [State.atSignature, (isAt_iff hrest).mpr hopen]
    rfl
  have hrun : signature type true s = (.ok [], t) := by
    unfold signature
    rw [bind_apply_ok (typeParametersIfAny_of_ne hrest (by rw [hopen]; decide)),
      bind_apply_ok hparts, bind_apply_ok (if_neg hcolon), if_neg Bool.false_ne_true]
    exact bind_apply_ok hbody
  refine ⟨.inner .methodDeclaration start t.prevEnd (nodes ++ []), t, ?_, ht, ?_⟩
  · unfold namedBehind
    rw [look_bind_apply, if_pos hsignature, bind_apply_ok hrun]
    rfl
  · rw [Node.withoutSpans_inner, List.append_nil]

theorem constructorBehind_eq (phrases : List ParameterPhrase) (inside : Body) (start : Nat)
    (hs : s.Stands ((parametersText phrases).toList ++ ((" " ++ inside.print).toList ++ tail))) :
    ∃ node t, constructorBehind type start [] s = (.ok (some node), t) ∧ t.Stands tail ∧
      node.withoutSpans =
        .bare .constructorDeclaration (phrases.map ParameterPhrase.node) := by
  obtain ⟨parts, u, hparts, hu, hnodes⟩ := parameters_eq phrases hs
  obtain ⟨-, t, hbody, ht⟩ := body_eq inside hu
  refine ⟨.inner .constructorDeclaration start t.prevEnd ([] ++ parts), t, ?_, ht, ?_⟩
  · unfold constructorBehind
    rw [bind_apply_ok hparts, bind_apply_ok hbody]
    rfl
  · rw [Node.withoutSpans_inner, List.nil_append, hnodes]

/-- A word before parameters is no modifier. -/
theorem functionHead (name : Word) {phrases : List ParameterPhrase}
    (hs : s.Stands ((" " ++ name.text).toList ++ ((parametersText phrases).toList ++ tail))) :
    ∃ second left, s.glyphs = .inline .word name.text :: second :: left ∧ second.kind = .lParen ∧
      s.AtMember ∧ modifiers classModifier s = (.ok [], s) ∧
      (s.advance 1).Stands ((parametersText phrases).toList ++ tail) := by
  have hspells : Spells (" " ++ name.text) [.inline .word name.text]
      ((parametersText phrases).toList ++ tail) := by
    rw [parametersText, String.toList_append, String.toList_append, List.append_assoc,
      List.append_assoc]
    exact (Spells.marks " " rfl).append (.word_of_stops name.spelled rfl)
  have hdocs := hs.lookup_docs hspells
  obtain ⟨⟨left, h⟩, hbehind⟩ := hs.spells hspells
  have hparen : (s.advance 1).Stands ('(' :: (", ".intercalate
      (phrases.map ParameterPhrase.print) ++ ")").toList ++ tail) := by
    have hparen := hbehind
    rw [parametersText, String.append_assoc, String.toList_append, List.append_assoc] at hparen
    exact hparen
  obtain ⟨opening, rest, hrest, hopen, -⟩ := hparen.awaits.mark rfl (by decide) (by decide)
  have hsecond : left = opening.glyph :: rest.map Token.glyph := by
    have hnext := State.glyphs_advance_one h
    rw [State.glyphs, hrest] at hnext
    exact hnext.symm
  rw [hsecond] at h
  have hword : opening.glyph.kind = .lParen := hopen
  refine ⟨opening.glyph, rest.map Token.glyph, h, hword, ?_, ?_, hbehind⟩
  · have hat : TokenKind.word ≠ .atSign := by decide
    exact State.atMember_of_glyphs hdocs h hat (by rw [hword]; decide)
  · exact modifiers_class_of_glyphs h (.inr hword)

theorem classMember_eq (member : MemberPhrase) (hs : s.Stands (member.print.toList ++ tail)) :
    ∃ node t, classMember type s = (.ok (some node), t) ∧ t.Stands tail ∧
      node.withoutSpans = member.node := by
  cases member with
  | field head T =>
    rw [MemberPhrase.print, String.toList_append, String.toList_append, List.append_assoc,
      List.append_assoc] at hs
    obtain ⟨nodes, v, left, hmember, hnodes, hcolon, hbehind⟩ := classMember_fieldHead head hs
    obtain ⟨node, t, hrun, ht, hnode⟩ := namedBehind_field T s.start nodes hcolon hbehind
    exact ⟨node, t, hmember.trans hrun, ht, by rw [hnode, hnodes]; rfl⟩
  | method name hname inside =>
    rw [MemberPhrase.print, String.append_assoc, String.toList_append, String.toList_append,
      List.append_assoc, List.append_assoc] at hs
    obtain ⟨second, left, h, hparen, hat, hwords, hbehind⟩ := functionHead name hs
    obtain ⟨token, rest, hrest, htoken⟩ := State.exists_rest h
    have hkind : token.kind = .word := congrArg Glyph.kind htoken
    have hnamed : memberName s = (.ok [tokenLeaf .identifier token], s.advance 1) := by
      refine (look_bind_apply _ _).trans ?_
      rw [hrest]
      dsimp only
      rw [hkind]
      rfl
    obtain ⟨opening, others, hopening, hopen⟩ := State.exists_rest (State.glyphs_advance_one h)
    have hopen : opening.kind = .lParen := (congrArg Glyph.kind hopen).trans hparen
    have hmember := classMember_of_glyphs hat hwords h (.inr (.inr ⟨rfl, hparen, hname⟩)) hnamed
      (questionMark_of_ne hopening (by rw [hopen]; decide))
      (mt (isAt_iff hopening).mp (by rw [hopen]; decide))
    obtain ⟨node, t, hrun, ht, hnode⟩ := namedBehind_method inside s.start _ hbehind
    refine ⟨node, t, hmember.trans hrun, ht, hnode.trans ?_⟩
    exact congrArg (fun text => Node.bare .methodDeclaration [.bareLeaf .identifier text])
      (congrArg Glyph.text htoken)
  | constructor phrases inside =>
    rw [MemberPhrase.print, String.append_assoc, String.toList_append, String.toList_append,
      List.append_assoc, List.append_assoc] at hs
    obtain ⟨second, left, h, hparen, hat, hwords, hbehind⟩ :=
      functionHead ⟨"constructor", rfl⟩ hs
    have hword : s.atWord "constructor" && s.nthIs 1 .lParen := by
      rw [State.atWord, State.nthWord?_eq, State.nthIs_eq, h]
      simp [hparen, Glyph.inline, Glyph.word?]
    obtain ⟨node, t, hrun, ht, hnode⟩ := constructorBehind_eq phrases inside s.start hbehind
    exact ⟨node, t, (classMember_of_constructor hat hwords hword).trans hrun, ht, hnode⟩

/-- A member begins with a word, a key or a hash. -/
theorem starts_member (member : MemberPhrase) (hs : s.Stands (member.print.toList ++ tail)) :
    ∃ first rest, s.rest = first :: rest ∧ first.kind ≠ .semicolon ∧ first.kind ≠ .rBrace := by
  have hglyphs : ∃ first left, s.glyphs = first :: left ∧
      (first.kind = .word ∨ first.kind = .string ∨ first.kind = .hash) := by
    cases member with
    | field head T =>
      rw [MemberPhrase.print, String.toList_append, String.toList_append, List.append_assoc,
        List.append_assoc] at hs
      obtain ⟨⟨left, h⟩, -⟩ := hs.spells (head.spells _)
      cases head with
      | ofInstance key isOptional => exact ⟨_, _, h, .inr (.inl rfl)⟩
      | ofStatic key => exact ⟨_, _, h, .inl rfl⟩
      | ofHidden name => exact ⟨_, _, h, .inr (.inr rfl)⟩
    | method name hname inside =>
      rw [MemberPhrase.print, String.append_assoc, String.toList_append, String.toList_append,
        List.append_assoc, List.append_assoc] at hs
      obtain ⟨second, left, h, -⟩ := functionHead name hs
      exact ⟨_, _, h, .inl rfl⟩
    | constructor phrases inside =>
      rw [MemberPhrase.print, String.append_assoc, String.toList_append, String.toList_append,
        List.append_assoc, List.append_assoc] at hs
      obtain ⟨second, left, h, -⟩ := functionHead ⟨"constructor", rfl⟩ hs
      exact ⟨_, _, h, .inl rfl⟩
  obtain ⟨first, left, h, hkind⟩ := hglyphs
  obtain ⟨token, rest, hrest, rfl⟩ := State.exists_rest h
  refine ⟨token, rest, hrest, ?_⟩
  rcases hkind with hkind | hkind | hkind <;> rw [show token.kind = _ from hkind] <;> decide

/-- The members of a class are read in their order. -/
theorem classMembers_eq (members : List MemberPhrase)
    (hs : s.Stands ((String.join (members.map MemberPhrase.print)).toList ++
      (" \x7d".toList ++ tail))) :
    ∃ nodes t, classMembers type s = (.ok nodes, t) ∧ t.Stands (" \x7d".toList ++ tail) ∧
      nodes.map Node.withoutSpans = members.map MemberPhrase.node := by
  have hself : ∀ {s : State}, ¬ s.isAt .semicolon →
      s.skipSeparators separatesClassMembers = s := skipSeparators_of_not_isAt
  induction members generalizing s with
  | nil =>
    obtain ⟨closing, rest, hrest, hclose, -⟩ :=
      State.Awaits.mark (c := '\x7d') (State.Stands.space hs).awaits rfl (by decide) (by decide)
    have hskip := hself (mt (isAt_iff hrest).mp (by rw [hclose]; decide))
    have hends : (s.skipSeparators separatesClassMembers).endsMembers := by
      rw [hskip, endsMembers_iff]
      simp [hrest, hclose]
    have hround : classMemberRound type s = (.ok none, s.skipSeparators separatesClassMembers) :=
      memberRound_of_ends hends
    rw [hskip] at hround
    exact ⟨[], s, (loops_classMembers type).apply_none hround, hs, rfl⟩
  | cons member members ih =>
    rw [List.map_cons, String.join_cons, String.toList_append, List.append_assoc] at hs
    obtain ⟨first, rest, hrest, hsemicolon, hbrace⟩ := starts_member member hs
    obtain ⟨node, u, hrun, hu, hnode⟩ := classMember_eq member hs
    obtain ⟨nodes, t, hothers, ht, hnodes⟩ := ih hu
    have hskip := hself (mt (isAt_iff hrest).mp hsemicolon)
    have hends : ¬ (s.skipSeparators separatesClassMembers).endsMembers := by
      rw [hskip, endsMembers_iff]
      simp [hrest, hbrace]
    rw [← hskip] at hrun
    have hround : classMemberRound type s = (.ok (some [node]), u) := memberRound_of_ok hends hrun
    refine ⟨node :: nodes, t, ?_, ht, by rw [List.map_cons, hnode, hnodes]; rfl⟩
    rw [(loops_classMembers type).apply_some hround]
    exact map_apply_ok _ hothers

/-- The text of a class from its name on. -/
theorem classParts_eq (declared : ClassPhrase)
    (hs : s.Stands ((" " ++ declared.name.text ++ " \x7b").toList ++
      ((String.join (declared.members.map MemberPhrase.print)).toList ++
        (" \x7d".toList ++ tail)))) :
    ∃ nodes t, classParts s = (.ok nodes, t) ∧ t.Stands tail ∧
      nodes.map Node.withoutSpans =
        declared.name.node :: declared.members.map MemberPhrase.node := by
  have hspells : Spells (" " ++ declared.name.text ++ " \x7b")
      [.inline .word declared.name.text, .inline .lBrace "\x7b"]
      ((String.join (declared.members.map MemberPhrase.print)).toList ++
        (" \x7d".toList ++ tail)) :=
    ((Spells.marks " " rfl).append (.word_of_stops declared.name.spelled rfl)).append
      (.marks " \x7b" rfl)
  obtain ⟨⟨left, h⟩, hbehind⟩ := hs.spells hspells
  obtain ⟨name, rest, hrest, hname⟩ := State.exists_rest h
  obtain ⟨opening, inside, hopening, hopen⟩ := State.exists_rest (State.glyphs_advance_one h)
  have hword : name.kind = .word := congrArg Glyph.kind hname
  have htext : name.text = declared.name.text := congrArg Glyph.text hname
  have hbrace : opening.kind = .lBrace := congrArg Glyph.kind hopen
  obtain ⟨nodes, u, hmembers, hu, hnodes⟩ := classMembers_eq declared.members hbehind
  obtain ⟨closing, behind, hclosing, hclose, ht⟩ :=
    State.Awaits.mark (c := '\x7d') hu.space.awaits rfl (by decide) (by decide)
  have hheritage : ¬ (s.advance 1).atHeritage ["extends", "implements"] := by
    simp [State.atHeritage, nthWord?_of_eq hopening, Token.word?, hbrace]
  have hnamed : s.nthIsWord 0 && !s.atHeritage ["extends", "implements"] := by
    have hnamed := declared.named
    rw [List.mem_cons, List.mem_singleton] at hnamed
    simp [State.nthIsWord, State.atHeritage, nthWord?_of_eq hrest, Token.word?, hword, htext,
      hnamed]
  have hclass : className s = (.ok [tokenLeaf .identifier name], s.advance 1) := by
    unfold className
    rw [look_bind_apply, if_pos hnamed, bind_apply_ok (identifier_of_word hrest hword _)]
    rfl
  have hbraced : braced (classMembers type) (s.advance 1) = (.ok nodes, u.advance 1) :=
    braced_of_ok hopening hbrace (by rw [State.advance_advance]; exact hmembers) hclosing hclose
  refine ⟨[tokenLeaf .identifier name] ++ [] ++ [] ++ nodes, u.advance 1, ?_, ht, ?_⟩
  · unfold classParts
    rw [bind_apply_ok hclass, bind_apply_ok (typeParametersIfAny_of_ne hopening (by simp [hbrace])),
      bind_apply_ok (repeatWhile_of_not hheritage), bind_apply_ok hbraced]
    rfl
  · rw [List.map_append, hnodes]
    exact congrArg (· :: _) (congrArg (Node.bareLeaf .identifier) htext)

/-- The word `class` comes next with documentation that belongs to it, and behind it a text. -/
structure State.AtClass (s : State) (tags : List DocTag) (cs : List Char) : Prop where
  keyword : ∃ first rest, s.rest = first :: rest ∧ first.word? = some "class"
  docs : ∃ others, s.docs = (s.start, tags) :: others ∧ (∀ doc ∈ others, s.start < doc.1) ∧
    State.Stands { s.advance 1 with docs := others } cs

/-- The text of a class behind its first word. -/
theorem toList_print (declared : ClassPhrase) :
    declared.print.toList = ClassPhrase.marker.toList ++ ' ' :: ("class".toList ++
      ((" " ++ declared.name.text ++ " \x7b").toList ++
        ((String.join (declared.members.map MemberPhrase.print)).toList ++
          (" \x7d".toList ++ [])))) := by
  simp only [ClassPhrase.print, String.toList_append, List.append_assoc, List.append_nil]
  rfl

theorem State.atClass_ofSource (declared : ClassPhrase) :
    (State.ofSource declared.print).AtClass (DocTag.ofComment ClassPhrase.marker)
      ((" " ++ declared.name.text ++ " \x7b").toList ++
        ((String.join (declared.members.map MemberPhrase.print)).toList ++
          (" \x7d".toList ++ []))) := by
  have htext := toList_print declared
  generalize hcs : (" " ++ declared.name.text ++ " \x7b").toList ++ _ = cs at htext ⊢
  obtain ⟨rest, rfl⟩ : ∃ rest, cs = ' ' :: rest := by
    rw [← hcs, String.toList_append, String.toList_append, List.append_assoc, List.append_assoc]
    exact ⟨_, rfl⟩
  have hclean : Piece.Clean ClassPhrase.marker.toList := by
    unfold Piece.Clean
    decide +kernel
  have hclosed : ¬ Piece.EndsInLine ClassPhrase.marker.toList := by
    unfold Piece.EndsInLine
    decide +kernel
  have hmarker : ofChars 0 false [] ClassPhrase.marker.toList = ⟨[], []⟩ := rfl
  have hwaiting : waitingBehind [] (Piece.ofText ClassPhrase.marker.toList) =
      DocTag.ofComment ClassPhrase.marker := by decide +kernel
  have htags : DocTag.ofComment ClassPhrase.marker ≠ [] := by decide +kernel
  obtain ⟨newline, hsplit⟩ := exists_ofChars_append (d := ' ') (by decide) (by decide) hclean
    (.inr hclosed) ("class".toList ++ ' ' :: rest)
  have hword : isWord "class".toList := rfl
  rw [← htext, hmarker, hwaiting, ofChars_separator (by decide),
    ofChars_word hword (by decide)] at hsplit
  have hself : State.ofSource declared.print = _ := ofSource_eq declared.print
  rw [hsplit] at hself
  have hlater : ∀ doc ∈ (ofChars 20 false [] (' ' :: rest)).docs, 15 < doc.1 := fun doc hdoc =>
    Nat.lt_of_lt_of_le (by decide) (le_of_mem_docs_ofChars hdoc)
  rw [hself]
  refine ⟨⟨_, _, rfl, rfl⟩, (ofChars 20 false [] (' ' :: rest)).docs, rfl, hlater, 20, ?_⟩
  exact ⟨rfl, ⟨[], nofun, rfl⟩, rfl, rfl⟩

theorem statementHead_class {tags : List DocTag} {cs : List Char} (h : s.AtClass tags cs) :
    ∃ t, statementHead s = (.ok (tags, []), t) ∧ t.heading? = some (.ofClass, 1) ∧
      (t.advance 1).Stands cs := by
  obtain ⟨⟨first, rest, hrest, hword⟩, others, hdocs, hlater, hstands⟩ := h
  have hkind := (Token.word?_eq_some_iff.mp hword).1
  have htake : takeDocs s = (.ok tags, { s with docs := others }) := by
    have hothers : others.filter (·.1 != s.start) = others :=
      List.filter_eq_self.mpr fun doc hdoc => by simpa using Nat.ne_of_gt (hlater doc hdoc)
    unfold takeDocs
    rw [hdocs, List.lookup_cons, beq_self_eq_true]
    dsimp only
    rw [List.filter_cons_of_neg (by simp), hothers]
  have hbehind : State.rest { s with docs := others } = first :: rest := hrest
  have hnone : takeDocs { s with docs := others } = (.ok [], { s with docs := others }) :=
    takeDocs_of_none (lookup_of_lt hlater)
  have hmodifiers : modifiers statementModifier { s with docs := others } =
      (.ok [], { s with docs := others }) := by
    refine modifiers_of_stop hbehind ?_
    unfold statementModifier
    rw [hword]
    rfl
  refine ⟨{ s with docs := others }, ?_, ?_, hstands⟩
  · unfold statementHead
    rw [bind_apply_ok htake, bind_apply_ok (skipDecorators_of_ne hbehind (by simp [hkind])),
      bind_apply_ok hnone, bind_apply_ok hmodifiers, List.append_nil]
    rfl
  · unfold State.heading?
    rw [nthWord?_of_eq hbehind, hword]
    rfl

theorem statement_class (block : Parser (List Node)) (declared : ClassPhrase)
    (h : s.AtClass (DocTag.ofComment ClassPhrase.marker)
      ((" " ++ declared.name.text ++ " \x7b").toList ++
        ((String.join (declared.members.map MemberPhrase.print)).toList ++
          (" \x7d".toList ++ tail)))) :
    ∃ node t, statement block s = (.ok (some node), t) ∧ t.Stands tail ∧
      node.withoutSpans = declared.node := by
  obtain ⟨u, hhead, hheading, hu⟩ := statementHead_class h
  obtain ⟨nodes, t, hparts, ht, hnodes⟩ := classParts_eq declared hu
  have hclass : Heading.ofClass.parts block (u.advance 1) = (.ok nodes, t) := hparts
  have hstatement := statement_of_head block hhead
  rw [hheading] at hstatement
  have hdeclared := declaration_of_parts hclass s (DocTag.ofComment ClassPhrase.marker) []
  refine ⟨_, _, hstatement.trans hdeclared, ?_, ?_⟩
  · obtain ⟨offset, hrest, hdocs, hdepth, herrors⟩ := ht
    exact ⟨offset, hrest, hdocs, hdepth, herrors⟩
  · rw [List.nil_append, Heading.node, Node.withoutSpans, Node.withoutSpans_list]
    show Node.mk .classDeclaration none _ _ (nodes.map Node.withoutSpans) = _
    rw [hnodes]
    rfl

/-- A class is all that there is to read. -/
theorem runsUpTo_class (declared : ClassPhrase) (count : Nat)
    (h : s.AtClass (DocTag.ofComment ClassPhrase.marker)
      ((" " ++ declared.name.text ++ " \x7b").toList ++
        ((String.join (declared.members.map MemberPhrase.print)).toList ++
          (" \x7d".toList ++ [])))) :
    ∃ node t, runsUpTo (count + 1) s = (.ok [node], t) ∧ t.errors = [] ∧
      node.withoutSpans = declared.node := by
  obtain ⟨first, rest, hrest, hword⟩ := h.keyword
  have hkind := (Token.word?_eq_some_iff.mp hword).1
  obtain ⟨node, t, hrun, ⟨offset, htokens, -, -, herrors⟩, hnode⟩ :=
    statement_class (blockWithin maxDepth) declared h
  have hends : ¬ s.endsMembers := by
    rw [endsMembers_iff]
    simp [hrest, hkind]
  have hsep : ¬ s.isAt .semicolon := mt (isAt_iff hrest).mp (by rw [hkind]; decide)
  refine ⟨node, t, ?_, herrors, hnode⟩
  rw [runsUpTo_of_statement hends hsep hrun]
  exact map_apply_ok _ (runsUpTo_of_rest_eq_nil htokens count)

end

end Parser

namespace Parse

open DeclSchema.Parser

/-- A class is read without errors as the members it is made of. -/
theorem ofSource_print (declared : ClassPhrase) :
    (ofSource declared.print).errors = [] ∧
      (ofSource declared.print).root.withoutSpans = .bare .sourceFile [declared.node] := by
  obtain ⟨node, t, hrun, herrors, hnode⟩ := runsUpTo_class declared
    (State.ofSource declared.print).rest.length (State.atClass_ofSource declared)
  obtain ⟨hsame, hroot⟩ := withoutSpans_ofSource hrun
  refine ⟨hsame.trans herrors, hroot.trans ?_⟩
  exact congrArg (fun node => Node.bare .sourceFile [node]) hnode

end Parse

end DeclSchema
