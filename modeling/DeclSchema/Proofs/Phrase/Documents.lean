import DeclSchema.Proofs.Parser.Restart
import DeclSchema.Proofs.Phrase.Interfaces
import DeclSchema.Proofs.Phrase.Precedence

/-!
# Documents are read as they are written

A document of interfaces is read without errors as those interfaces, if none of its types
is nested too deeply. If one is, its error is recorded: reading goes on behind it, and
what is recorded is never dropped.
-/

namespace DeclSchema

open Pattern TokenStream

namespace Parser

variable {levels : Nat} {s : State} {left : List Glyph}

theorem State.nthStartsName_eq (n : Nat) :
    s.nthStartsName n = s.glyphs[n]?.any fun glyph =>
      match glyph.kind with
      | .word | .string | .number | .lBracket | .hash => true
      | _ => false := by
  rw [nthStartsName, glyphs, List.getElem?_map, Option.any_map]
  rfl

/-- A word in square brackets is a group of three tokens. -/
theorem groupLength_of_computed {name : Word} (h : s.glyphs = (Key.computed name).glyphs ++ left) :
    groupLength 0 s.rest = 3 := by
  obtain ⟨opening, rest, hrest, hopening, h⟩ := List.map_eq_cons_iff.mp h
  obtain ⟨word, rest, rfl, hword, h⟩ := List.map_eq_cons_iff.mp h
  obtain ⟨closing, rest, rfl, hclosing, -⟩ := List.map_eq_cons_iff.mp h
  have hopening : opening.kind = .lBracket := congrArg Glyph.kind hopening
  have hword : word.kind = .word := congrArg Glyph.kind hword
  have hclosing : closing.kind = .rBracket := congrArg Glyph.kind hclosing
  rw [hrest]
  simp [groupLength, hopening, hword, hclosing, TokenKind.opens, TokenKind.closes]

theorem reads_memberName (key : Key) (h : s.glyphs = key.glyphs ++ left) :
    Reads levels 0 memberName s left fun nodes => nodes.map Node.withoutSpans = key.nodes := by
  refine .look ?_
  cases key with
  | word name =>
    obtain ⟨token, rest, hrest, htoken⟩ := State.exists_rest h
    have hkind : token.kind = .word := congrArg Glyph.kind htoken
    have htext : token.text = name.text := congrArg Glyph.text htoken
    rw [hrest]
    dsimp only
    rw [hkind]
    refine .advance 1 fun hend => .pure (hend.trans (by rw [h]; rfl)) ?_
    rw [tokenLeaf, htext]
    rfl
  | string value =>
    obtain ⟨token, rest, hrest, htoken⟩ := State.exists_rest h
    have hkind : token.kind = .string := congrArg Glyph.kind htoken
    have htext : token.text = Quoted.quote value := congrArg Glyph.text htoken
    rw [hrest]
    dsimp only
    rw [hkind]
    refine .advance 1 fun hend => .pure (hend.trans (by rw [h]; rfl)) ?_
    rw [stringLeaf, htext, unquote_quote]
    rfl
  | computed name =>
    obtain ⟨token, rest, hrest, htoken⟩ := State.exists_rest h
    have hkind : token.kind = .lBracket := congrArg Glyph.kind htoken
    have hskip : skipGroup s = (.ok (), s.advance 3) := by
      show (Except.ok (), s.advance (groupLength 0 s.rest)) = _
      rw [groupLength_of_computed h]
    rw [hrest]
    dsimp only
    rw [hkind]
    refine .step hskip (.pure ?_ rfl)
    rw [State.glyphs_advance, h]
    rfl

/-- The question mark that a property may have. -/
theorem reads_questionMark (isOptional : Bool)
    (h : s.glyphs = (if isOptional then [.inline .question "?"] else []) ++ left)
    (hleft : ¬ left.head?.any (·.kind == .question)) (hne : left ≠ []) :
    Reads levels 0 questionMark s left fun nodes =>
      nodes.map Node.withoutSpans = if isOptional then [.bare .questionToken []] else [] := by
  cases isOptional with
  | true =>
    obtain ⟨token, rest, hrest, htoken⟩ := State.exists_rest h
    have hkind : token.kind = .question := congrArg Glyph.kind htoken
    refine .look ?_
    rw [hrest]
    dsimp only
    rw [if_pos hkind]
    exact .advance 1 fun hend => .pure (hend.trans (by rw [h]; rfl)) rfl
  | false =>
    obtain ⟨glyph, glyphs, rfl⟩ := List.exists_cons_of_ne_nil hne
    obtain ⟨token, rest, hrest, rfl⟩ := State.exists_rest h
    exact .done (questionMark_of_ne hrest fun hkind => hleft (beq_iff_eq.mpr hkind)) h rfl

section

variable {key : Key} {behind : List Glyph} (h : s.glyphs = key.glyphs ++ behind)

include h

/-- The name of a property is not taken for a word that has a meaning before a name or
before parameters, since neither follows. -/
theorem not_atWord_key (hbehind : behind.head?.any (labels ·.kind)) (word : String) :
    ¬ (s.atWord word && (s.nthStartsName 1 || s.nthIs 1 .lParen || s.nthIs 1 .lt)) := by
  cases key with
  | word name =>
    have hnext : s.glyphs[1]? = behind.head? := by
      rw [h, List.head?_eq_getElem?]
      rfl
    rw [State.nthStartsName_eq, State.nthIs_eq, State.nthIs_eq, hnext]
    cases behind with
    | nil => cases hbehind
    | cons glyph glyphs =>
      obtain ⟨kind, text, newline⟩ := glyph
      have hkind : labels kind := hbehind
      cases kind with
      | colon | question => simp
      | _ => cases hkind
  | string value | computed name =>
    rw [State.atWord, State.nthWord?_eq, h]
    simp [Key.glyphs, Glyph.inline, Glyph.word?]

theorem not_atAccessor_key (hbehind : behind.head?.any (labels ·.kind)) : ¬ s.atAccessor := by
  have hget := not_atWord_key h hbehind "get"
  have hset := not_atWord_key h hbehind "set"
  unfold State.atAccessor
  simp only [Bool.and_eq_true, Bool.or_eq_true, not_and, not_or] at hget hset ⊢
  rintro (hat | hat)
  · exact (hget hat).1.1
  · exact (hset hat).1.1

theorem not_atIndexSignature_key : ¬ s.atIndexSignature := by
  rw [State.atIndexSignature, State.isAt_eq, State.nthIs_eq, h]
  cases key <;> simp [Key.glyphs, Glyph.inline]

theorem not_atSignature_key : ¬ s.atSignature := by
  rw [State.atSignature, State.isAt_eq, State.isAt_eq, h]
  cases key <;> simp [Key.glyphs, Glyph.inline]

theorem readonlyMark_of_key (hbehind : behind.head?.any (labels ·.kind)) :
    readonlyMark s = (.ok [], s) := by
  have hreadonly := not_atWord_key h hbehind "readonly"
  simp only [Bool.and_eq_true, Bool.or_eq_true, not_and, not_or] at hreadonly
  have hnot : ¬ (s.atWord "readonly" && s.nthStartsName 1) := by
    rw [Bool.and_eq_true, not_and]
    exact fun hat => (hreadonly hat).1.1
  refine (look_bind_apply _ _).trans ?_
  cases hrest : s.rest with
  | nil => rfl
  | cons token rest =>
    dsimp only
    rw [if_neg hnot]
    rfl

end

/-- A property is read with its type, if no documentation is before it. -/
theorem reads_typeMember {property : PropertyPhrase} (hdocs : s.docs = [])
    (hdepth : s.depth + levels = maxDepth) (h : s.glyphs = property.glyphs ++ left) :
    Reads levels property.phrase.depth (typeMember (typeWithin levels)) s
      (.inline .semicolon ";" :: left) fun node => node.withoutSpans = property.node := by
  obtain ⟨key, isOptional, phrase⟩ := property
  simp only [PropertyPhrase.glyphs, List.append_assoc] at h
  have hbehind : ∀ rest, (PropertyPhrase.question ⟨key, isOptional, phrase⟩ ++
      ([Glyph.inline .colon ":"] ++ rest)).head?.any (labels ·.kind) := by
    intro rest
    cases isOptional <;> rfl
  have hnew : ¬ (s.atSignature || s.atWord "new" && (s.nthIs 1 .lParen || s.nthIs 1 .lt)) := by
    have hword := not_atWord_key h (hbehind _) "new"
    have hsignature := not_atSignature_key h
    simp only [Bool.and_eq_true, Bool.or_eq_true, not_and, not_or] at hword ⊢
    exact ⟨hsignature, fun hat => ⟨(hword hat).1.2, (hword hat).2⟩⟩
  refine .look (.stay (takeDocs_of_none (by rw [hdocs]; rfl)) ?_)
  refine .stay (readonlyMark_of_key h (hbehind _)) (.look ?_)
  rw [if_neg (not_atAccessor_key h (hbehind _)), if_neg (not_atIndexSignature_key h), if_neg hnew]
  refine ((reads_memberName key h).bind fun names count hnames hname => ?_).congr (Nat.zero_max _)
  refine ((reads_questionMark isOptional hname Bool.false_ne_true (List.cons_ne_nil _ _)).bind
    fun marks count' hmarks hcolon => .look ?_).congr (Nat.zero_max _)
  have hplain : ¬ ((s.advance count).advance count').atSignature := by
    rw [State.atSignature, State.isAt_eq, State.isAt_eq, hcolon]
    exact Bool.false_ne_true
  rw [if_neg hplain]
  have htype : Reads levels phrase.depth (optional (accept .colon) (typeWithin levels))
      ((s.advance count).advance count') (.inline .semicolon ";" :: left)
      fun nodes => nodes.map Node.withoutSpans = phrase.nodes :=
    .accept hcolon rfl fun hmid => (phrase.isRead levels _ _ hmid hdepth rfl).andThen
      fun _ _ hnode hend => .pure hend hnode
  refine htype.andThen fun types _ htypes hend => .look (.pure hend ?_)
  show (Node.inner .propertySignature _ _ ([] ++ names ++ marks ++ types)).withoutSpans = _
  rw [Node.withoutSpans_inner, List.nil_append, List.map_append, List.map_append, hnames, hmarks,
    htypes]
  rfl

theorem glyphs_skipSeparators (separates : TokenKind → Bool) (s : State) :
    (s.skipSeparators separates).glyphs = s.glyphs.dropWhile (separates ·.kind) := by
  have hlength : (s.rest.takeWhile (separates ·.kind)).length =
      (s.glyphs.takeWhile (separates ·.kind)).length := by
    rw [State.glyphs, List.takeWhile_map, List.length_map]
    rfl
  have hsplit := List.takeWhile_append_dropWhile (p := (separates ·.kind)) (l := s.glyphs)
  rw [State.skipSeparators, State.glyphs_advance, hlength]
  calc s.glyphs.drop (s.glyphs.takeWhile (separates ·.kind)).length
      = (s.glyphs.takeWhile (separates ·.kind) ++ s.glyphs.dropWhile (separates ·.kind)).drop
          (s.glyphs.takeWhile (separates ·.kind)).length := by rw [hsplit]
    _ = s.glyphs.dropWhile (separates ·.kind) := List.drop_left ..

theorem endsMembers_eq (s : State) :
    s.endsMembers = (s.glyphs.isEmpty || s.glyphs.head?.any (·.kind == .rBrace)) := by
  rw [State.endsMembers, State.atEnd, State.isAt_eq, State.glyphs, List.isEmpty_map]

/-- Members of an interface, as the limit on types is `levels`. -/
def membersWithin (levels count : Nat) : Parser (List Node) :=
  membersUpTo separatesTypeMembers (malformedLength 0) (some <$> typeMember (typeWithin levels))
    count

instance Forward.membersWithin (levels count : Nat) : Forward (membersWithin levels count) :=
  Forward.membersUpTo count

theorem dropWhile_of_not_head {glyphs : List Glyph}
    (h : ¬ glyphs.head?.any (separatesTypeMembers ·.kind)) :
    glyphs.dropWhile (separatesTypeMembers ·.kind) = glyphs := by
  cases glyphs with
  | nil => rfl
  | cons glyph glyphs => exact List.dropWhile_cons_of_neg h

/-- What stands before a property is passed over, and then the property is read. -/
theorem membersWithin_property {property : PropertyPhrase} (count : Nat) (hdocs : s.docs = [])
    (hdepth : s.depth + levels = maxDepth)
    (h : s.glyphs.dropWhile (separatesTypeMembers ·.kind) = property.glyphs ++ left)
    (hleft : ¬ left.head?.any (separatesTypeMembers ·.kind)) :
    (property.phrase.depth ≤ levels → ∃ (node : Node) (used : Nat),
      membersWithin levels (count + 1) s =
        ((node :: ·) <$> membersWithin levels count) (s.advance used) ∧
      (s.advance used).glyphs.dropWhile (separatesTypeMembers ·.kind) = left ∧
      node.withoutSpans = property.node) ∧
    (levels < property.phrase.depth → ∃ (error : ParseError) (t : State),
      membersWithin levels (count + 1) s =
        membersWithin levels count (t.recover (malformedLength 0) error) ∧
      error.fault = .nestingTooDeep) := by
  obtain ⟨skipped, hskip⟩ : ∃ skipped, s.skipSeparators separatesTypeMembers = s.advance skipped :=
    ⟨_, rfl⟩
  have hglyphs : (s.advance skipped).glyphs = property.glyphs ++ left := by
    rw [← hskip, glyphs_skipSeparators, h]
  have hends : ¬ (s.skipSeparators separatesTypeMembers).endsMembers := by
    rw [hskip, endsMembers_eq, hglyphs]
    obtain ⟨key, isOptional, phrase⟩ := property
    cases key <;> exact Bool.false_ne_true
  have hread : Reads levels property.phrase.depth (typeMember (typeWithin levels))
      (s.advance skipped) _ _ := reads_typeMember hdocs hdepth hglyphs
  constructor
  · intro hle
    obtain ⟨node, used, hrun, hend, hnode⟩ := hread.enough hle
    rw [State.advance_advance] at hrun hend
    have hbehind : (s.advance (skipped + used)).glyphs.dropWhile (separatesTypeMembers ·.kind) =
        left := by
      rw [hend, List.dropWhile_cons_of_pos rfl, dropWhile_of_not_head hleft]
    refine ⟨node, skipped + used, ?_, hbehind, hnode⟩
    have hmember : (some <$> typeMember (typeWithin levels))
        (s.skipSeparators separatesTypeMembers) = (.ok (some node), s.advance (skipped + used)) := by
      rw [hskip]
      exact map_apply_ok some hrun
    exact membersUpTo_of_ok count hends hmember
  · intro hlt
    obtain ⟨error, t, hrun, herror⟩ := hread.tooDeep hlt
    refine ⟨error, t, membersUpTo_of_error count hends ?_, herror⟩
    rw [hskip]
    exact map_apply_error some hrun

/-- Neither a property nor the end of an interface begins with a separator. -/
theorem not_separates_properties (properties : List PropertyPhrase) (left : List Glyph) :
    ¬ (properties.flatMap PropertyPhrase.glyphs ++ .inline .rBrace "\x7d" :: left).head?.any
      (separatesTypeMembers ·.kind) := by
  cases properties with
  | nil => exact Bool.false_ne_true
  | cons property properties =>
    obtain ⟨key, isOptional, phrase⟩ := property
    cases key <;> exact Bool.false_ne_true

section

variable {properties : List PropertyPhrase} {count : Nat} (hcount : properties.length < count)
  (hdocs : s.docs = []) (hdepth : s.depth + levels = maxDepth)
  (h : s.glyphs.dropWhile (separatesTypeMembers ·.kind) =
    properties.flatMap PropertyPhrase.glyphs ++ .inline .rBrace "\x7d" :: left)

include hcount hdocs hdepth h

theorem membersWithin_ok (hfits : ∀ property ∈ properties, property.phrase.depth ≤ levels) :
    ∃ nodes used, membersWithin levels count s = (.ok nodes, s.advance used) ∧
      (s.advance used).glyphs = .inline .rBrace "\x7d" :: left ∧
      nodes.map Node.withoutSpans = properties.map PropertyPhrase.node := by
  induction properties generalizing s count with
  | nil =>
    obtain ⟨count, rfl⟩ := Nat.exists_eq_add_one_of_ne_zero (Nat.ne_of_gt hcount)
    have hglyphs : (s.skipSeparators separatesTypeMembers).glyphs = .inline .rBrace "\x7d" :: left := by
      rw [glyphs_skipSeparators, h]
      rfl
    have hends : (s.skipSeparators separatesTypeMembers).endsMembers := by
      rw [endsMembers_eq, hglyphs]
      rfl
    exact ⟨[], _, membersUpTo_of_ends count hends, hglyphs, rfl⟩
  | cons property properties ih =>
    obtain ⟨count, rfl⟩ := Nat.exists_eq_add_one_of_ne_zero (Nat.ne_of_gt (Nat.zero_lt_of_lt hcount))
    rw [List.flatMap_cons, List.append_assoc] at h
    obtain ⟨node, used, hrun, hnext, hnode⟩ := (membersWithin_property count hdocs hdepth h
      (not_separates_properties properties left)).1 (hfits property List.mem_cons_self)
    obtain ⟨nodes, more, hrest, hend, hnodes⟩ := ih (s := s.advance used)
      (Nat.lt_of_succ_lt_succ hcount) hdocs hdepth hnext
      fun other hother => hfits other (List.mem_cons_of_mem _ hother)
    rw [State.advance_advance] at hrest hend
    refine ⟨node :: nodes, used + more, hrun.trans (map_apply_ok _ hrest), hend, ?_⟩
    rw [List.map_cons, List.map_cons, hnode, hnodes]

theorem membersWithin_tooDeep
    (hdeep : ∃ property ∈ properties, levels < property.phrase.depth) :
    ∃ error ∈ (membersWithin levels count s).2.errors, error.fault = .nestingTooDeep := by
  induction properties generalizing s count with
  | nil =>
    obtain ⟨property, hmem, -⟩ := hdeep
    cases hmem
  | cons property properties ih =>
    obtain ⟨count, rfl⟩ := Nat.exists_eq_add_one_of_ne_zero (Nat.ne_of_gt (Nat.zero_lt_of_lt hcount))
    rw [List.flatMap_cons, List.append_assoc] at h
    have hproperty := membersWithin_property count hdocs hdepth h
      (not_separates_properties properties left)
    by_cases hfits : property.phrase.depth ≤ levels
    · obtain ⟨node, used, hrun, hnext, -⟩ := hproperty.1 hfits
      obtain ⟨other, hother, hlt⟩ := hdeep
      have hrest : ∃ property ∈ properties, levels < property.phrase.depth := by
        rcases List.mem_cons.mp hother with rfl | hmem
        · exact absurd hfits (Nat.not_le_of_lt hlt)
        · exact ⟨other, hmem, hlt⟩
      obtain ⟨error, herror, hfault⟩ := ih (s := s.advance used) (Nat.lt_of_succ_lt_succ hcount)
        hdocs hdepth hnext hrest
      rw [hrun]
      exact ⟨error, (Forward.leadsTo_map _ _).errors.subset herror, hfault⟩
    · obtain ⟨error, t, hrun, hfault⟩ := hproperty.2 (Nat.lt_of_not_le hfits)
      have hrecord : error ∈ (t.recover (malformedLength 0) error).errors :=
        List.mem_append_right _ (List.mem_singleton.mpr rfl)
      rw [hrun]
      exact ⟨error, (Forward.errors _).subset hrecord, hfault⟩

end

theorem length_le_length_flatMap (properties : List PropertyPhrase) :
    properties.length ≤ (properties.flatMap PropertyPhrase.glyphs).length := by
  induction properties with
  | nil => exact Nat.le_refl 0
  | cons property properties ih =>
    have hpos : 0 < property.glyphs.length := by
      rw [PropertyPhrase.glyphs, List.length_append]
      exact Nat.succ_pos _
    rw [List.flatMap_cons, List.length_append, List.length_cons]
    omega

section

variable {declared : InterfacePhrase} {newline : Bool} (hdocs : s.docs = []) (hdepth : s.depth = 0)
  (h : s.glyphs = ⟨.word, "interface", newline⟩ :: declared.glyphsBehind ++ left)

include h

/-- The tokens of an interface up to its members, and those of the members. -/
theorem exists_heading : ∃ keyword name opening rest, s.rest = keyword :: name :: opening :: rest ∧
    keyword.word? = some "interface" ∧ name.glyph = .inline .word declared.name.text ∧
    opening.kind = .lBrace ∧ declared.properties.length < (s.advance 3).rest.length ∧
    (s.advance 3).glyphs.dropWhile (separatesTypeMembers ·.kind) =
      declared.properties.flatMap PropertyPhrase.glyphs ++ .inline .rBrace "\x7d" :: left := by
  have hbehind : (s.advance 3).glyphs =
      declared.properties.flatMap PropertyPhrase.glyphs ++ .inline .rBrace "\x7d" :: left := by
    rw [State.glyphs_advance, h]
    simp [InterfacePhrase.glyphsBehind]
  have hlength : declared.properties.length < (s.advance 3).rest.length := by
    have hle := length_le_length_flatMap declared.properties
    rw [← State.length_glyphs, hbehind, List.length_append, List.length_cons]
    omega
  obtain ⟨keyword, rest, hrest, hkeyword, h⟩ := List.map_eq_cons_iff.mp h
  obtain ⟨name, rest, rfl, hname, h⟩ := List.map_eq_cons_iff.mp h
  obtain ⟨opening, rest, rfl, hopening, -⟩ := List.map_eq_cons_iff.mp h
  refine ⟨keyword, name, opening, rest, hrest, ?_, hname, congrArg Glyph.kind hopening, hlength, ?_⟩
  · exact Token.word?_eq_some_iff.mpr ⟨congrArg Glyph.kind hkeyword, congrArg Glyph.text hkeyword⟩
  · rw [hbehind, dropWhile_of_not_head (not_separates_properties _ _)]

theorem not_endsMembers_of_interface : ¬ s.endsMembers := by
  rw [endsMembers_eq, h]
  exact Bool.false_ne_true

theorem not_isAt_of_interface : ¬ s.isAt .semicolon := by
  rw [State.isAt_eq, h]
  exact Bool.false_ne_true

include hdocs hdepth

/-- An interface whose types are not nested beyond the limit is read. -/
theorem statement_interfacePhrase (block : Parser (List Node))
    (hfits : ∀ property ∈ declared.properties, property.phrase.depth ≤ maxDepth) :
    ∃ node t, statement block s = (.ok (some node), t) ∧ node.withoutSpans = declared.node ∧
      t.glyphs = left ∧ t.docs = [] ∧ t.depth = 0 ∧ t.errors = s.errors := by
  obtain ⟨keyword, name, opening, rest, hrest, hkeyword, hname, hopen, hcount, hmembers⟩ :=
    exists_heading h
  obtain ⟨inside, used, hrun, hend, hinside⟩ := membersWithin_ok (s := s.advance 3) hcount hdocs
    (hdepth ▸ Nat.zero_add maxDepth) hmembers hfits
  obtain ⟨closing, behind, hclosing, hclose⟩ := State.exists_rest hend
  refine ⟨_, _, statement_interface block hrest hkeyword (congrArg Glyph.kind hname) hopen
    (by rw [hdocs]; rfl) hrun hclosing (congrArg Glyph.kind hclose), ?_,
    State.glyphs_advance_one hend, hdocs, hdepth, rfl⟩
  have htext : name.text = declared.name.text := congrArg Glyph.text hname
  show (Node.inner .interfaceDeclaration _ _ (tokenLeaf .identifier name :: inside)).withoutSpans = _
  rw [Node.withoutSpans_inner, List.map_cons, hinside, tokenLeaf, htext]
  rfl

/-- Of a type that is nested beyond the limit an error is left. -/
theorem statement_tooDeep (block : Parser (List Node)) [Forward block]
    (hdeep : ∃ property ∈ declared.properties, maxDepth < property.phrase.depth) :
    ∃ error ∈ (statement block s).2.errors, error.fault = .nestingTooDeep := by
  obtain ⟨keyword, name, opening, rest, hrest, hkeyword, hname, hopen, hcount, hmembers⟩ :=
    exists_heading h
  obtain ⟨error, herror, hfault⟩ := membersWithin_tooDeep (s := s.advance 3) hcount hdocs
    (hdepth ▸ Nat.zero_add maxDepth) hmembers hdeep
  have hto := leadsTo_interface block hrest hkeyword (congrArg Glyph.kind hname) hopen
    (by rw [hdocs]; rfl)
  exact ⟨error, hto.errors.subset herror, hfault⟩

end

section

variable {lines : List InterfacePhrase} {newline : Bool} (hdocs : s.docs = []) (hdepth : s.depth = 0)
  (h : s.glyphs = documentGlyphs newline lines)

include hdocs hdepth h

theorem runsUpTo_document (count : Nat) (hfits : ∀ declared ∈ lines,
      ∀ property ∈ declared.properties, property.phrase.depth ≤ maxDepth) :
    ∃ nodes t, runsUpTo (count + 1) s = (.ok nodes, t) ∧ t.errors = s.errors ∧
      nodes.map Node.withoutSpans = lines.map InterfacePhrase.node := by
  induction lines generalizing s newline with
  | nil => exact ⟨[], s, runsUpTo_of_rest_eq_nil (List.map_eq_nil_iff.mp h) count, rfl, rfl⟩
  | cons declared lines ih =>
    obtain ⟨node, t, hrun, hnode, hglyphs, htdocs, htdepth, herrors⟩ := statement_interfacePhrase
      hdocs hdepth h (blockWithin maxDepth) (hfits declared List.mem_cons_self)
    obtain ⟨nodes, u, hrest, hsame, hnodes⟩ := ih htdocs htdepth hglyphs fun other hother =>
      hfits other (List.mem_cons_of_mem _ hother)
    refine ⟨node :: nodes, u, ?_, hsame.trans herrors, by rw [List.map_cons, hnode, hnodes]; rfl⟩
    rw [runsUpTo_of_statement (not_endsMembers_of_interface h) (not_isAt_of_interface h) hrun]
    exact map_apply_ok _ hrest

theorem runsUpTo_document_tooDeep (count : Nat) (hdeep : ∃ declared ∈ lines,
      ∃ property ∈ declared.properties, maxDepth < property.phrase.depth) :
    ∃ error ∈ (runsUpTo (count + 1) s).2.errors, error.fault = .nestingTooDeep := by
  induction lines generalizing s newline with
  | nil =>
    obtain ⟨declared, hmem, -⟩ := hdeep
    cases hmem
  | cons declared lines ih =>
    have hends := not_endsMembers_of_interface h
    have hsep := not_isAt_of_interface h
    by_cases hfits : ∀ property ∈ declared.properties, property.phrase.depth ≤ maxDepth
    · obtain ⟨node, t, hrun, -, hglyphs, htdocs, htdepth, -⟩ := statement_interfacePhrase
        hdocs hdepth h (blockWithin maxDepth) hfits
      obtain ⟨other, hother, property, hproperty, hlt⟩ := hdeep
      have hrest : other ∈ lines := by
        rcases List.mem_cons.mp hother with rfl | hmem
        · exact absurd (hfits property hproperty) (Nat.not_le_of_lt hlt)
        · exact hmem
      obtain ⟨error, herror, hfault⟩ := ih htdocs htdepth hglyphs ⟨other, hrest, property,
        hproperty, hlt⟩
      rw [runsUpTo_of_statement hends hsep hrun]
      exact ⟨error, (Forward.leadsTo_map _ _).errors.subset herror, hfault⟩
    · have hdeep : ∃ property ∈ declared.properties, maxDepth < property.phrase.depth := by
        simpa only [Classical.not_forall, exists_prop, Nat.not_le] using hfits
      obtain ⟨error, herror, hfault⟩ := statement_tooDeep hdocs hdepth h (blockWithin maxDepth) hdeep
      exact ⟨error, (leadsTo_runsUpTo hends hsep count).errors.subset herror, hfault⟩

end

end Parser

namespace Parse

variable {lines : List InterfacePhrase}

/-- The statements of a source are the children of its tree. -/
theorem withoutSpans_ofSource {source : String} {nodes : List Node} {t : Parser.State}
    (h : Parser.sourceFile (.ofSource source) = (.ok nodes, t)) :
    (ofSource source).errors = t.errors ∧
      (ofSource source).root.withoutSpans = .bare .sourceFile (nodes.map Node.withoutSpans) := by
  have hparse : ofSource source =
      ⟨⟨.sourceFile, none, [], ⟨0, source.utf8ByteSize⟩, nodes⟩, t.errors⟩ :=
    congrArg (fun run : Except ParseError (List Node) × Parser.State => Parse.mk ⟨.sourceFile, none,
      [], ⟨0, source.utf8ByteSize⟩, run.1.toOption.getD []⟩ run.2.errors) h
  rw [hparse, ← Node.withoutSpans_list]
  exact ⟨rfl, rfl⟩

/-- A document whose types are not nested beyond the limit is read without errors as the
interfaces it is made of. -/
theorem ofSource_document (h : ∀ declared ∈ lines, ∀ property ∈ declared.properties,
      property.phrase.depth ≤ Parser.maxDepth) :
    (ofSource (document lines)).errors = [] ∧
      (ofSource (document lines)).root.withoutSpans =
        .bare .sourceFile (lines.map InterfacePhrase.node) := by
  obtain ⟨hglyphs, hdocs⟩ := Parser.State.glyphs_ofSource lines
  obtain ⟨nodes, t, hrun, herrors, hnodes⟩ := Parser.runsUpTo_document hdocs rfl hglyphs
    (Parser.State.ofSource (document lines)).rest.length h
  obtain ⟨hsame, hroot⟩ := withoutSpans_ofSource hrun
  exact ⟨hsame.trans herrors, hroot.trans (congrArg _ hnodes)⟩

/-- Of a type that is nested beyond the limit an error is left. -/
theorem ofSource_document_tooDeep (h : ∃ declared ∈ lines, ∃ property ∈ declared.properties,
      Parser.maxDepth < property.phrase.depth) :
    ∃ error ∈ (ofSource (document lines)).errors, error.fault = .nestingTooDeep := by
  obtain ⟨hglyphs, hdocs⟩ := Parser.State.glyphs_ofSource lines
  exact Parser.runsUpTo_document_tooDeep hdocs rfl hglyphs
    (Parser.State.ofSource (document lines)).rest.length h

/-- An interface with a property that has a type. -/
def annotated (name key : Word) (t : Phrase (.one .type)) : String :=
  "interface " ++ name.text ++ " \x7b " ++ key.text ++ ": " ++ t.print ++ "; \x7d"

theorem annotated_eq (name key : Word) (t : Phrase (.one .type)) :
    annotated name key t = document [⟨name, [⟨.word key, false, t⟩]⟩] := by
  have hline : document [⟨name, [⟨.word key, false, t⟩]⟩] =
      InterfacePhrase.print ⟨name, [⟨.word key, false, t⟩]⟩ := String.intercalate_singleton
  rw [hline]
  apply String.toList_injective
  unfold annotated
  simp [InterfacePhrase.print, InterfacePhrase.printBehind, PropertyPhrase.print, Key.print]

/-- A type is read as the tree that its phrase stands for, however the constructs of the
grammar are nested in it, unless there are more types inside each other than the limit
allows, which is an error. -/
theorem precedence (name key : Word) (t : Phrase (.one .type)) :
    (t.depth ≤ Parser.maxDepth →
      (ofSource (annotated name key t)).errors = [] ∧
        (ofSource (annotated name key t)).root.withoutSpans = .bare .sourceFile
          [.bare .interfaceDeclaration
            [name.node, .bare .propertySignature (key.node :: t.nodes)]]) ∧
    (Parser.maxDepth < t.depth →
      ∃ error ∈ (ofSource (annotated name key t)).errors,
        error.fault = .nestingTooDeep ∧ ∃ rest, error.message = "nesting too deep" ++ rest) := by
  rw [annotated_eq]
  constructor
  · intro hle
    refine ofSource_document fun declared hdeclared property hproperty => ?_
    rw [List.mem_singleton.mp hdeclared] at hproperty
    rwa [List.mem_singleton.mp hproperty]
  · intro hlt
    have hdeep : ∃ declared ∈ [(⟨name, [⟨.word key, false, t⟩]⟩ : InterfacePhrase)],
        ∃ property ∈ declared.properties, Parser.maxDepth < property.phrase.depth :=
      ⟨_, List.mem_singleton_self _, _, List.mem_singleton_self _, hlt⟩
    obtain ⟨⟨fault, found, span⟩, herror, rfl⟩ := ofSource_document_tooDeep hdeep
    exact ⟨_, herror, rfl, _, rfl⟩

/-- A type in as many parentheses as are asked for. -/
def inParentheses (t : Phrase (.one .type)) : Nat → Phrase (.one .type)
  | 0 => t
  | count + 1 => .ofIntersection (.ofSuffixed (.parenthesized (inParentheses t count)))

theorem depth_inParentheses (t : Phrase (.one .type)) (count : Nat) :
    (inParentheses t count).depth = t.depth + count := by
  induction count with
  | zero => rfl
  | succ count ih =>
    show (inParentheses t count).depth + 1 = _
    rw [ih, Nat.add_assoc]

/-- `A & B[] | -1` is a union of an intersection and a literal, and parentheses can be
nested too deeply. -/
theorem precedence_mixed :
    let name : Word := ⟨"A", rfl⟩
    let other : Word := ⟨"B", rfl⟩
    let mixed : Phrase (.one .type) :=
      .union (.intersection (.reference ⟨name, []⟩ (by decide))
        (.array (.reference ⟨other, []⟩ (by decide))) .done)
        (.ofSuffixed (.number true ⟨"1", rfl⟩)) .done
    annotated name other mixed = "interface A \x7b B: A & B[] | -1; \x7d" ∧
      (ofSource (annotated name other mixed)).errors = [] ∧
      (ofSource (annotated name other mixed)).root.withoutSpans = .bare .sourceFile
        [.bare .interfaceDeclaration [name.node, .bare .propertySignature [other.node,
          .bare .unionType [.bare .intersectionType [.bare .typeReference [name.node],
            .bare .arrayType [.bare .typeReference [other.node]]],
            .bare .literalType [.bareLeaf .numericLiteral "-1"]]]]] ∧
      ∃ error ∈ (ofSource (annotated name other (inParentheses mixed 64))).errors,
        error.fault = .nestingTooDeep := by
  intro name other mixed
  obtain ⟨herrors, hroot⟩ := (precedence name other mixed).1 (by decide)
  obtain ⟨error, herror, hfault, -⟩ := (precedence name other (inParentheses mixed 64)).2 (by
    rw [depth_inParentheses]
    decide)
  exact ⟨by decide, herrors, hroot, error, herror, hfault⟩

end Parse

end DeclSchema
