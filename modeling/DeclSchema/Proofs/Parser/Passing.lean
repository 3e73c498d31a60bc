import DeclSchema.Proofs.Parser.Concatenation
import DeclSchema.Proofs.Parser.Interface

/-!
# Statements that are passed over

A statement that nothing is made of goes on until a line starts with a statement word. What
does not start with one is no reason to stop: a line that starts with a decorator belongs to
the statement before it.
-/

namespace DeclSchema

open DeclSchema.Parser TokenStream

/-- A token that neither is a bracket nor ends a statement, nor begins the next one. -/
structure Token.Bare (token : Token) : Prop where
  not_opens : ¬ token.kind.opens
  not_closes : ¬ token.kind.closes
  not_semicolon : token.kind ≠ .semicolon
  not_begins : ¬ (token.newlineBefore && token.word?.any statementWords.contains)

instance (token : Token) : Decidable token.Bare :=
  decidable_of_iff (¬ token.kind.opens ∧ ¬ token.kind.closes ∧ token.kind ≠ .semicolon ∧
      ¬ (token.newlineBefore && token.word?.any statementWords.contains))
    ⟨fun ⟨opens, closes, semicolon, begins⟩ => ⟨opens, closes, semicolon, begins⟩,
      fun ⟨opens, closes, semicolon, begins⟩ => ⟨opens, closes, semicolon, begins⟩⟩

namespace Parser

/-- The tokens belong to a statement that is passed over, if what stands before them does. -/
def Passes (tokens : List Token) : Prop :=
  ∀ tail, statementLength false 0 (tokens ++ tail) = tokens.length + statementLength false 0 tail

/-- The first token stands on a line of its own and is a word that starts a statement. -/
def BeginsStatement (tokens : List Token) : Prop :=
  ∃ first ∈ tokens.head?, first.newlineBefore = true ∧ first.word?.any statementWords.contains

theorem statementLength_of_begins {tokens : List Token} (h : BeginsStatement tokens) :
    statementLength false 0 tokens = 0 := by
  obtain ⟨first, hfirst, hline, hword⟩ := h
  obtain ⟨rest, rfl⟩ := List.head?_eq_some_iff.mp hfirst
  rw [statementLength, if_pos (by simp [hline, hword])]

theorem passes_nil : Passes [] :=
  fun tail => by simp

theorem Passes.append {first second : List Token} (hfirst : Passes first)
    (hsecond : Passes second) : Passes (first ++ second) := by
  intro tail
  rw [List.append_assoc, hfirst, hsecond, List.length_append, Nat.add_assoc]

theorem statementLength_of_bare {token : Token} (h : token.Bare) (first : Bool)
    (rest : List Token) :
    statementLength first 0 (token :: rest) = 1 + statementLength false 0 rest := by
  have hclose : token.kind ≠ .rBrace := fun hkind => h.not_closes (by rw [hkind]; rfl)
  have hbegins := h.not_begins
  rw [statementLength, if_neg (by simp_all), if_neg h.not_opens, if_pos rfl]
  split
  · next hkind => exact absurd hkind hclose
  · next hkind => exact absurd hkind h.not_semicolon
  · rfl

theorem passes_bare {tokens : List Token} (h : ∀ token ∈ tokens, token.Bare) : Passes tokens := by
  induction tokens with
  | nil => exact passes_nil
  | cons token rest ih =>
    obtain ⟨htoken, hrest⟩ := List.forall_mem_cons.mp h
    intro tail
    rw [List.cons_append, statementLength_of_bare htoken, ih hrest, List.length_cons]
    omega

/-- Inside of a group nothing ends the statement: a brace closes another one there. -/
theorem statementLength_of_bracketed {awaited : List TokenKind} {inside : List Token}
    (h : Bracketed awaited inside) (depth : Nat) (tail : List Token) :
    statementLength false (depth + 1 + awaited.length) (inside ++ tail) =
      inside.length + statementLength false (depth + 1) tail := by
  induction inside generalizing awaited with
  | nil => simp [h.eq_nil]
  | cons token rest ih =>
    rw [List.cons_append, statementLength, if_neg (by simp), List.length_cons]
    by_cases hopen : token.kind.opens
    · obtain ⟨close, -, hrest⟩ := h.of_opens hopen
      have hgo := ih hrest
      rw [List.length_cons] at hgo
      rw [if_pos hopen, Nat.add_assoc _ awaited.length, hgo]
      omega
    · rw [if_neg hopen, if_neg (by omega)]
      by_cases hclose : token.kind.closes
      · obtain ⟨outer, rfl, hrest⟩ := h.of_closes hclose
        have hdepth : depth + 1 + (outer.length + 1) ≠ 1 := by omega
        rw [List.length_cons, if_pos hclose, if_neg (by simp [hdepth]), ← Nat.add_assoc,
          Nat.add_sub_cancel, ih hrest]
        omega
      · rw [if_neg hclose, ih (h.of_neither hopen hclose)]
        omega

/-- A group in round brackets is passed over with all that is in it. -/
theorem passes_group (opening closing : Token) {inside : List Token}
    (hopen : opening.kind = .lParen) (hinside : Bracketed [] inside)
    (hclose : closing.kind = .rParen) : Passes (opening :: inside ++ [closing]) := by
  intro tail
  have hgroup := statementLength_of_bracketed hinside 0 (closing :: tail)
  have hopens : opening.kind.opens := by rw [hopen]; rfl
  have hword : opening.word? = none := Token.word?_eq_none_iff.mpr (by simp [hopen])
  have hbehind : statementLength false 1 (closing :: tail) = 1 + statementLength false 0 tail := by
    rw [statementLength, if_neg (by simp), if_neg (by simp [hclose, TokenKind.opens]),
      if_neg (by simp), if_pos (by rw [hclose]; rfl), if_neg (by simp [hclose])]
  rw [List.cons_append, List.cons_append, statementLength, if_neg (by simp [hword]), if_pos hopens,
    List.append_assoc, List.singleton_append]
  simp only [List.length_nil, Nat.add_zero] at hgroup
  rw [hgroup, hbehind, List.length_cons, List.length_append, List.length_singleton]
  omega

section

variable {s : State} {keyword : Token} {stretch tail : List Token}

/-- What begins with `let` is passed over with all that belongs to it. -/
theorem statement_of_let (block : Parser (List Node))
    (hrest : s.rest = keyword :: stretch ++ tail) (hkeyword : keyword.word? = some "let")
    (hdocs : s.docs.lookup s.start = none) (hstretch : Passes stretch)
    (htail : BeginsStatement tail) :
    statement block s = (.ok none, s.advance (stretch.length + 1)) := by
  have hhead := statementHead_of_word hrest hdocs hkeyword (by decide)
  have hheading : s.heading? = none := by
    unfold State.heading?
    rw [nthWord?_of_eq hrest, hkeyword]
    rfl
  have hkind := (Token.word?_eq_some_iff.mp hkeyword).1
  have hlength : statementLength true 0 s.rest = stretch.length + 1 := by
    rw [hrest, List.cons_append, statementLength, if_neg (by simp),
      if_neg (by simp [hkind, TokenKind.opens]), if_pos rfl, hkind, hstretch tail,
      statementLength_of_begins htail, Nat.add_zero, Nat.add_comm]
  rw [statement_of_head block hhead, hheading]
  dsimp only
  rw [hlength]
  rfl

end

end Parser

namespace Parse

/-- The tokens of the source are those of a statement that begins with `let`, and behind them
those of another source, which begins with a statement on a line of its own. -/
structure BeginsWithLet (source second : String) (stop : Nat) (keyword : Token)
    (stretch : List Token) (docs : List (Nat × List DocTag)) : Prop where
  stream : ofChars 0 false [] source.toList =
    ⟨keyword :: stretch, docs⟩ ++ ofChars stop true [] second.toList
  length : source.utf8ByteSize = stop + second.utf8ByteSize
  word : keyword.word? = some "let"
  start_lt : keyword.span.start < stop
  docs_lt : ∀ doc ∈ docs, keyword.span.start < doc.1 ∧ doc.1 < stop
  passes : Passes stretch
  begins : BeginsStatement (ofChars stop true [] second.toList).tokens

/-- What is behind the statement is read as if it stood alone, and moved along. -/
theorem BeginsWithLet.parse_eq {source second : String} {stop : Nat} {keyword : Token}
    {stretch : List Token} {docs : List (Nat × List DocTag)}
    (h : BeginsWithLet source second stop keyword stretch docs) :
    (ofSource source).root.children = shift stop (ofSource second).root.children ∧
      (ofSource source).errors = shift stop (ofSource second).errors := by
  have hstate : State.ofSource source = ⟨keyword :: stretch ++
      (ofChars stop true [] second.toList).tokens, 0, stop + second.utf8ByteSize,
      docs ++ (ofChars stop true [] second.toList).docs, 0, [], []⟩ := by
    rw [ofSource_eq, h.stream, h.length]
    rfl
  have hrest : (State.ofSource source).rest =
      keyword :: stretch ++ (ofChars stop true [] second.toList).tokens := by rw [hstate]
  have hdocs : (State.ofSource source).docs.lookup (State.ofSource source).start = none := by
    rw [hstate]
    refine lookup_of_lt fun doc hdoc => ?_
    rcases List.mem_append.mp hdoc with hdoc | hdoc
    · exact (h.docs_lt doc hdoc).1
    · exact Nat.lt_of_lt_of_le h.start_lt (le_of_mem_docs_ofChars hdoc)
  have hrun := statement_of_let (blockWithin maxDepth) hrest h.word hdocs h.passes h.begins
  have hkind := (Token.word?_eq_some_iff.mp h.word).1
  -- The state behind the statement is that in front of the other source.
  have hdrop : (State.ofSource source).rest.drop (stretch.length + 1) =
      (ofChars stop true [] second.toList).tokens := by
    rw [hrest]
    exact List.drop_left' rfl
  obtain ⟨prevEnd, hadvance⟩ : ∃ prevEnd, (State.ofSource source).advance (stretch.length + 1) =
      ⟨(ofChars stop true [] second.toList).tokens, prevEnd, stop + second.utf8ByteSize,
        docs ++ (ofChars stop true [] second.toList).docs, 0, [], []⟩ := by
    rw [State.advance, hdrop, hstate]
    exact ⟨_, rfl⟩
  have hbehind : (State.ofSource source).advance (stretch.length + 1) =
      (Context.behind .loose (ofChars stop true [] second.toList)
        (stop + second.utf8ByteSize)).embed
          ⟨[], prevEnd, stop + second.utf8ByteSize, docs, 0, [], []⟩ := by
    rw [hadvance, embed_behind]
    rfl
  have hlength : (State.ofSource second).rest.length ≤ (State.ofSource source).rest.length := by
    have hsame := length_tokens_ofChars 0 stop false true [] [] second.toList
    have hsecond : (State.ofSource second).rest.length =
        (ofChars stop true [] second.toList).tokens.length := hsame
    rw [hsecond, hrest, List.length_append]
    omega
  have hends : ¬ (State.ofSource source).endsMembers := by
    rw [endsMembers_iff]
    simp [hrest, hkind]
  have hsep : ¬ (State.ofSource source).isAt .semicolon := by
    rw [isAt_iff hrest, hkind]
    decide
  obtain ⟨nodes, u, v, hother, hmoved, herrors⟩ := runsUpTo_behind .loose stop
    (t := ⟨[], prevEnd, stop + second.utf8ByteSize, docs, 0, [], []⟩) rfl rfl
    (fun doc hdoc => (h.docs_lt doc hdoc).2) second hlength
  have hall : sourceFile (.ofSource source) = (.ok (shift stop nodes), v) := by
    show runsUpTo _ _ = _
    rw [runsUpTo_of_statement hends hsep hrun, hbehind]
    exact map_apply_ok _ hmoved
  rw [children_ofSource, children_ofSource, errors_ofSource, errors_ofSource, hall, hother, herrors]
  exact ⟨rfl, rfl⟩

/-- Some lines and a text behind them. -/
def onLines (lines : List String) (last : String) : String :=
  lines.foldr (fun line rest => line ++ "\n" ++ rest) last

/-- A text between other lines: no lexeme of it is unknown, and no documentation is its
last. -/
structure IsLine (source : String) : Prop where
  known : ∀ lexeme ∈ tokenize source, lexeme.kind ≠ .unknown
  ends : ∃ last ∈ (tokenize source).getLast?, last.kind ≠ .docComment

/-- A statement that begins with `let`, without brackets, semicolon and documentation. No
line in it starts with a statement word. -/
structure IsLet (source : String) : Prop extends IsLine source where
  undocumented : (TokenStream.ofSource source).docs = []
  tokens : ∃ keyword stretch, (TokenStream.ofSource source).tokens = keyword :: stretch ∧
    keyword.word? = some "let" ∧ ∀ token ∈ stretch, token.Bare

/-- A decorator: an at sign, a name on the same line and perhaps a group in round brackets
with nested brackets in it. -/
structure IsDecorator (source : String) : Prop extends IsLine source where
  tokens : ∃ sign name group, (TokenStream.ofSource source).tokens = sign :: name :: group ∧
    sign.kind = .atSign ∧ name.kind = .word ∧ name.newlineBefore = false ∧
    (group = [] ∨ ∃ opening inside closing, group = opening :: inside ++ [closing] ∧
      opening.kind = .lParen ∧ Bracketed [] inside ∧ closing.kind = .rParen)

/-- A documentation comment and nothing else. -/
def IsDocumentation (source : String) : Prop :=
  ∃ comment, tokenize source = [comment] ∧ comment.kind = .docComment

/-- The first lexeme is a word that starts a statement. -/
def StartsWithStatementWord (source : String) : Prop :=
  ∃ first ∈ (tokenize source).head?, first.kind = .word ∧ first.text ∈ statementWords

instance (source : String) : Decidable (StartsWithStatementWord source) :=
  inferInstanceAs (Decidable (∃ first ∈ (tokenize source).head?, _))

section

variable {source rest : String} {offset : Nat} {newline : Bool} {pending : List DocTag}

/-- A line and what stands behind it. -/
theorem IsLine.ofChars_append (h : IsLine source) (offset : Nat) (newline : Bool)
    (pending : List DocTag) (rest : String) :
    ofChars offset newline pending (source ++ "\n" ++ rest).toList =
      ofChars offset newline pending source.toList ++
        ofChars (offset + source.utf8ByteSize + 1) true [] rest.toList := by
  obtain ⟨last, hlast, hkind⟩ := h.ends
  have hchars : (source ++ "\n" ++ rest).toList = source.toList ++ '\n' :: rest.toList := by
    rw [String.toList_append, String.toList_append, List.append_assoc]
    rfl
  rw [hchars, TokenStream.ofChars_append (Piece.clean_of_tokenize h.known),
    waitingBehind_of_last hlast hkind, Piece.utf8ByteSize_eq source]

/-- A documentation comment and what stands behind it. -/
theorem IsDocumentation.ofChars_append (h : IsDocumentation source) (offset : Nat)
    (newline : Bool) (pending : List DocTag) (rest : String) :
    ∃ tags, ofChars offset newline pending (source ++ "\n" ++ rest).toList =
      ofChars (offset + source.utf8ByteSize + 1) true tags rest.toList := by
  obtain ⟨comment, hcomment, hkind⟩ := h
  have hchars : (source ++ "\n" ++ rest).toList = source.toList ++ '\n' :: rest.toList := by
    rw [String.toList_append, String.toList_append, List.append_assoc]
    rfl
  have hclean : Piece.Clean source.toList :=
    Piece.clean_of_tokenize (by simp [hcomment, hkind])
  have htokens : (ofChars offset newline pending source.toList).tokens = [] := by
    have hkinds := kinds_ofPieces 0 offset newline pending (Piece.ofText source.toList)
    rw [show Piece.lexemes 0 (Piece.ofText source.toList) = [comment] from hcomment] at hkinds
    exact List.map_eq_nil_iff.mp (hkinds.trans (by simp [hkind]))
  have hdocs : (ofChars offset newline pending source.toList).docs = [] := by
    refine List.eq_nil_iff_forall_not_mem.mpr fun doc hdoc => ?_
    obtain ⟨token, htoken, -⟩ := mem_docs_ofPieces hdoc
    exact absurd (htokens ▸ htoken) List.not_mem_nil
  refine ⟨waitingBehind pending (Piece.ofText source.toList), ?_⟩
  rw [hchars, TokenStream.ofChars_append hclean, ← Piece.utf8ByteSize_eq source]
  show TokenStream.mk (_ ++ _) (_ ++ _) = _
  rw [htokens, hdocs]
  rfl

/-- A statement word that comes first begins a statement on a new line. -/
theorem StartsWithStatementWord.begins (h : StartsWithStatementWord source) (offset : Nat)
    (pending : List DocTag) :
    BeginsStatement (ofChars offset true pending source.toList).tokens := by
  obtain ⟨first, hfirst, hkind, htext⟩ := h
  unfold tokenize at hfirst
  unfold ofChars
  generalize Piece.ofText source.toList = pieces at *
  generalize 0 = start at hfirst
  induction pieces generalizing start offset with
  | nil => cases hfirst
  | cons piece rest ih =>
    obtain ⟨kind, text⟩ := piece
    cases kind with
    | none => exact ih _ _ hfirst
    | some kind =>
      obtain rfl := Option.some.inj hfirst
      have hdoc : kind ≠ .docComment := by
        rintro rfl
        cases hkind
      rw [ofPieces_token hdoc]
      refine ⟨_, rfl, rfl, ?_⟩
      rw [Token.word?_eq_some_iff.mpr ⟨hkind, rfl⟩]
      simpa using htext

theorem tokens_ofPieces_pending (offset : Nat) (newline : Bool) (pending pending' : List DocTag)
    (pieces : List Piece) :
    (ofPieces offset newline pending pieces).tokens =
      (ofPieces offset newline pending' pieces).tokens := by
  induction pieces generalizing offset newline pending pending' with
  | nil => rfl
  | cons piece rest ih =>
    obtain ⟨kind, text⟩ := piece
    cases kind with
    | none => exact ih ..
    | some kind =>
      by_cases hdoc : kind = .docComment
      · subst hdoc
        exact ih ..
      · rw [ofPieces_token hdoc, ofPieces_token hdoc]
        rfl

/-- Wherever it stands, a source has its own tokens, the line of the first one apart. -/
theorem exists_tokens_ofChars (source : String) (offset : Nat) (newline : Bool)
    (pending : List DocTag) :
    ∃ first, (ofChars offset newline pending source.toList).tokens =
      withNewline first (shift offset (TokenStream.ofSource source).tokens) := by
  unfold ofChars
  obtain ⟨⟨first, hfirst⟩, -⟩ := ofPieces_newline offset newline false []
    (Piece.ofText source.toList)
  have hmoved : ofPieces (0 + offset) false [] (Piece.ofText source.toList) = _ :=
    ofPieces_add offset (Piece.ofText source.toList)
  rw [Nat.zero_add] at hmoved
  rw [hmoved] at hfirst
  exact ⟨first, (tokens_ofPieces_pending ..).trans hfirst⟩

theorem bracketed_shift (offset : Nat) {awaited : List TokenKind} {tokens : List Token}
    (h : Bracketed awaited tokens) : Bracketed awaited (shift offset tokens) := by
  have hkinds : (shift offset tokens).map (·.kind) = tokens.map (·.kind) :=
    (List.map_map ..).trans (List.map_congr_left fun _ _ => rfl)
  rwa [Bracketed, hkinds]

/-- A decorator belongs to the statement before it, whatever line it stands on. -/
theorem IsDecorator.passes (h : IsDecorator source) (offset : Nat) (newline : Bool)
    (pending : List DocTag) : Passes (ofChars offset newline pending source.toList).tokens := by
  obtain ⟨sign, name, group, htokens, hsign, hname, hline, hgroup⟩ := h.tokens
  obtain ⟨first, hmoved⟩ := exists_tokens_ofChars source offset newline pending
  have hgroup : Passes (shift offset group) := by
    rcases hgroup with rfl | ⟨opening, inside, closing, rfl, hopen, hinside, hclose⟩
    · exact passes_nil
    · rw [shift_append, shift_cons]
      exact passes_group (shift offset opening) (shift offset closing) hopen
        (bracketed_shift offset hinside) hclose
  rw [hmoved, htokens]
  have hbare : ∀ token : Token, (token.kind = .atSign ∨
      token.kind = .word ∧ token.newlineBefore = false) → token.Bare := by
    rintro token (hkind | ⟨hkind, hnewline⟩)
    · exact ⟨by simp [hkind, TokenKind.opens], by simp [hkind, TokenKind.closes], by simp [hkind],
        by simp [Token.word?_eq_none_iff.mpr, hkind]⟩
    · exact ⟨by simp [hkind, TokenKind.opens], by simp [hkind, TokenKind.closes], by simp [hkind],
        by simp [hnewline]⟩
  have hstretch : ∀ token ∈ [{ shift offset sign with newlineBefore := first },
      shift offset name], token.Bare := by
    simpa using ⟨hbare _ (.inl hsign), hbare (shift offset name) (.inr ⟨hname, hline⟩)⟩
  exact (passes_bare hstretch).append hgroup

theorem utf8ByteSize_onLine (line rest : String) :
    (line ++ "\n" ++ rest).utf8ByteSize = line.utf8ByteSize + 1 + rest.utf8ByteSize := by
  rw [String.utf8ByteSize_append, String.utf8ByteSize_append]
  rfl

/-- Decorators on lines of their own belong to the statement before them, and the text behind
them comes next. -/
theorem exists_passes_onLines {decorators : List String} (hne : decorators ≠ [])
    (h : ∀ decorator ∈ decorators, IsDecorator decorator) (offset : Nat) (pending : List DocTag)
    (last : String) :
    ∃ stream stop, ofChars offset true pending (onLines decorators last).toList =
        stream ++ ofChars stop true [] last.toList ∧
      stop + last.utf8ByteSize = offset + (onLines decorators last).utf8ByteSize ∧
      offset ≤ stop ∧ Passes stream.tokens ∧
      ∀ doc ∈ stream.docs, offset ≤ doc.1 ∧ doc.1 < stop := by
  induction decorators generalizing offset pending with
  | nil => exact absurd rfl hne
  | cons decorator decorators ih =>
    obtain ⟨hdecorator, hrest⟩ := List.forall_mem_cons.mp h
    have hsplit := hdecorator.toIsLine.ofChars_append offset true pending (onLines decorators last)
    have hsize := utf8ByteSize_onLine decorator (onLines decorators last)
    have hpasses := hdecorator.passes offset true pending
    have hdocs : ∀ doc ∈ (ofChars offset true pending decorator.toList).docs,
        offset ≤ doc.1 ∧ doc.1 < offset + decorator.utf8ByteSize :=
      fun _ hdoc => bounds_of_mem_docs_ofChars hdoc
    show ∃ stream stop, ofChars offset true pending
      (decorator ++ "\n" ++ onLines decorators last).toList = _ ∧
        _ = offset + (decorator ++ "\n" ++ onLines decorators last).utf8ByteSize ∧ _
    rw [hsplit, hsize]
    by_cases hnil : decorators = []
    · subst hnil
      refine ⟨_, offset + decorator.utf8ByteSize + 1, rfl, ?_, by omega, hpasses,
        fun doc hdoc => ?_⟩
      · rw [onLines, List.foldr_nil]
        omega
      · have := hdocs doc hdoc
        omega
    · obtain ⟨stream, stop, hstream, hstop, hle, hothers, hwithin⟩ :=
        ih hnil hrest (offset + decorator.utf8ByteSize + 1) []
      refine ⟨_ ++ stream, stop, ?_, by omega, by omega, hpasses.append hothers, fun doc hdoc => ?_⟩
      · rw [hstream, TokenStream.append_assoc]
      · rcases List.mem_append.mp hdoc with hdoc | hdoc
        · have := hdocs doc hdoc
          omega
        · have := hwithin doc hdoc
          omega

/-- A statement that begins with `let` passes over what follows it on lines of its own. -/
theorem IsLet.beginsWithLet {statement : String} (h : IsLet statement) (rest last : String)
    {stream : TokenStream} {stop : Nat}
    (hstream : ofChars (statement.utf8ByteSize + 1) true [] rest.toList =
      stream ++ ofChars stop true [] last.toList)
    (hsize : stop + last.utf8ByteSize = statement.utf8ByteSize + 1 + rest.utf8ByteSize)
    (hstop : statement.utf8ByteSize + 1 ≤ stop) (hpasses : Passes stream.tokens)
    (hdocs : ∀ doc ∈ stream.docs, statement.utf8ByteSize + 1 ≤ doc.1 ∧ doc.1 < stop)
    (hbegins : BeginsStatement (ofChars stop true [] last.toList).tokens) :
    ∃ keyword stretch, BeginsWithLet (statement ++ "\n" ++ rest) last stop keyword stretch
      stream.docs := by
  obtain ⟨keyword, stretch, hown, hword, hbare⟩ := h.tokens
  have hmem : keyword ∈ (TokenStream.ofSource statement).tokens := by simp [hown]
  have hkeyword := ((inOrder_ofSource statement).bounds hmem).2
  have hfirst : ofChars 0 false [] statement.toList = ⟨keyword :: stretch, []⟩ :=
    TokenStream.mk.injEq .. ▸ ⟨hown, h.undocumented⟩
  refine ⟨keyword, stretch ++ stream.tokens, ?_, ?_, hword, by omega, fun doc hdoc => ?_,
    (passes_bare hbare).append hpasses, hbegins⟩
  · rw [h.toIsLine.ofChars_append, hfirst, Nat.zero_add, hstream, ← TokenStream.append_assoc]
    rfl
  · rw [utf8ByteSize_onLine, hsize]
  · have := hdocs doc hdoc
    omega

/-- Documented statements behind it are read as if they stood alone. -/
theorem IsLet.parse_documented {statement doc last : String} (h : IsLet statement)
    (hdoc : IsDocumentation doc) (hlast : StartsWithStatementWord last) :
    ∃ offset,
      (ofSource (statement ++ "\n" ++ (doc ++ "\n" ++ last))).root.children =
        shift offset (ofSource (doc ++ "\n" ++ last)).root.children ∧
      (ofSource (statement ++ "\n" ++ (doc ++ "\n" ++ last))).errors =
        shift offset (ofSource (doc ++ "\n" ++ last)).errors := by
  obtain ⟨tags, htags⟩ := hdoc.ofChars_append (statement.utf8ByteSize + 1) true [] last
  have hself : ofChars (statement.utf8ByteSize + 1) true [] (doc ++ "\n" ++ last).toList =
      ⟨[], []⟩ ++ ofChars (statement.utf8ByteSize + 1) true [] (doc ++ "\n" ++ last).toList := rfl
  obtain ⟨keyword, stretch, hbegins⟩ := h.beginsWithLet _ _ hself rfl (Nat.le_refl _) passes_nil
    nofun (htags ▸ hlast.begins _ _)
  exact ⟨_, hbegins.parse_eq⟩

/-- Decorators take the documentation in front of them along: what follows them is read as if
it stood alone, without that documentation. -/
theorem IsLet.parse_decorated {statement doc last : String} {decorators : List String}
    (h : IsLet statement) (hdoc : IsDocumentation doc) (hne : decorators ≠ [])
    (hdecorators : ∀ decorator ∈ decorators, IsDecorator decorator)
    (hlast : StartsWithStatementWord last) :
    ∃ offset,
      (ofSource (statement ++ "\n" ++ onLines (doc :: decorators) last)).root.children =
        shift offset (ofSource last).root.children ∧
      (ofSource (statement ++ "\n" ++ onLines (doc :: decorators) last)).errors =
        shift offset (ofSource last).errors := by
  obtain ⟨tags, htags⟩ := hdoc.ofChars_append (statement.utf8ByteSize + 1) true []
    (onLines decorators last)
  obtain ⟨stream, stop, hstream, hsize, hle, hpasses, hdocs⟩ := exists_passes_onLines hne
    hdecorators (statement.utf8ByteSize + 1 + doc.utf8ByteSize + 1) tags last
  have hline : (onLines (doc :: decorators) last).utf8ByteSize =
      doc.utf8ByteSize + 1 + (onLines decorators last).utf8ByteSize := utf8ByteSize_onLine ..
  obtain ⟨keyword, stretch, hbegins⟩ := h.beginsWithLet (onLines (doc :: decorators) last) last
    (htags.trans hstream) (by omega) (by omega) hpasses
    (fun doc hdoc => by have := hdocs doc hdoc; omega) (hlast.begins _ _)
  exact ⟨_, hbegins.parse_eq⟩

end

end Parse

end DeclSchema
