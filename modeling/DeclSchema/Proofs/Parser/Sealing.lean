import DeclSchema.Extraction.Basic
import DeclSchema.Proofs.Parser.Interface
import DeclSchema.Proofs.Parser.Restart

/-!
# Malformed interfaces are sealed off

An interface is read by itself, whatever its body holds, as long as the brackets of the
body are nested: what follows is read as if it stood alone, and moved along.
-/

namespace DeclSchema

open Pattern TokenStream DeclSchema.Parser

/-- An interface with a name and any text for its body. -/
def interfaceText (name body : String) : String :=
  "interface " ++ name ++ " \x7b\n" ++ body ++ "\n\x7d"

namespace TokenStream

open Piece

section

variable (name body : List Char)

/-- The word `interface` at the start of a source. -/
def keywordToken : Token :=
  ⟨⟨.word, "interface", ⟨0, 9⟩⟩, false⟩

/-- The name of an interface at the start of a source. -/
def nameToken : Token :=
  ⟨⟨.word, String.ofList name, ⟨10, 10 + byteLength name⟩⟩, false⟩

/-- The brace behind the name. -/
def openingToken : Token :=
  ⟨⟨.lBrace, "\x7b", ⟨11 + byteLength name, 12 + byteLength name⟩⟩, false⟩

/-- The stream of the body, on the line behind the brace. -/
def bodyStream : TokenStream :=
  ofChars (13 + byteLength name) true [] body

/-- The brace on the line behind the body. -/
def closingToken : Token :=
  ⟨⟨.rBrace, "\x7d", ⟨14 + byteLength name + byteLength body,
    15 + byteLength name + byteLength body⟩⟩, true⟩

/-- The stream of an interface at the start of a source. -/
def interfaceStream : TokenStream :=
  single keywordToken [] ++ (single (nameToken name) [] ++ (single (openingToken name) [] ++
    (bodyStream name body ++ single (closingToken name body) (waitingBehind [] (ofText body)))))

variable {name body}

/-- An interface around a clean text is read up to its closing brace, whatever follows. -/
theorem ofChars_interface (hname : isWord name) (hbody : Clean body) (tail : List Char) :
    ofChars 0 false [] ("interface".toList ++ ' ' :: (name ++ ' ' :: '{' :: '\n' ::
        (body ++ '\n' :: '}' :: tail))) =
      interfaceStream name body ++
        ofChars (15 + byteLength name + byteLength body) false [] tail := by
  have hkeyword : (0 : Nat) + byteLength "interface".toList = 9 := by decide
  have hspace : ' '.utf8Size = 1 := by decide
  have hopen : byteLength ['{'] = 1 := by decide
  have hfeed : '\n'.utf8Size = 1 := by decide
  have hclose : byteLength ['}'] = 1 := by decide
  rw [ofChars_word (by decide) (by decide), ofChars_separator (by decide),
    ofChars_word hname (by decide), ofChars_separator (by decide),
    ofChars_mark (show TokenKind.ofMark? '{' = some .lBrace from rfl) (by decide) (by decide),
    ofChars_separator (by decide), ofChars_append hbody,
    ofChars_mark (show TokenKind.ofMark? '}' = some .rBrace from rfl) (by decide) (by decide),
    hkeyword, hspace, hopen, hfeed, hclose]
  have hstop : 9 + 1 + byteLength name + 1 = 11 + byteLength name := by omega
  have hbehind : 11 + byteLength name + 1 = 12 + byteLength name := by omega
  have hline : 12 + byteLength name + 1 = 13 + byteLength name := by omega
  have hbrace : 13 + byteLength name + byteLength body + 1 =
    14 + byteLength name + byteLength body := by omega
  have hend : 14 + byteLength name + byteLength body + 1 =
    15 + byteLength name + byteLength body := by omega
  rw [hstop, hbehind, hline, hbrace, hend, String.ofList_toList]
  unfold interfaceStream
  rw [append_assoc, append_assoc, append_assoc, append_assoc]
  rfl

end

section

variable {name body : List Char}

theorem span_mem_bodyStream {token : Token} (h : token ∈ (bodyStream name body).tokens) :
    13 + byteLength name ≤ token.span.start ∧
      token.span.start < 13 + byteLength name + byteLength body := by
  have horder := inOrder_ofPieces
    (fun piece (hpiece : piece ∈ ofText body) => ne_nil_of_mem_ofText hpiece)
    (13 + byteLength name) true []
  rw [totalLength_ofText] at horder
  exact horder.bounds h

/-- Documentation of an interface stands in its body or before its closing brace. -/
theorem mem_docs_interfaceStream {doc : Nat × List DocTag}
    (h : doc ∈ (interfaceStream name body).docs) :
    13 + byteLength name ≤ doc.1 ∧ doc.1 < 15 + byteLength name + byteLength body := by
  have hsplit : (interfaceStream name body).docs = (bodyStream name body).docs ++
    (single (closingToken name body) (waitingBehind [] (ofText body))).docs := rfl
  rw [hsplit, List.mem_append] at h
  rcases h with hbody | hclosing
  · obtain ⟨token, htoken, hstart⟩ := mem_docs_ofPieces hbody
    have := span_mem_bodyStream htoken
    omega
  · unfold single at hclosing
    dsimp only at hclosing
    split at hclosing
    · exact absurd hclosing List.not_mem_nil
    · rw [List.mem_singleton.mp hclosing, closingToken]
      dsimp only
      omega

end

end TokenStream

namespace Parser

/-- The context of a stretch that starts a source and that other tokens follow. -/
def Context.behind (ending : Ending) (tail : TokenStream) (length : Nat) : Context where
  ending := ending
  offset := 0
  docsBefore := []
  docsAfter := tail.docs
  errors := []
  journal := []
  tail := tail.tokens
  length := length

theorem embed_behind (ending : Ending) (tail : TokenStream) (length : Nat) (s : State) :
    (Context.behind ending tail length).embed s =
      { s with rest := s.rest ++ tail.tokens, docs := s.docs ++ tail.docs, length } := by
  have hdocs : s.docs.map (Context.behind ending tail length).doc = s.docs :=
    (List.map_congr_left fun _ _ => rfl).trans (List.map_id _)
  have hevent : ∀ event, (Context.behind ending tail length).event event = event := by
    intro event
    cases event with
    | declared node before after =>
      show Event.declared (shift 0 node) ([] ++ shift 0 before) ([] ++ shift 0 after) = _
      rw [shift_zero_node, shift_zero_errors, shift_zero_errors, List.nil_append, List.nil_append]
    | _ => rfl
  have hjournal : s.journal.map (Context.behind ending tail length).event = s.journal :=
    (List.map_congr_left fun event _ => hevent event).trans (List.map_id _)
  unfold Context.embed
  rw [hdocs, hjournal]
  show State.mk (shift 0 s.rest ++ tail.tokens) (s.prevEnd + 0) length ([] ++ s.docs ++ tail.docs)
    s.depth ([] ++ shift 0 s.errors) ([] ++ s.journal) = _
  rw [shift_zero_tokens, shift_zero_errors]
  rfl

/-- The context of a source that other text stands before, read up to a state. -/
def Context.after (s : State) (offset length : Nat) : Context where
  ending := .final
  offset := offset
  docsBefore := s.docs
  docsAfter := []
  errors := s.errors
  journal := s.journal
  tail := []
  length := length

section

open TokenKind

variable {name body : List Char}

/-- Before an interface at the start of a source. -/
def interfaceState (name body : List Char) : State :=
  ⟨(interfaceStream name body).tokens, 0, 15 + Piece.byteLength name + Piece.byteLength body,
    (interfaceStream name body).docs, 0, [], []⟩

theorem lt_interfaceState {tail : TokenStream}
    (htail : ∀ doc ∈ tail.docs, 15 + Piece.byteLength name + Piece.byteLength body ≤ doc.1) :
    ∀ doc ∈ (interfaceState name body).docs ++ tail.docs,
      (interfaceState name body).start < doc.1 := by
  have hstart : (interfaceState name body).start = 0 := rfl
  intro doc hdoc
  rw [hstart]
  rcases List.mem_append.mp hdoc with hown | hbehind
  · have := mem_docs_interfaceStream hown
    omega
  · have := htail doc hbehind
    omega

theorem nests_filter {awaited kinds : List TokenKind} :
    nests awaited (kinds.filter (· != .docComment)) = nests awaited kinds := by
  induction kinds generalizing awaited with
  | nil => rfl
  | cons kind rest ih =>
    rw [List.filter_cons]
    by_cases hdoc : kind = .docComment
    · subst hdoc
      exact ih
    · rw [if_pos (by simpa using hdoc), nests, nests]
      cases awaitedBehind awaited kind with
      | none => rfl
      | some awaited => exact ih

/-- Behind its opening brace an interface is sealed if the brackets of its body are
nested. -/
theorem sealed_interfaceState
    (h : nests [] ((Piece.lexemes 0 (Piece.ofText body)).map (·.kind))) :
    SealedAt 0 ((interfaceState name body).advance 3).rest := by
  refine ⟨[], sealed_of_nests ?_ rfl, rfl⟩
  rw [← nests_filter, ← kinds_ofPieces 0 (13 + Piece.byteLength name) true []] at h
  exact h

theorem fits_interfaceState {tail : TokenStream} {length : Nat}
    (h : nests [] ((Piece.lexemes 0 (Piece.ofText body)).map (·.kind)))
    (htail : ∀ doc ∈ tail.docs, 15 + Piece.byteLength name + Piece.byteLength body ≤ doc.1) :
    Fits (.behind .sealed tail length) 0 ((interfaceState name body).advance 3) where
  before _ hdoc := absurd hdoc List.not_mem_nil
  after doc hdoc token htoken := by
    have hdoc := htail doc hdoc
    have htoken : token ∈ (bodyStream name body).tokens ++ [closingToken name body] := htoken
    show doc.1 ≠ token.span.start + 0
    rcases List.mem_append.mp htoken with hbody | hclosing
    · have := span_mem_bodyStream hbody
      omega
    · rw [List.mem_singleton.mp hclosing, closingToken]
      dsimp only
      omega
  stretch := .inr (.inl ⟨rfl, sealed_interfaceState h⟩)

theorem lookup_of_lt {docs : List (Nat × List DocTag)} {start : Nat}
    (h : ∀ doc ∈ docs, start < doc.1) : docs.lookup start = none :=
  List.lookup_eq_none_iff.mpr fun doc hdoc => bne_iff_ne.mpr (Nat.ne_of_lt (h doc hdoc))

/-- If the members of an interface are the same whatever follows, the statement is. -/
theorem statement_interface_behind (block : Parser (List Node)) {tail : TokenStream}
    {length : Nat} {s u : State} {keyword name opening closing : Token} {rest : List Token}
    {inside : List Node} (hrest : s.rest = keyword :: name :: opening :: rest)
    (hkeyword : keyword.word? = some "interface") (hname : name.kind = .word)
    (hopen : opening.kind = .lBrace) (hdocs : ∀ doc ∈ s.docs ++ tail.docs, s.start < doc.1)
    (hinside : typeMembers type (s.advance 3) = (.ok inside, u))
    (hsame : typeMembers type (((Context.behind .sealed tail length).embed s).advance 3) =
      (.ok inside, (Context.behind .sealed tail length).embed u))
    (hbehind : u.rest = [closing]) (hclose : closing.kind = .rBrace) :
    ∃ t, statement block s = (.ok (some (interfaceNode s (u.advance 1) name inside)), t) ∧
      statement block ((Context.behind .sealed tail length).embed s) =
        (.ok (some (interfaceNode s (u.advance 1) name inside)),
          (Context.behind .sealed tail length).embed t) ∧ t.rest = [] := by
  have hrun := statement_interface block hrest hkeyword hname hopen
    (lookup_of_lt fun doc hdoc => hdocs doc (List.mem_append_left _ hdoc)) hinside hbehind hclose
  refine ⟨_, hrun, ?_, rest_advance_one hbehind⟩
  have hembed := embed_behind .sealed tail length
  have hstart : ((Context.behind .sealed tail length).embed s).start = s.start := by
    rw [hembed]
    unfold State.start
    rw [hrest]
    rfl
  have hadvance : ((Context.behind .sealed tail length).embed u).advance 1 =
      (Context.behind .sealed tail length).embed (u.advance 1) := embed_advance_one hbehind
  have hrest' : ((Context.behind .sealed tail length).embed s).rest =
      keyword :: name :: opening :: (rest ++ tail.tokens) := by
    rw [hembed, hrest]
    rfl
  have hbehind' : ((Context.behind .sealed tail length).embed u).rest = closing :: tail.tokens := by
    rw [hembed, hbehind]
    rfl
  have hrun' := statement_interface block hrest' hkeyword hname hopen
    (by rw [hstart, hembed]; exact lookup_of_lt hdocs) hsame hbehind' hclose
  have hnode : interfaceNode ((Context.behind .sealed tail length).embed s)
      (((Context.behind .sealed tail length).embed u).advance 1) name inside =
      interfaceNode s (u.advance 1) name inside := by
    rw [hadvance, interfaceNode, Heading.node, hstart]
    rfl
  rw [hrun', hnode, hadvance]
  simp only [hembed]
  rfl

/-- A statement that is an interface with a sealed body is the same whatever follows. -/
theorem statement_sealed (name : List Char) (block : Parser (List Node)) [Forward block]
    (tail : TokenStream) (length : Nat) (h : nests [] ((Piece.lexemes 0 (Piece.ofText body)).map (·.kind)))
    (hcalm : .refused ∉ (statement block (interfaceState name body)).2.journal)
    (htail : ∀ doc ∈ tail.docs, 15 + Piece.byteLength name + Piece.byteLength body ≤ doc.1) :
    ∃ node t, statement block (interfaceState name body) = (.ok (some node), t) ∧
      statement block ((Context.behind .sealed tail length).embed (interfaceState name body)) =
        (.ok (some node), (Context.behind .sealed tail length).embed t) ∧
      node.kind = .interfaceDeclaration ∧
      node.childText [.identifier] = some (String.ofList name) ∧
      node.span = ⟨0, 15 + Piece.byteLength name + Piece.byteLength body⟩ ∧ t.rest = [] := by
  have hrest : (interfaceState name body).rest = keywordToken :: nameToken name ::
    openingToken name :: ((bodyStream name body).tokens ++ [closingToken name body]) := rfl
  obtain ⟨inside, u, hinside, hends⟩ := membersUpTo_ends (some <$> typeMember type)
    (show ¬ separatesTypeMembers .rBrace by decide) recovers_malformedLength
    ((consumes_typeMember type).map some).member ((interfaceState name body).advance 3).rest.length
    _ (Nat.le_refl _)
  have hmembers : typeMembers type ((interfaceState name body).advance 3) = (.ok inside, u) :=
    hinside
  have hjournal := (leadsTo_interface block hrest rfl rfl rfl (lookup_of_lt fun doc hdoc =>
    lt_interfaceState htail doc (List.mem_append_left _ hdoc))).journal
  rw [hmembers] at hjournal
  have hfits : Fits (.behind .sealed tail length) 0 ((interfaceState name body).advance 3) :=
    fits_interfaceState h htail
  obtain ⟨hsame, hu⟩ := (carried_typeMembers carried_type 0 _).of_run hfits hmembers
    ⟨fun _ hmem => hcalm (hjournal.subset hmem), nofun, nofun⟩
  have hsealed := hu.sealedAt rfl
  obtain ⟨closing, behind, hbehind⟩ := List.exists_cons_of_ne_nil hsealed.ne_nil
  have hclose : closing.kind = .rBrace := endsMembers_iff.mp hends closing (by simp [hbehind])
  rw [hbehind] at hsealed
  obtain rfl := hsealed.eq_nil_of_rBrace hclose
  obtain rfl : closing = closingToken name body := by
    obtain ⟨before, hbefore⟩ := Forward.rest (p := typeMembers type)
      ((interfaceState name body).advance 3)
    rw [hmembers] at hbefore
    have hlast : (before ++ [closing]).getLast? =
        ((bodyStream name body).tokens ++ [closingToken name body]).getLast? :=
      congrArg _ (hbehind ▸ hbefore)
    rw [List.getLast?_concat, List.getLast?_concat] at hlast
    exact Option.some.inj hlast
  have hmembers' : typeMembers type
      (((Context.behind .sealed tail length).embed (interfaceState name body)).advance 3) =
      (.ok inside, (Context.behind .sealed tail length).embed u) := by
    rw [Context.embed_advance _ (.inl (by simp [hrest])), hsame]
    exact congrArg (Except.ok ·, _) (shift_zero_nodes inside)
  obtain ⟨t, hrun, hrun', ht⟩ := statement_interface_behind block hrest rfl rfl rfl
    (lt_interfaceState htail) hmembers hmembers' hbehind hclose
  refine ⟨_, t, hrun, hrun', rfl, rfl, ?_, ht⟩
  show Span.ofBounds 0 (u.advance 1).prevEnd = _
  rw [State.advance_one hbehind, Span.ofBounds, Nat.max_zero]
  rfl

theorem not_endsMembers_of_keyword {s : State} {rest : List Token}
    (h : s.rest = keywordToken :: rest) : ¬ s.endsMembers := by
  intro hends
  exact absurd (endsMembers_iff.mp hends keywordToken (by simp [h])) (by decide)

theorem not_isAt_of_keyword {s : State} {rest : List Token}
    (h : s.rest = keywordToken :: rest) : ¬ s.isAt .semicolon :=
  mt (isAt_iff h).mp (by decide)

/-- What stands before the first statement leaves no trace. -/
theorem result_runsUpTo_restart (s : State) (count stop : Nat) (newline : Bool) :
    (runsUpTo (count + 1) (s.restart stop newline)).1 = (runsUpTo (count + 1) s).1 ∧
      (runsUpTo (count + 1) (s.restart stop newline)).2.errors =
        (runsUpTo (count + 1) s).2.errors := by
  by_cases h : s.rest = []
  · rw [runsUpTo_of_rest_eq_nil h, runsUpTo_of_rest_eq_nil (restart_of_rest_eq_nil h)]
    exact ⟨rfl, rfl⟩
  · rw [runsUpTo_restart h]
    exact ⟨rfl, rfl⟩

theorem toList_interfaceText (name body : String) (tail : List Char) :
    (interfaceText name body).toList ++ tail = "interface".toList ++ ' ' ::
      (name.toList ++ ' ' :: '{' :: '\n' :: (body.toList ++ '\n' :: '}' :: tail)) := by
  unfold interfaceText
  simp only [String.toList_append]
  simp

theorem utf8ByteSize_interfaceText (name body : String) :
    (interfaceText name body).utf8ByteSize =
      15 + Piece.byteLength name.toList + Piece.byteLength body.toList := by
  rw [Piece.utf8ByteSize_eq, ← List.append_nil (interfaceText name body).toList,
    toList_interfaceText]
  simp only [Piece.byteLength_append, Piece.byteLength_cons, Piece.byteLength_nil]
  have hkeyword : Piece.byteLength "interface".toList = 9 := by decide
  have hspace : ' '.utf8Size = 1 := by decide
  have hopen : '{'.utf8Size = 1 := by decide
  have hfeed : '\n'.utf8Size = 1 := by decide
  have hclose : '}'.utf8Size = 1 := by decide
  omega

theorem ofSource_eq (source : String) :
    State.ofSource source = ⟨(ofChars 0 false [] source.toList).tokens, 0, source.utf8ByteSize,
      (ofChars 0 false [] source.toList).docs, 0, [], []⟩ := rfl

/-- The text behind an interface and a line feed, as a stream of its own. -/
theorem ofSource_interfaceText {name body : String} (hname : isWord name.toList)
    (hbody : Piece.Clean body.toList) :
    State.ofSource (interfaceText name body) = interfaceState name.toList body.toList := by
  have hstream := ofChars_interface hname hbody []
  rw [← toList_interfaceText, List.append_nil] at hstream
  rw [ofSource_eq, hstream, utf8ByteSize_interfaceText]
  show State.mk ((interfaceStream _ _).tokens ++ []) _ _ ((interfaceStream _ _).docs ++ []) _ _ _ = _
  rw [List.append_nil, List.append_nil]
  rfl

theorem ofSource_interfaceText_append {name body : String} (hname : isWord name.toList)
    (hbody : Piece.Clean body.toList) (rest : String) :
    State.ofSource (interfaceText name body ++ "\n" ++ rest) =
      (Context.behind .sealed
        (ofChars ((interfaceText name body).utf8ByteSize + 1) true [] rest.toList)
        ((interfaceText name body).utf8ByteSize + 1 + rest.utf8ByteSize)).embed
        (interfaceState name.toList body.toList) := by
  have hstream := ofChars_interface hname hbody ('\n' :: rest.toList)
  have hchars : (interfaceText name body ++ "\n" ++ rest).toList =
      (interfaceText name body).toList ++ '\n' :: rest.toList := by
    simp only [String.toList_append, List.append_assoc]
    simp
  have hlength : (interfaceText name body ++ "\n" ++ rest).utf8ByteSize =
      (interfaceText name body).utf8ByteSize + 1 + rest.utf8ByteSize := by
    rw [String.utf8ByteSize_append, String.utf8ByteSize_append]
    rfl
  rw [← toList_interfaceText, ← hchars, ofChars_separator (c := '\n') (by decide),
    ← utf8ByteSize_interfaceText] at hstream
  rw [ofSource_eq, hstream, hlength, embed_behind]
  rfl

theorem le_of_mem_docs_ofChars {offset : Nat} {newline : Bool} {pending : List DocTag}
    {cs : List Char} {doc : Nat × List DocTag}
    (h : doc ∈ (ofChars offset newline pending cs).docs) : offset ≤ doc.1 := by
  obtain ⟨token, htoken, hstart⟩ := mem_docs_ofPieces h
  have horder := inOrder_ofPieces
    (fun piece (hpiece : piece ∈ Piece.ofText cs) => Piece.ne_nil_of_mem_ofText hpiece)
    offset newline pending
  exact hstart ▸ (horder.bounds htoken).1

/-- Documentation stands within the text it is in. -/
theorem bounds_of_mem_docs_ofChars {offset : Nat} {newline : Bool} {pending : List DocTag}
    {source : String} {doc : Nat × List DocTag}
    (h : doc ∈ (ofChars offset newline pending source.toList).docs) :
    offset ≤ doc.1 ∧ doc.1 < offset + source.utf8ByteSize := by
  obtain ⟨token, htoken, hstart⟩ := mem_docs_ofPieces h
  have horder := inOrder_ofPieces
    (fun piece (hpiece : piece ∈ Piece.ofText source.toList) => Piece.ne_nil_of_mem_ofText hpiece)
    offset newline pending
  rw [Piece.totalLength_ofText, ← Piece.utf8ByteSize_eq] at horder
  exact hstart ▸ horder.bounds htoken

/-- How many tokens a text has does not depend on where it stands. -/
theorem length_tokens_ofChars (first second : Nat) (newline newline' : Bool)
    (pending pending' : List DocTag) (cs : List Char) :
    (ofChars first newline pending cs).tokens.length =
      (ofChars second newline' pending' cs).tokens.length := by
  have h := (kinds_ofPieces 0 first newline pending (Piece.ofText cs)).trans
    (kinds_ofPieces 0 second newline' pending' (Piece.ofText cs)).symm
  have hlengths := congrArg List.length h
  rwa [List.length_map, List.length_map] at hlengths

theorem length_embed_behind (ending : Ending) (tail : TokenStream) (length : Nat) (s : State) :
    tail.tokens.length ≤ ((Context.behind ending tail length).embed s).rest.length := by
  rw [embed_behind, List.length_append]
  exact Nat.le_add_left ..

/-- A source that is read behind other text, all of which is read, is read as it is by
itself. -/
theorem runsUpTo_behind (ending : Ending) (offset : Nat) {t : State} (hrest : t.rest = [])
    (hdepth : t.depth = 0) (hdocs : ∀ doc ∈ t.docs, doc.1 < offset) (rest : String) {count : Nat}
    (hcount : (State.ofSource rest).rest.length ≤ count) :
    ∃ nodes u v, sourceFile (.ofSource rest) = (.ok nodes, u) ∧
      runsUpTo (count + 1) ((Context.behind ending (ofChars offset true [] rest.toList)
        (offset + rest.utf8ByteSize)).embed t) = (.ok (shift offset nodes), v) ∧
      v.errors = t.errors ++ shift offset u.errors := by
  -- The tokens are those of the source by itself, but for the line of the first one.
  obtain ⟨⟨newline, htokens⟩, hsame⟩ :=
    ofPieces_newline offset true false [] (Piece.ofText rest.toList)
  have hmoved : ofPieces (0 + offset) false [] (Piece.ofText rest.toList) = _ :=
    ofPieces_add offset (Piece.ofText rest.toList)
  rw [Nat.zero_add] at hmoved
  rw [hmoved] at htokens hsame
  have hstate : (Context.behind ending (ofChars offset true [] rest.toList)
      (offset + rest.utf8ByteSize)).embed t =
      ((Context.after t offset (offset + rest.utf8ByteSize)).embed (.ofSource rest)).restart
        t.prevEnd newline := by
    rw [embed_behind, hrest]
    unfold ofChars
    rw [htokens, hsame]
    show _ = State.mk (withNewline newline (shift offset (State.ofSource rest).rest ++ [])) t.prevEnd
      (offset + rest.utf8ByteSize) (t.docs ++ (State.ofSource rest).docs.map _ ++ []) 0
      (t.errors ++ []) (t.journal ++ [])
    rw [List.append_nil, List.append_nil, List.append_nil, List.append_nil, hdepth]
    rfl
  rw [hstate]
  obtain ⟨hresult, herrors⟩ := result_runsUpTo_restart
    ((Context.after t offset (offset + rest.utf8ByteSize)).embed (.ofSource rest)) count t.prevEnd
    newline
  have hfits : Fits (.after t offset (offset + rest.utf8ByteSize)) 0 (.ofSource rest) :=
    ⟨hdocs, fun _ hdoc => absurd hdoc List.not_mem_nil, .inl ⟨rfl, rfl, rfl, Nat.add_comm ..⟩⟩
  have hagree : Agrees (.after t offset (offset + rest.utf8ByteSize)) 0 (.ofSource rest)
      (runsUpTo (count + 1)) (runsUpTo ((State.ofSource rest).rest.length + 1)) :=
    agrees_runsUpTo (by simp [Context.after]) _ _ _ (Nat.lt_succ_of_le hcount) (Nat.lt_succ_self _)
  obtain ⟨hagrees, -⟩ := hagree hfits (.of_final rfl)
  obtain ⟨nodes, u, hrun, -⟩ := runsUpTo_eq_ok ((State.ofSource rest).rest.length + 1)
    (State.ordered_ofSource rest) (fun _ he => absurd he List.not_mem_nil)
    (fun _ he => absurd he List.not_mem_nil)
  rw [hagrees, hrun] at hresult herrors
  generalize runsUpTo (count + 1) (State.restart _ _ _) = run at hresult herrors ⊢
  obtain ⟨result, v⟩ := run
  obtain rfl : result = .ok (shift offset nodes) := hresult
  exact ⟨nodes, u, v, hrun, rfl, herrors⟩

end

end Parser

namespace Parse

theorem children_ofSource (source : String) :
    (ofSource source).root.children =
      (sourceFile (.ofSource source)).1.toOption.getD [] := rfl

theorem errors_ofSource (source : String) :
    (ofSource source).errors = (sourceFile (.ofSource source)).2.errors := rfl

/-- An interface is sealed off from what follows it, whatever its body holds, if the
brackets of the body are nested, no text in it is of unknown kind, and no level of
nesting is refused: all other declarations and errors of the source are those of the text
behind it, moved along. -/
theorem sealed (name body rest : String) (hname : isWord name.toList)
    (hbody : ∀ lexeme ∈ tokenize body, lexeme.kind ≠ .unknown)
    (hnests : TokenKind.nests [] ((tokenize body).map (·.kind)))
    (hcalm : .refused ∉ journal (interfaceText name body)) :
    ∃ node,
      (ofSource (interfaceText name body)).root.children = [node] ∧
      node.kind = .interfaceDeclaration ∧
      Extraction.declaredName node = some name ∧
      node.span = ⟨0, (interfaceText name body).utf8ByteSize⟩ ∧
      (ofSource (interfaceText name body ++ "\n" ++ rest)).root.children =
        node :: shift ((interfaceText name body).utf8ByteSize + 1)
          (ofSource rest).root.children ∧
      (ofSource (interfaceText name body ++ "\n" ++ rest)).errors =
        (ofSource (interfaceText name body)).errors ++
          shift ((interfaceText name body).utf8ByteSize + 1) (ofSource rest).errors := by
  have hclean := Piece.clean_of_tokenize hbody
  have hlength := utf8ByteSize_interfaceText name body
  have hstate := ofSource_interfaceText hname hclean
  have hstate' := ofSource_interfaceText_append hname hclean rest
  obtain ⟨offset, hoffset⟩ : ∃ offset, offset = (interfaceText name body).utf8ByteSize + 1 :=
    ⟨_, rfl⟩
  rw [← hoffset] at hstate' ⊢
  have hends : ¬ (interfaceState name.toList body.toList).endsMembers :=
    not_endsMembers_of_keyword rfl
  have hsep : ¬ (interfaceState name.toList body.toList).isAt .semicolon :=
    not_isAt_of_keyword rfl
  have hjournal : (statement (blockWithin maxDepth)
      (interfaceState name.toList body.toList)).2.journal <+: journal (interfaceText name body) := by
    rw [journal, hstate]
    exact (leadsTo_runsUpTo hends hsep _).journal
  -- By itself and in front of the tail, the statement is the same.
  obtain ⟨node, t, hrun, hrun', hkind, htext, hspan, hrest⟩ := statement_sealed
    name.toList (blockWithin maxDepth) (ofChars offset true [] rest.toList)
    (offset + rest.utf8ByteSize) hnests (fun hmem => hcalm (hjournal.subset hmem))
    (fun doc hdoc => by have := le_of_mem_docs_ofChars hdoc; omega)
  obtain ⟨hto, -⟩ := (orderly_statement (trailing_blockWithin maxDepth)).of_ok
    (hstate ▸ State.ordered_ofSource _) hrun
  have halone : sourceFile (.ofSource (interfaceText name body)) = (.ok [node], t) := by
    rw [hstate, sourceFile, runsUpTo_of_statement hends hsep hrun]
    exact map_apply_ok _ (runsUpTo_of_rest_eq_nil hrest _)
  -- What follows is read as if it stood alone.
  obtain ⟨nodes, v, u, hother, hbehind, herrors⟩ := runsUpTo_behind .sealed offset hrest hto.depth
    (fun doc hdoc => by have := (mem_docs_interfaceStream (hto.docs.subset hdoc)).2; omega)
    rest (Nat.le_trans
      (Nat.le_of_eq (length_tokens_ofChars 0 offset false true [] [] rest.toList))
      (hstate' ▸ length_embed_behind .sealed _ (offset + rest.utf8ByteSize) _))
  have hboth : sourceFile (.ofSource (interfaceText name body ++ "\n" ++ rest)) =
      (.ok (node :: shift offset nodes), u) := by
    rw [sourceFile, runsUpTo_of_statement (not_endsMembers_of_keyword (by rw [hstate']; rfl))
      (not_isAt_of_keyword (by rw [hstate']; rfl)) (hstate' ▸ hrun')]
    exact map_apply_ok _ hbehind
  rw [children_ofSource, children_ofSource, children_ofSource, errors_ofSource, errors_ofSource,
    errors_ofSource, halone, hboth, hother]
  exact ⟨node, rfl, hkind, htext.trans (congrArg some String.ofList_toList),
    hspan.trans (by rw [hlength]), rfl, herrors⟩

/-- A body with an error in it does not touch a declaration behind it. -/
theorem sealed_malformed_body :
    ∃ node, (ofSource (interfaceText "A" "b: ;" ++ "\n" ++ "type C = \x7d")).root.children =
      node :: shift 21 (ofSource "type C = \x7d").root.children := by
  have hcalm : (journal (interfaceText "A" "b: ;")).all fun event =>
      event.ctorIdx != Event.refused.ctorIdx := by decide +kernel
  obtain ⟨node, -, -, -, -, hchildren, -⟩ := sealed "A" "b: ;" "type C = \x7d" (by decide)
    (by decide +kernel) (by decide +kernel)
    (fun hmem => Bool.false_ne_true (List.all_eq_true.mp hcalm _ hmem))
  exact ⟨node, hchildren⟩

end Parse

end DeclSchema
