import DeclSchema.Proofs.Parser.Following
import DeclSchema.Proofs.Parser.Sealing

/-!
# Sources put together

A source that is complete in itself is read the same with a statement on the line behind it,
and what follows is read as if it stood alone, and moved along.
-/

namespace DeclSchema

open DeclSchema.Parser TokenStream

namespace Parse

/-- The source is read without an error. None of its lexemes is of unknown kind, its
brackets are nested, angle brackets apart, and it ends as a statement does. -/
structure SelfContained (source : String) : Prop where
  accepted : (ofSource source).errors = []
  known : ∀ lexeme ∈ tokenize source, lexeme.kind ≠ .unknown
  nested : TokenKind.nests [] (((tokenize source).map (·.kind)).filter (!·.isAngle))
  ends : ∃ last ∈ (tokenize source).getLast?, last.kind = .rBrace ∨ last.kind = .semicolon

/-- The first lexeme that is no documentation is a word that starts a statement. -/
def StartsStatement (source : String) : Prop :=
  ∃ first ∈ ((tokenize source).filter (·.kind != .docComment)).head?,
    first.kind = .word ∧ first.text ∈ statementWords

instance (source : String) : Decidable (StartsStatement source) :=
  inferInstanceAs (Decidable (∃ first ∈ ((tokenize source).filter _).head?, _))

end Parse

namespace TokenStream

open Piece

theorem waitingBehind_of_lexemes_eq_nil {pieces : List Piece} {start : Nat}
    (h : lexemes start pieces = []) (pending : List DocTag) :
    waitingBehind pending pieces = pending := by
  induction pieces generalizing start with
  | nil => rfl
  | cons piece rest ih =>
    obtain ⟨kind, text⟩ := piece
    cases kind with
    | none => exact ih h
    | some kind => cases h

/-- No documentation waits behind a lexeme of another kind. -/
theorem waitingBehind_of_last {pieces : List Piece} {start : Nat} {last : Lexeme}
    (h : (lexemes start pieces).getLast? = some last) (hkind : last.kind ≠ .docComment)
    (pending : List DocTag) : waitingBehind pending pieces = [] := by
  induction pieces generalizing start pending with
  | nil => cases h
  | cons piece rest ih =>
    obtain ⟨kind, text⟩ := piece
    cases kind with
    | none => exact ih h pending
    | some kind =>
      rw [lexemes] at h
      dsimp only at h
      by_cases hrest : lexemes (start + byteLength text) rest = []
      · rw [hrest, List.getLast?_singleton] at h
        obtain rfl := Option.some.inj h
        rw [waitingBehind_token hkind]
        exact waitingBehind_of_lexemes_eq_nil hrest []
      · obtain ⟨first, others, hcons⟩ := List.exists_cons_of_ne_nil hrest
        rw [hcons, List.getLast?_cons_cons, ← hcons] at h
        by_cases hdoc : kind = .docComment
        · subst hdoc
          exact ih h _
        · rw [waitingBehind_token hdoc]
          exact ih h []

end TokenStream

namespace Parse.SelfContained

variable {source : String}

theorem kinds_ofSource (source : String) :
    (State.ofSource source).rest.map (·.kind) =
      ((tokenize source).map (·.kind)).filter (· != .docComment) :=
  kinds_ofPieces 0 0 false [] _

theorem ended (h : SelfContained source) : Ended (State.ofSource source).rest := by
  obtain ⟨last, hlast, hkind⟩ := h.ends
  obtain ⟨before, hbefore⟩ := List.getLast?_eq_some_iff.mp hlast
  have hdoc : last.kind ≠ .docComment := by
    rcases hkind with hkind | hkind <;> simp [hkind]
  have hkinds : ((State.ofSource source).rest.getLast?).map (·.kind) = some last.kind := by
    rw [← List.getLast?_map, kinds_ofSource, hbefore, List.map_append, List.filter_append,
      List.map_singleton, List.filter_cons_of_pos (by simpa using hdoc), List.filter_nil,
      List.getLast?_concat]
  obtain ⟨token, htoken, hsame⟩ := Option.map_eq_some_iff.mp hkinds
  exact ⟨token, htoken, hsame ▸ hkind⟩

theorem loose (h : SelfContained source) : Loose (State.ofSource source).rest where
  ended := h.ended
  bracketed := by
    refine ⟨[], ?_⟩
    rw [Bracketed, kinds_ofSource, List.filter_comm, nests_filter]
    exact h.nested

theorem fits (h : SelfContained source) (rest : String) (length : Nat) :
    Fits (.behind .loose (ofChars (source.utf8ByteSize + 1) true [] rest.toList) length) 0
      (.ofSource source) where
  before _ hdoc := absurd hdoc List.not_mem_nil
  after doc hdoc token htoken := by
    have hdoc := le_of_mem_docs_ofChars hdoc
    have htoken := ((inOrder_ofSource source).bounds htoken).2
    show doc.1 ≠ token.span.start + 0
    omega
  stretch := .inr (.inr ⟨rfl, h.loose.parted _⟩)

/-- No documentation of the first source waits at its end. -/
theorem ofSource_append (h : SelfContained source) (rest : String) :
    State.ofSource (source ++ "\n" ++ rest) =
      (Context.behind .loose (ofChars (source.utf8ByteSize + 1) true [] rest.toList)
        (source.utf8ByteSize + 1 + rest.utf8ByteSize)).embed (.ofSource source) := by
  obtain ⟨last, hlast, hkind⟩ := h.ends
  have hwaiting : waitingBehind [] (Piece.ofText source.toList) = [] :=
    waitingBehind_of_last hlast (by rcases hkind with hkind | hkind <;> simp [hkind]) []
  have hchars : (source ++ "\n" ++ rest).toList = source.toList ++ '\n' :: rest.toList := by
    rw [String.toList_append, String.toList_append, List.append_assoc]
    rfl
  have hlength : (source ++ "\n" ++ rest).utf8ByteSize =
      source.utf8ByteSize + 1 + rest.utf8ByteSize := by
    rw [String.utf8ByteSize_append, String.utf8ByteSize_append]
    rfl
  rw [ofSource_eq, hchars, ofChars_append (Piece.clean_of_tokenize h.known), hwaiting, hlength,
    Nat.zero_add, ← Piece.utf8ByteSize_eq, embed_behind]
  rfl

end Parse.SelfContained

namespace Parse

theorem StartsStatement.startsWithWord {source : String} (h : StartsStatement source)
    (offset : Nat) (newline : Bool) :
    StartsWithWord (ofChars offset newline [] source.toList).tokens := by
  obtain ⟨first, hfirst, hkind, -⟩ := h
  have hkinds : ((ofChars offset newline [] source.toList).tokens.head?).map (·.kind) =
      some first.kind := by
    rw [← List.head?_map]
    unfold ofChars
    rw [kinds_ofPieces 0, List.filter_map, List.head?_map]
    exact congrArg (Option.map (·.kind)) hfirst
  obtain ⟨token, htoken, hsame⟩ := Option.map_eq_some_iff.mp hkinds
  exact ⟨token, htoken, hsame.trans hkind⟩

/-- All of a source that is complete in itself is read, and with other text behind it that
text comes next. -/
theorem SelfContained.runs {source rest : String} (h : SelfContained source)
    (hrest : StartsStatement rest) (hkeeps : .gaveBack true ∉ journal source) :
    ∃ nodes t, sourceFile (.ofSource source) = (.ok nodes, t) ∧ t.rest = [] ∧ t.depth = 0 ∧
      t.errors = [] ∧ (∀ doc ∈ t.docs, doc.1 < source.utf8ByteSize + 1) ∧
      ∀ count, runsUpTo (count + 1) (.ofSource (source ++ "\n" ++ rest)) =
        ((nodes ++ ·) <$> runsUpTo (count + 1))
          ((Context.behind .loose (ofChars (source.utf8ByteSize + 1) true [] rest.toList)
            (source.utf8ByteSize + 1 + rest.utf8ByteSize)).embed t) := by
  have hc : (Context.behind .loose (ofChars (source.utf8ByteSize + 1) true [] rest.toList)
      (source.utf8ByteSize + 1 + rest.utf8ByteSize)).Precedes :=
    ⟨rfl, hrest.startsWithWord _ _⟩
  obtain ⟨nodes, t, hrun, ht, hembed⟩ := runsUpTo_embed hc (State.ofSource source).rest.length
    (.inr (h.fits rest _)) h.accepted hkeeps
  obtain ⟨nodes', t', hrun', ⟨b, hto⟩, -⟩ := runsUpTo_eq_ok
    ((State.ofSource source).rest.length + 1) (State.ordered_ofSource source)
    (fun _ he => absurd he List.not_mem_nil) (fun _ he => absurd he List.not_mem_nil)
  cases hrun.symm.trans hrun'
  have hfile : sourceFile (.ofSource source) = (.ok nodes, t) := hrun
  refine ⟨nodes, t, hfile, ht, hto.depth, ?_, fun doc hdoc => ?_, fun count => ?_⟩
  · have haccepted := h.accepted
    rwa [errors_ofSource, hfile] at haccepted
  · obtain ⟨token, htoken, hstart⟩ := mem_docs_ofPieces (hto.docs.subset hdoc)
    have := ((inOrder_ofSource source).bounds htoken).2
    omega
  · rw [h.ofSource_append, hembed]
    have hnodes : shift (Context.behind .loose (ofChars (source.utf8ByteSize + 1) true []
        rest.toList) (source.utf8ByteSize + 1 + rest.utf8ByteSize)).offset nodes = nodes :=
      shift_zero_nodes nodes
    rw [hnodes]

/-- Two sources with a line feed between them are read one after the other. -/
theorem ofSource_append {source rest : String} (h : SelfContained source)
    (hrest : StartsStatement rest) (hkeeps : .gaveBack true ∉ journal source) :
    (ofSource (source ++ "\n" ++ rest)).root.children = (ofSource source).root.children ++
        shift (source.utf8ByteSize + 1) (ofSource rest).root.children ∧
      (ofSource (source ++ "\n" ++ rest)).errors =
        shift (source.utf8ByteSize + 1) (ofSource rest).errors := by
  obtain ⟨nodes, t, halone, ht, hdepth, herrors, hdocs, hruns⟩ := h.runs hrest hkeeps
  have hlength : (State.ofSource rest).rest.length ≤
      (State.ofSource (source ++ "\n" ++ rest)).rest.length := by
    rw [h.ofSource_append]
    have hsame := length_tokens_ofChars 0 (source.utf8ByteSize + 1) false true [] [] rest.toList
    exact Nat.le_trans (Nat.le_of_eq hsame) (length_embed_behind ..)
  obtain ⟨others, u, v, hother, hbehind, hmoved⟩ := runsUpTo_behind .loose
    (source.utf8ByteSize + 1) ht hdepth hdocs rest hlength
  have hboth : sourceFile (.ofSource (source ++ "\n" ++ rest)) =
      (.ok (nodes ++ shift (source.utf8ByteSize + 1) others), v) := by
    rw [sourceFile, hruns]
    exact map_apply_ok _ hbehind
  rw [children_ofSource, children_ofSource, children_ofSource, errors_ofSource, errors_ofSource,
    halone, hboth, hother, hmoved, herrors]
  exact ⟨rfl, rfl⟩

end Parse

end DeclSchema
