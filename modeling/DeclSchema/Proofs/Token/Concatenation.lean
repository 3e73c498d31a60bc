import DeclSchema.Proofs.Parser.Shift
import DeclSchema.Proofs.Token.Longest
import DeclSchema.Proofs.Token.Tiling

/-!
# The tokens of a text put together from parts

Two texts with a line feed between them have the tokens of the first and, moved along,
those of the second, if the first is clean: none of its tokens is of unknown kind. The
white space at the seam may make one piece, so that all is said of characters, not of
pieces.
-/

namespace DeclSchema

open Pattern

namespace Piece

theorem take_eq_take {cs : List Char} {m n : Nat} (hm : cs.length ≤ m) (hn : cs.length ≤ n) :
    take m cs = take n cs := by
  induction n generalizing m cs with
  | zero =>
    have hcs : cs = [] := List.eq_nil_of_length_eq_zero (Nat.le_zero.mp hn)
    subst hcs
    cases m <;> rfl
  | succ n ih =>
    cases cs with
    | nil => cases m <;> rfl
    | cons c cs =>
      obtain ⟨m, rfl⟩ := Nat.exists_eq_add_one_of_ne_zero (Nat.ne_of_gt
        (Nat.lt_of_lt_of_le (Nat.zero_lt_succ _) hm))
      have hle := length_afterFirst_le c cs
      rw [List.length_cons] at hm hn
      rw [take, take, ih (by omega) (by omega)]

theorem ofText_cons (c : Char) (cs : List Char) :
    ofText (c :: cs) = first c cs :: ofText (afterFirst c cs) := by
  unfold ofText
  rw [List.length_cons, take, take_eq_take (length_afterFirst_le c cs) (Nat.le_refl _)]

theorem first_eq (c : Char) (cs : List Char) :
    first c cs = ⟨(next c cs).1, c :: cs.take ((next c cs).2 - 1)⟩ := rfl

/-- White space before a text makes one piece with what white space the text starts
with. -/
theorem ofText_separator {c : Char} (h : isSeparator c) (cs : List Char) :
    ∃ blank rest, blank.all isSeparator ∧ ofText (c :: cs) = ⟨none, c :: blank⟩ :: rest ∧
      ofText cs = (if blank = [] then [] else [⟨none, blank⟩]) ++ rest := by
  have hfirst : ∀ c cs, isSeparator c →
      ofText (c :: cs) = ⟨none, c :: cs.takeWhile isSeparator⟩ :: ofText (cs.dropWhile isSeparator) := by
    intro c cs h
    have hrun : (next c cs).2 - 1 = run isSeparator cs := by
      rw [next_of_isSeparator h]
      exact Nat.add_sub_cancel_left ..
    rw [ofText_cons, first_eq, afterFirst, hrun, take_run, drop_run, next_of_isSeparator h]
  refine ⟨cs.takeWhile isSeparator, _, List.all_takeWhile, hfirst c cs h, ?_⟩
  cases cs with
  | nil => rfl
  | cons d ds =>
    by_cases hd : isSeparator d
    · rw [List.takeWhile_cons_of_pos hd, List.dropWhile_cons_of_pos hd, hfirst d ds hd]
      rfl
    · rw [List.takeWhile_cons_of_neg hd, List.dropWhile_cons_of_neg hd]
      rfl

section

variable {c : Char} {cs tail : List Char} (h : next c (cs ++ tail) = next c cs)

include h

theorem first_append : first c (cs ++ tail) = first c cs := by
  have hle := next_le c cs
  rw [first_eq, first_eq, h, List.take_append_of_le_length (by omega)]

theorem afterFirst_append : afterFirst c (cs ++ tail) = afterFirst c cs ++ tail := by
  have hle := next_le c cs
  unfold afterFirst
  rw [h, List.drop_append_of_le_length (by omega)]

end

/-- No piece of the text is of unknown kind. -/
def Clean (cs : List Char) : Prop :=
  ∀ piece ∈ ofText cs, piece.kind ≠ some .unknown

theorem clean_cons {c : Char} {cs : List Char} :
    Clean (c :: cs) ↔ (next c cs).1 ≠ some .unknown ∧ Clean (afterFirst c cs) := by
  unfold Clean
  rw [ofText_cons, List.forall_mem_cons]
  exact Iff.rfl

theorem clean_separator {c : Char} (h : isSeparator c) {cs : List Char} (hclean : Clean (c :: cs)) :
    Clean cs := by
  obtain ⟨blank, rest, -, hboth, hcs⟩ := ofText_separator h cs
  intro piece hpiece
  rw [hcs, List.mem_append] at hpiece
  rcases hpiece with hblank | hrest
  · split at hblank
    · exact absurd hblank List.not_mem_nil
    · rw [List.mem_singleton.mp hblank]
      simp
  · exact hclean piece (hboth ▸ List.mem_cons_of_mem _ hrest)

/-- The last piece of the text is a line comment. -/
def EndsInLine (cs : List Char) : Prop :=
  ∃ piece ∈ (ofText cs).getLast?, isOpenLine piece.text

theorem ofText_of_isOpenLine {cs : List Char} (h : isOpenLine cs) : ofText cs = [⟨none, cs⟩] := by
  unfold isOpenLine at h
  split at h
  · next rest =>
    have hnext : next '/' ('/' :: rest) = (none, ('/' :: rest).length + 1) := by
      show (none, 2 + run (· != '\n') rest) = _
      rw [run_of_all h, List.length_cons, Nat.add_comm]
    rw [ofText_cons, first_eq, afterFirst, hnext, Nat.add_sub_cancel, List.take_length,
      List.drop_length]
    rfl
  · cases h

theorem not_endsInLine_cons {c : Char} {cs : List Char} (h : ¬ EndsInLine (c :: cs)) :
    ¬ isOpenLine (c :: cs) ∧ ¬ EndsInLine (afterFirst c cs) := by
  constructor
  · intro hopen
    refine h ⟨⟨none, c :: cs⟩, ?_, hopen⟩
    rw [ofText_of_isOpenLine hopen]
    rfl
  · rintro ⟨piece, hpiece, hopen⟩
    refine h ⟨piece, ?_, hopen⟩
    rw [ofText_cons, List.getLast?_cons, Option.mem_def.mp hpiece]
    rfl

theorem not_endsInLine_separator {c : Char} (h : isSeparator c) {cs : List Char}
    (hends : ¬ EndsInLine (c :: cs)) : ¬ EndsInLine cs := by
  obtain ⟨blank, rest, hblank, hboth, hcs⟩ := ofText_separator h cs
  rintro ⟨piece, hpiece, hopen⟩
  rw [hcs] at hpiece
  by_cases hrest : rest = []
  · subst hrest
    rw [List.append_nil] at hpiece
    split at hpiece
    · cases hpiece
    · obtain rfl : ⟨none, blank⟩ = piece := by simpa using hpiece
      cases blank with
      | nil => cases hopen
      | cons first blank =>
        -- White space does not begin with a slash.
        have hfirst : isSeparator first := (Bool.and_eq_true_iff.mp hblank).1
        unfold isOpenLine at hopen
        split at hopen
        · next heq =>
          cases heq
          cases hfirst
        · cases hopen
  · refine hends ⟨piece, ?_, hopen⟩
    have hlast : rest.getLast? = some (rest.getLast hrest) := List.getLast?_eq_some_getLast hrest
    rw [List.getLast?_append, hlast, Option.some_or] at hpiece
    rw [hboth, List.getLast?_cons, hlast]
    exact hpiece

end Piece

namespace TokenStream

open Piece

/-- The stream of a text that starts at an offset; `newline` and `pending` tell of the
text before it. -/
def ofChars (offset : Nat) (newline : Bool) (pending : List DocTag) (cs : List Char) :
    TokenStream :=
  ofPieces offset newline pending (ofText cs)

/-- The tags that still wait for a token behind some pieces. -/
def waitingBehind (pending : List DocTag) : List Piece → List DocTag
  | [] => pending
  | piece :: rest =>
    match piece.kind with
    | none => waitingBehind pending rest
    | some .docComment =>
      waitingBehind (pending ++ DocTag.ofComment (String.ofList piece.text)) rest
    | some _ => waitingBehind [] rest

/-- One stream before another. -/
instance : Append TokenStream :=
  ⟨fun first second => ⟨first.tokens ++ second.tokens, first.docs ++ second.docs⟩⟩

theorem docs_append (first second : TokenStream) :
    (first ++ second).docs = first.docs ++ second.docs := rfl

theorem append_assoc (first second third : TokenStream) :
    first ++ second ++ third = first ++ (second ++ third) :=
  TokenStream.mk.injEq .. ▸ ⟨List.append_assoc .., List.append_assoc ..⟩

/-- The stream of a token with the tags that waited for it. -/
def single (token : Token) (pending : List DocTag) : TokenStream :=
  ⟨[token], if pending.isEmpty then [] else [(token.span.start, pending)]⟩

section

variable {offset : Nat} {newline : Bool} {pending : List DocTag}

theorem ofPieces_token {kind : TokenKind} (h : kind ≠ .docComment) (text : List Char)
    (rest : List Piece) :
    ofPieces offset newline pending (⟨some kind, text⟩ :: rest) =
      single ⟨⟨kind, String.ofList text, ⟨offset, offset + byteLength text⟩⟩, newline⟩ pending ++
        ofPieces (offset + byteLength text) false [] rest := by
  cases kind with
  | docComment => exact absurd rfl h
  | _ =>
    refine TokenStream.mk.injEq .. ▸ ⟨rfl, ?_⟩
    dsimp only [single]
    split <;> rfl

theorem waitingBehind_token {kind : TokenKind} (h : kind ≠ .docComment) (text : List Char)
    (rest : List Piece) :
    waitingBehind pending (⟨some kind, text⟩ :: rest) = waitingBehind [] rest := by
  cases kind with
  | docComment => exact absurd rfl h
  | _ => rfl

theorem ofPieces_blank (text : List Char) (rest : List Piece) :
    ofPieces offset newline pending (⟨none, text⟩ :: rest) =
      ofPieces (offset + byteLength text) (newline || text.contains '\n') pending rest := rfl

theorem ofPieces_doc (text : List Char) (rest : List Piece) :
    ofPieces offset newline pending (⟨some .docComment, text⟩ :: rest) =
      ofPieces (offset + byteLength text) false
        (pending ++ DocTag.ofComment (String.ofList text)) rest := rfl

theorem ofChars_separator {c : Char} (h : isSeparator c) (cs : List Char) :
    ofChars offset newline pending (c :: cs) =
      ofChars (offset + c.utf8Size) (newline || c == '\n') pending cs := by
  obtain ⟨blank, rest, -, hboth, hcs⟩ := ofText_separator h cs
  unfold ofChars
  rw [hboth, hcs, ofPieces_blank, byteLength_cons, ← Nat.add_assoc, List.contains_cons,
    ← Bool.or_assoc, Bool.beq_comm]
  by_cases hblank : blank = []
  · subst hblank
    simp
  · rw [if_neg hblank, List.singleton_append, ofPieces_blank]

theorem waitingBehind_separator {c : Char} (h : isSeparator c) (cs : List Char) :
    waitingBehind pending (ofText (c :: cs)) = waitingBehind pending (ofText cs) := by
  obtain ⟨blank, rest, -, hboth, hcs⟩ := ofText_separator h cs
  rw [hboth, hcs]
  split <;> rfl

/-- A clean text and a character behind it that breaks leave to what follows only the tags
that still wait, and whether a line feed was seen. A line comment goes on up to a line
feed. -/
theorem exists_ofChars_append {d : Char} (hd : breaks d) (hgt : d ≠ '>') {cs : List Char}
    (hclean : Clean cs) (hline : d = '\n' ∨ ¬ EndsInLine cs) (tail : List Char) :
    ∃ behind, ofChars offset newline pending (cs ++ d :: tail) =
      ofChars offset newline pending cs ++
        ofChars (offset + byteLength cs) behind (waitingBehind pending (ofText cs)) (d :: tail) := by
  induction hlength : cs.length using Nat.strongRecOn generalizing offset newline pending cs with
  | ind length ih =>
    cases cs with
    | nil => exact ⟨newline, rfl⟩
    | cons c cs =>
      rw [List.cons_append]
      by_cases hsep : isSeparator c
      · obtain ⟨behind, hcs⟩ := ih cs.length (by simp [← hlength]) (clean_separator hsep hclean)
          (hline.imp id (not_endsInLine_separator hsep)) rfl
        refine ⟨behind, ?_⟩
        rw [ofChars_separator hsep, ofChars_separator hsep, waitingBehind_separator hsep, hcs,
          byteLength_cons, ← Nat.add_assoc]
      obtain ⟨hkind, hrest⟩ := clean_cons.mp hclean
      have hnext : next c (cs ++ d :: tail) = next c cs :=
        next_append hd (fun _ => hgt) hsep hkind
          (hline.imp id fun hends => (not_endsInLine_cons hends).1) tail
      have hle := length_afterFirst_le c cs
      have hbytes : byteLength (first c cs).text + byteLength (afterFirst c cs) =
          byteLength (c :: cs) := by
        rw [← byteLength_append, text_first_append_afterFirst]
      have hgo : ∀ offset newline pending, ∃ behind,
          ofChars offset newline pending (afterFirst c cs ++ d :: tail) =
            ofChars offset newline pending (afterFirst c cs) ++
              ofChars (offset + byteLength (afterFirst c cs)) behind
                (waitingBehind pending (ofText (afterFirst c cs))) (d :: tail) :=
        fun _ _ _ => ih _ (by rw [← hlength, List.length_cons]; omega) hrest
          (hline.imp id fun hends => (not_endsInLine_cons hends).2) rfl
      unfold ofChars at hgo ⊢
      rw [ofText_cons, ofText_cons, first_append hnext, afterFirst_append hnext, ← hbytes,
        ← Nat.add_assoc]
      generalize (first c cs) = piece at *
      obtain ⟨kind, text⟩ := piece
      cases kind with
      | none => exact hgo _ _ _
      | some kind =>
        by_cases hdoc : kind = .docComment
        · subst hdoc
          exact hgo _ _ _
        · obtain ⟨behind, hbehind⟩ := hgo (offset + byteLength text) false []
          refine ⟨behind, ?_⟩
          rw [ofPieces_token hdoc, ofPieces_token hdoc, waitingBehind_token hdoc, hbehind,
            append_assoc]

/-- A clean text and a line feed behind it leave to the text that follows only the tags
that still wait. -/
theorem ofChars_append {cs : List Char} (hclean : Clean cs) (tail : List Char) :
    ofChars offset newline pending (cs ++ '\n' :: tail) =
      ofChars offset newline pending cs ++
        ofChars (offset + byteLength cs + 1) true (waitingBehind pending (ofText cs)) tail := by
  obtain ⟨behind, happend⟩ := exists_ofChars_append (by decide) (by decide) hclean (.inl rfl) tail
  rw [happend, ofChars_separator (c := '\n') (by decide), beq_self_eq_true, Bool.or_true]
  rfl

/-- A token at the start of a text. -/
theorem ofChars_token {c : Char} {cs tail : List Char} {kind : TokenKind}
    (h : next c (cs ++ tail) = (some kind, cs.length + 1)) (hdoc : kind ≠ .docComment) :
    ofChars offset newline pending (c :: cs ++ tail) =
      single ⟨⟨kind, String.ofList (c :: cs), ⟨offset, offset + byteLength (c :: cs)⟩⟩, newline⟩
        pending ++ ofChars (offset + byteLength (c :: cs)) false [] tail := by
  have hfirst : first c (cs ++ tail) = ⟨some kind, c :: cs⟩ := by
    rw [first_eq, h, Nat.add_sub_cancel, List.take_left]
  have hafter : afterFirst c (cs ++ tail) = tail := by
    rw [afterFirst, h, Nat.add_sub_cancel, List.drop_left]
  unfold ofChars
  rw [List.cons_append, ofText_cons, hfirst, hafter, ofPieces_token hdoc]

theorem ofChars_word {word : List Char} (h : isWord word) {d : Char} (hd : ¬ continuesWord d)
    (tail : List Char) :
    ofChars offset newline pending (word ++ d :: tail) =
      single ⟨⟨.word, String.ofList word, ⟨offset, offset + byteLength word⟩⟩, newline⟩ pending ++
        ofChars (offset + byteLength word) false [] (d :: tail) := by
  cases word with
  | nil => cases h
  | cons c cs => exact ofChars_token (next_word h hd tail) (by decide)

theorem ofChars_mark {c : Char} {kind : TokenKind} (h : TokenKind.ofMark? c = some kind)
    (hlong : c ∉ ['/', '.', '=']) (hdoc : kind ≠ .docComment) (tail : List Char) :
    ofChars offset newline pending (c :: tail) =
      single ⟨⟨kind, String.ofList [c], ⟨offset, offset + byteLength [c]⟩⟩, newline⟩ pending ++
        ofChars (offset + byteLength [c]) false [] tail := by
  show ofChars offset newline pending ([c] ++ tail) = _
  exact ofChars_token (next_mark h hlong ([] ++ tail)) hdoc

theorem ofPieces_add (count : Nat) (pieces : List Piece) :
    ofPieces (offset + count) newline pending pieces =
      ⟨shift count (ofPieces offset newline pending pieces).tokens,
        (ofPieces offset newline pending pieces).docs.map fun doc => (doc.1 + count, doc.2)⟩ := by
  induction pieces generalizing offset newline pending with
  | nil => rfl
  | cons piece rest ih =>
    obtain ⟨kind, text⟩ := piece
    cases kind with
    | none =>
      rw [ofPieces_blank, ofPieces_blank, Nat.add_right_comm, ih]
    | some kind =>
      by_cases hdoc : kind = .docComment
      · subst hdoc
        rw [ofPieces_doc, ofPieces_doc, Nat.add_right_comm, ih]
      · rw [ofPieces_token hdoc, ofPieces_token hdoc, Nat.add_right_comm, ih]
        refine TokenStream.mk.injEq .. ▸ ⟨?_, ?_⟩
        · rfl
        · rw [docs_append, List.map_append]
          congr 1
          unfold single
          split <;> rfl

end

/-- The first of some tokens is put on a line of its own, or on that of what stands
before it. -/
def withNewline (newline : Bool) : List Token → List Token
  | [] => []
  | token :: rest => { token with newlineBefore := newline } :: rest

/-- Whether a line feed was seen before a text matters only to its first token. -/
theorem ofPieces_newline (offset : Nat) (newline newline' : Bool) (pending : List DocTag)
    (pieces : List Piece) :
    (∃ first, (ofPieces offset newline pending pieces).tokens =
        withNewline first (ofPieces offset newline' pending pieces).tokens) ∧
      (ofPieces offset newline pending pieces).docs =
        (ofPieces offset newline' pending pieces).docs := by
  induction pieces generalizing offset newline newline' pending with
  | nil => exact ⟨⟨false, rfl⟩, rfl⟩
  | cons piece rest ih =>
    obtain ⟨kind, text⟩ := piece
    cases kind with
    | none =>
      rw [ofPieces_blank, ofPieces_blank]
      exact ih ..
    | some kind =>
      by_cases hdoc : kind = .docComment
      · subst hdoc
        rw [ofPieces_doc, ofPieces_doc]
        exact ih ..
      · rw [ofPieces_token hdoc, ofPieces_token hdoc]
        exact ⟨⟨newline, rfl⟩, rfl⟩

/-- Documentation stands before tokens. -/
theorem mem_docs_ofPieces {offset : Nat} {newline : Bool} {pending : List DocTag}
    {pieces : List Piece} {doc : Nat × List DocTag}
    (h : doc ∈ (ofPieces offset newline pending pieces).docs) :
    ∃ token ∈ (ofPieces offset newline pending pieces).tokens, token.span.start = doc.1 := by
  induction pieces generalizing offset newline pending with
  | nil => exact absurd h List.not_mem_nil
  | cons piece rest ih =>
    obtain ⟨kind, text⟩ := piece
    cases kind with
    | none => exact ih h
    | some kind =>
      by_cases hdoc : kind = .docComment
      · subst hdoc
        exact ih h
      · rw [ofPieces_token hdoc] at h ⊢
        rcases List.mem_append.mp h with hown | hrest
        · refine ⟨_, List.mem_append_left _ (List.mem_singleton.mpr rfl), ?_⟩
          unfold single at hown
          dsimp only at hown
          split at hown
          · exact absurd hown List.not_mem_nil
          · rw [List.mem_singleton.mp hown]
        · obtain ⟨token, htoken, hstart⟩ := ih hrest
          exact ⟨token, List.mem_append_right _ htoken, hstart⟩

/-- The tokens of a stream are of the kinds of the lexemes, documentation left out. -/
theorem kinds_ofPieces (start offset : Nat) (newline : Bool) (pending : List DocTag)
    (pieces : List Piece) :
    (ofPieces offset newline pending pieces).tokens.map (·.kind) =
      ((lexemes start pieces).map (·.kind)).filter (· != .docComment) := by
  induction pieces generalizing start offset newline pending with
  | nil => rfl
  | cons piece rest ih =>
    obtain ⟨kind, text⟩ := piece
    cases kind with
    | none => exact ih ..
    | some kind =>
      rw [lexemes]
      dsimp only
      rw [List.map_cons, List.filter_cons]
      by_cases hdoc : kind = .docComment
      · subst hdoc
        exact ih ..
      · rw [ofPieces_token hdoc, if_pos (by simpa using hdoc), ← ih]
        rfl

end TokenStream

namespace Piece

theorem mem_lexemes_of_kind {pieces : List Piece} {piece : Piece} (hpiece : piece ∈ pieces)
    {kind : TokenKind} (hkind : piece.kind = some kind) (offset : Nat) :
    ∃ lexeme ∈ lexemes offset pieces, lexeme.kind = kind := by
  induction pieces generalizing offset with
  | nil => exact absurd hpiece List.not_mem_nil
  | cons first rest ih =>
    rcases List.mem_cons.mp hpiece with rfl | hrest
    · rw [lexemes, hkind]
      exact ⟨_, List.mem_cons_self, rfl⟩
    · obtain ⟨lexeme, hlexeme, hsame⟩ := ih hrest (offset + byteLength first.text)
      refine ⟨lexeme, ?_, hsame⟩
      rw [lexemes]
      split
      · exact hlexeme
      · exact List.mem_cons_of_mem _ hlexeme

theorem clean_of_tokenize {source : String}
    (h : ∀ lexeme ∈ tokenize source, lexeme.kind ≠ .unknown) : Clean source.toList := by
  intro piece hpiece hkind
  obtain ⟨lexeme, hlexeme, hunknown⟩ := mem_lexemes_of_kind hpiece hkind 0
  exact h lexeme hlexeme hunknown

end Piece

end DeclSchema
