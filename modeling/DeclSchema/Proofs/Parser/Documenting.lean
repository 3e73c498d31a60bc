import DeclSchema.Proofs.Parser.WalkingStatements
import DeclSchema.Proofs.Parser.Sealing
import Mathlib.Data.List.DropRight

/-!
# Documentation is attached where it stands

Documentation waits under the start of the token it stands before, and whoever reaches that
token first takes it. On a walk on which no return type is given back, what is taken lies
behind: in front of a token that is still to be read the documentation of the source waits. A
declaration therefore has the documentation in front of its first token and that behind its
decorators, and never any other.
-/

namespace DeclSchema

/-- The tags of the documentation comments that the lexemes end with. -/
def trailingTags (lexemes : List Lexeme) : List DocTag :=
  (lexemes.rtakeWhile (·.kind == .docComment)).flatMap (DocTag.ofComment ·.text)

/-- The tags of the documentation comments between a place in the source and the last token
before it. -/
def tagsBefore (source : String) (place : Nat) : List DocTag :=
  trailingTags ((tokenize source).takeWhile (·.span.start < place))

/-- The tokens of the source from a place on. -/
def tokensFrom (source : String) (place : Nat) : List Token :=
  (TokenStream.ofSource source).tokens.dropWhile (·.span.start < place)

/-- The tags of a declaration's own documentation, where its first token starts at the place.
It stands in front of that token and, if decorators begin there, in front of the first token
behind them. -/
def ownTags (source : String) (place : Nat) : List DocTag :=
  let tokens := tokensFrom source place
  let decorators := Parser.decoratorsLength tokens
  tagsBefore source place ++
    if decorators = 0 then []
    else (tokens.drop decorators).head?.elim [] (tagsBefore source ·.span.start)

theorem trailingTags_concat_doc (lexemes : List Lexeme) {comment : Lexeme}
    (h : comment.kind = .docComment) : trailingTags (lexemes ++ [comment]) =
      trailingTags lexemes ++ DocTag.ofComment comment.text := by
  unfold trailingTags
  rw [List.rtakeWhile_concat_pos _ _ _ (by simp [h])]
  simp

theorem trailingTags_concat_token (lexemes : List Lexeme) {token : Lexeme}
    (h : token.kind ≠ .docComment) : trailingTags (lexemes ++ [token]) = [] := by
  unfold trailingTags
  rw [List.rtakeWhile_concat_neg _ _ _ (by simp [h])]
  rfl

namespace TokenStream

theorem tokens_append (first second : TokenStream) :
    (first ++ second).tokens = first.tokens ++ second.tokens := rfl

/-- The tags that waited for a token are found under its start, where nothing else is. -/
theorem lookup_single (token : Token) (pending : List DocTag) {stream : TokenStream}
    (h : ∀ doc ∈ stream.docs, token.span.start < doc.1) :
    ((single token pending ++ stream).docs.lookup token.span.start).getD [] = pending := by
  rw [docs_append, single]
  cases pending with
  | nil => simp [Parser.lookup_of_lt h]
  | cons tag tags => simp

theorem lookup_single_of_ne {token : Token} {place : Nat} (h : place ≠ token.span.start)
    (pending : List DocTag) (stream : TokenStream) :
    (single token pending ++ stream).docs.lookup place = stream.docs.lookup place := by
  rw [docs_append, single]
  cases pending with
  | nil => rfl
  | cons tag tags => simp [List.lookup_cons, beq_eq_false_iff_ne.mpr h]

section

variable {pieces : List Piece} (hpieces : ∀ piece ∈ pieces, piece.text ≠ [])

include hpieces

/-- Under the start of a token wait the tags of the comments directly before it. `earlier` are
the lexemes in front of the pieces. -/
theorem lookup_ofPieces (earlier : List Lexeme) {offset : Nat}
    (hearlier : ∀ lexeme ∈ earlier, lexeme.span.start < offset) (newline : Bool) {token : Token}
    (h : token ∈ (ofPieces offset newline (trailingTags earlier) pieces).tokens) :
    ((ofPieces offset newline (trailingTags earlier) pieces).docs.lookup token.span.start).getD [] =
      trailingTags ((earlier ++ Piece.lexemes offset pieces).takeWhile
        (·.span.start < token.span.start)) := by
  induction pieces generalizing offset newline earlier with
  | nil => exact absurd h List.not_mem_nil
  | cons piece rest ih =>
    have hpos := Piece.byteLength_pos (hpieces piece List.mem_cons_self)
    have hrest : ∀ piece ∈ rest, piece.text ≠ [] := fun other hother =>
      hpieces other (List.mem_cons_of_mem _ hother)
    obtain ⟨kind, text⟩ := piece
    let stop := offset + Piece.byteLength text
    have hlt : offset < stop := Nat.lt_add_of_pos_right hpos
    cases kind with
    | none =>
      have hbehind : ∀ lexeme ∈ earlier, lexeme.span.start < stop := fun lexeme hlexeme =>
        (hearlier lexeme hlexeme).trans hlt
      exact ih hrest earlier hbehind _ h
    | some kind =>
      let lexeme : Lexeme := ⟨kind, String.ofList text, ⟨offset, stop⟩⟩
      have hbehind : ∀ other ∈ earlier ++ [lexeme], other.span.start < stop :=
        List.forall_mem_append.mpr
          ⟨fun other hother => (hearlier other hother).trans hlt, List.forall_mem_singleton.mpr hlt⟩
      have hlexemes : earlier ++ Piece.lexemes offset (⟨some kind, text⟩ :: rest) =
          earlier ++ [lexeme] ++ Piece.lexemes stop rest := by
        rw [List.append_assoc]
        rfl
      have hih := fun newline => ih hrest (earlier ++ [lexeme]) hbehind newline
      rw [hlexemes]
      by_cases hdoc : kind = .docComment
      · rw [trailingTags_concat_doc earlier hdoc] at hih
        subst hdoc
        rw [ofPieces_doc] at h ⊢
        exact hih _ h
      · rw [trailingTags_concat_token earlier hdoc] at hih
        have hafter : ∀ other ∈ (ofPieces stop false [] rest).tokens, offset < other.span.start :=
          fun other hother =>
            hlt.trans_le ((inOrder_ofPieces hrest stop false []).bounds hother).1
        have hdocs : ∀ doc ∈ (ofPieces stop false [] rest).docs, offset < doc.1 := by
          intro doc hmem
          obtain ⟨other, hother, hstart⟩ := mem_docs_ofPieces hmem
          exact hstart ▸ hafter other hother
        rw [ofPieces_token hdoc] at h ⊢
        rcases List.mem_append.mp h with hown | hlater
        · rw [List.mem_singleton.mp hown, lookup_single _ _ hdocs, List.append_assoc,
            List.takeWhile_append_of_pos (by simpa using hearlier),
            List.singleton_append, List.takeWhile_cons_of_neg (by simp [lexeme]), List.append_nil]
        · rw [lookup_single_of_ne (Nat.ne_of_gt (hafter token hlater))]
          exact hih false hlater

omit hpieces in
/-- Documentation waits in the order of the tokens. -/
theorem docs_sublist_ofPieces (offset : Nat) (newline : Bool) (pending : List DocTag) :
    ((ofPieces offset newline pending pieces).docs.map (·.1)).Sublist
      ((ofPieces offset newline pending pieces).tokens.map (·.span.start)) := by
  induction pieces generalizing offset newline pending with
  | nil => exact .slnil
  | cons piece rest ih =>
    obtain ⟨kind, text⟩ := piece
    cases kind with
    | none => exact ih ..
    | some kind =>
      by_cases hdoc : kind = .docComment
      · subst hdoc
        exact ih ..
      · rw [ofPieces_token hdoc, docs_append, tokens_append, List.map_append, List.map_append]
        refine List.Sublist.append ?_ (ih ..)
        cases pending with
        | nil => exact List.nil_sublist _
        | cons tag tags => exact List.Sublist.refl _

end

/-- Under the start of a token of a source waits the documentation directly before it. -/
theorem lookup_ofSource {source : String} {token : Token} (h : token ∈ (ofSource source).tokens) :
    ((ofSource source).docs.lookup token.span.start).getD [] =
      tagsBefore source token.span.start :=
  lookup_ofPieces (fun _ hpiece => Piece.ne_nil_of_mem_ofText hpiece) []
    (List.forall_mem_nil _) false h

theorem nodup_docs_ofSource (source : String) : ((ofSource source).docs.map (·.1)).Nodup := by
  refine (docs_sublist_ofPieces 0 false []).nodup (List.Pairwise.map _ (fun _ _ h => ?_)
    (inOrder_ofSource source).pairwise)
  exact Nat.ne_of_lt h.1

end TokenStream

/-- Where some of the documentation is left, it is found where it was, or nothing is. -/
theorem lookup_sublist {docs all : List (Nat × List DocTag)} (h : docs.Sublist all)
    (hnodup : (all.map (·.1)).Nodup) (place : Nat) :
    ((docs.lookup place).getD []).Sublist ((all.lookup place).getD []) := by
  cases hlookup : docs.lookup place with
  | none => exact List.nil_sublist _
  | some tags =>
    obtain ⟨before, behind, hdocs, -⟩ := List.lookup_eq_some_iff.mp hlookup
    have hmem : (place, tags) ∈ all := h.subset (by simp [hdocs])
    obtain ⟨front, rest, rfl⟩ := List.append_of_mem hmem
    have hfound : (front ++ (place, tags) :: rest).lookup place = some tags := by
      refine List.lookup_eq_some_iff.mpr ⟨front, rest, rfl, fun doc hdoc => bne_iff_ne.mpr ?_⟩
      rw [List.map_append, List.nodup_append] at hnodup
      exact (hnodup.2.2 doc.1 (List.mem_map_of_mem hdoc) place (by simp)).symm
    rw [hfound]

theorem lookup_filter_of_ne {docs : List (Nat × List DocTag)} {taken place : Nat}
    (h : place ≠ taken) : (docs.filter (·.1 != taken)).lookup place = docs.lookup place := by
  induction docs with
  | nil => rfl
  | cons doc rest ih =>
    by_cases htaken : doc.1 = taken
    · have hother : (place == doc.1) = false := beq_eq_false_iff_ne.mpr (htaken ▸ h)
      rw [List.filter_cons_of_neg (by simp [htaken]), ih, List.lookup_cons, hother]
    · rw [List.filter_cons_of_pos (by simp [htaken]), List.lookup_cons, List.lookup_cons, ih]

theorem lookup_filter_self (docs : List (Nat × List DocTag)) (taken : Nat) :
    (docs.filter (·.1 != taken)).lookup taken = none :=
  List.lookup_eq_none_iff.mpr fun _ hdoc => bne_comm.trans (List.mem_filter.mp hdoc).2

namespace Parser

/-- In front of the tokens the same documentation waits. -/
def SameBefore (tokens : List Token) (docs left : List (Nat × List DocTag)) : Prop :=
  ∀ token ∈ tokens, left.lookup token.span.start = docs.lookup token.span.start

section

variable {tokens others : List Token} {docs left less : List (Nat × List DocTag)}

theorem SameBefore.refl : SameBefore tokens docs docs :=
  fun _ _ => rfl

theorem SameBefore.mono (h : SameBefore tokens docs left) (hsub : others ⊆ tokens) :
    SameBefore others docs left :=
  fun token htoken => h token (hsub htoken)

theorem SameBefore.trans (h : SameBefore tokens docs left) (h' : SameBefore tokens left less) :
    SameBefore tokens docs less :=
  fun token htoken => (h' token htoken).trans (h token htoken)

end

/-- The tokens follow each other. -/
def Ascending (tokens : List Token) : Prop :=
  tokens.Pairwise (·.span.start < ·.span.start)

theorem Ascending.of_suffix {tokens others : List Token} (h : Ascending tokens)
    (hsuffix : others <:+ tokens) : Ascending others :=
  List.Pairwise.sublist hsuffix.sublist h

theorem tail_subset_of_suffix {tokens others : List Token} (h : others <:+ tokens) :
    others.tail ⊆ tokens.tail := by
  obtain ⟨skipped, rfl⟩ := h
  cases skipped with
  | nil => exact List.Subset.refl _
  | cons first skipped =>
    exact List.Subset.trans (List.tail_suffix _).subset (List.subset_append_right _ _)

theorem subset_tail_of_length_lt {tokens others : List Token} (h : others <:+ tokens)
    (hlength : others.length < tokens.length) : others ⊆ tokens.tail := by
  obtain ⟨skipped, rfl⟩ := h
  cases skipped with
  | nil => exact absurd hlength (Nat.lt_irrefl _)
  | cons first skipped => exact List.subset_append_right _ _

theorem rest_advance_subset (s : State) (count : Nat) :
    (s.advance (count + 1)).rest ⊆ s.rest.tail := by
  rw [State.rest_advance, ← List.drop_tail]
  exact (List.drop_suffix _ _).subset

section

variable {s : State}

theorem start_lt_of_mem_tail (h : Ascending s.rest) {token : Token} (htoken : token ∈ s.rest.tail) :
    s.start < token.span.start := by
  unfold State.start
  cases hrest : s.rest with
  | nil => simp [hrest] at htoken
  | cons first rest =>
    rw [hrest] at h htoken
    exact List.rel_of_pairwise_cons h htoken

/-- Only the documentation in front of the next token is taken. -/
theorem sameBefore_takeTags (h : Ascending s.rest) :
    SameBefore s.rest.tail s.docs s.takeTags.docs :=
  fun _ htoken => lookup_filter_of_ne (Nat.ne_of_gt (start_lt_of_mem_tail h htoken))

theorem suffix_behindDecorators : s.behindDecorators.rest <:+ s.rest :=
  List.drop_suffix _ _

theorem sameBefore_behindDecorators (h : Ascending s.rest) :
    SameBefore s.behindDecorators.rest.tail s.docs s.behindDecorators.takeTags.docs :=
  .trans ((sameBefore_takeTags h).mono (tail_subset_of_suffix suffix_behindDecorators))
    (sameBefore_takeTags (h.of_suffix suffix_behindDecorators))

end

/-- The tokens in front of which nothing was taken on a walk that ends in the state. Something
given up may have ended where documentation had just been taken, and a list of members may have
ended so. Then what closes the list comes next, or nothing. -/
def Course.untouched (course : Course) (t : State) : List Token :=
  match course with
  | .part true => t.rest
  | .member true => if t.endsMembers then t.rest.tail else t.rest
  | _ => t.rest.tail

theorem Course.tail_subset_untouched (course : Course) (t : State) :
    t.rest.tail ⊆ course.untouched t := by
  unfold untouched
  split
  · exact (List.tail_suffix _).subset
  · split
    · exact List.Subset.refl _
    · exact (List.tail_suffix _).subset
  · exact List.Subset.refl _

theorem Course.untouched_subset (course : Course) (t : State) : course.untouched t ⊆ t.rest := by
  unfold untouched
  split
  · exact List.Subset.refl _
  · split
    · exact (List.tail_suffix _).subset
    · exact List.Subset.refl _
  · exact (List.tail_suffix _).subset

theorem Course.untouched_member_subset (whole : Bool) (t : State) :
    (Course.member whole).untouched t ⊆ (Course.part whole).untouched t := by
  cases whole with
  | false => exact List.Subset.refl _
  | true => exact Course.untouched_subset _ t

theorem Course.untouched_part_subset {whole : Bool} {t : State} {tokens : List Token}
    (h : t.rest <:+ tokens) (hshorter : whole → t.rest.length < tokens.length) :
    (Course.part whole).untouched t ⊆ tokens.tail := by
  cases whole with
  | false => exact tail_subset_of_suffix h
  | true => exact subset_tail_of_length_lt h (hshorter rfl)

/-- Where no return type is given back, what is taken on a walk lies behind its end. -/
theorem Walk.sameBefore {course : Course} {s t : State} (h : Walk course s t)
    (hordered : Ascending s.rest) (hkeeps : GivesNothingBack t.journal) :
    SameBefore (course.untouched t) s.docs t.docs := by
  have hone : ∀ s : State, (s.advance 1).rest <:+ s.rest := fun s => List.drop_suffix _ _
  -- Taking documentation in front of decorators and behind them leaves what waits further on.
  have hdecorated : ∀ {s t : State} {tokens : List Token}, Ascending s.rest →
      SameBefore tokens s.behindDecorators.takeTags.docs t.docs →
      tokens ⊆ s.behindDecorators.rest.tail → SameBefore tokens s.docs t.docs :=
    fun hordered hsame hsub => ((sameBefore_behindDecorators hordered).mono hsub).trans hsame
  induction h with
  | stay | stop | refuse | pass | ended => exact .refl
  | trans hst htu ih ih' | separated hst htu ih ih' =>
    refine .trans ((ih hordered (hkeeps.of_prefix htu.leadsTo.journal)).mono ?_)
      (ih' (hordered.of_suffix hst.leadsTo.rest) hkeeps)
    exact List.Subset.trans (Course.untouched_subset _ _) htu.leadsTo.rest.subset
  | @enclosed s t _ _ _ _ _ _ _ _ ih =>
    exact (ih (hordered.of_suffix (hone s)) hkeeps).mono (hone t).subset
  | @unclosed s t _ _ _ _ _ ih | @unbraced s t _ _ _ _ _ ih =>
    exact ih (hordered.of_suffix (hone s)) hkeeps
  | @braced s t _ _ _ _ _ _ ih =>
    exact (ih (hordered.of_suffix (hone s)) hkeeps).mono (rest_advance_subset t 0)
  | deeper _ _ ih | returned _ ih | finished _ ih => exact ih hordered hkeeps
  | gaveBack _ _ _ => exact absurd (List.mem_append_right _ (List.mem_singleton_self _)) (hkeeps _)
  | @documented whole s t hst hshorter ih =>
    have hsub := Course.untouched_member_subset whole t
    refine .trans ((sameBefore_takeTags hordered).mono ?_) ((ih hordered hkeeps).mono hsub)
    exact List.Subset.trans hsub (Course.untouched_part_subset hst.leadsTo.rest hshorter)
  | @decorated whole s t hst hshorter ih =>
    have hsub := Course.untouched_member_subset whole t
    refine hdecorated hordered
      ((ih (hordered.of_suffix suffix_behindDecorators) hkeeps).mono hsub) ?_
    exact List.Subset.trans hsub (Course.untouched_part_subset hst.leadsTo.rest hshorter)
  | @passed s t count hst hpassed hends ih =>
    -- Where nothing is passed over the list ends, and the next token is left out.
    have hsub : (Course.member true).untouched (t.advance count) ⊆ t.rest.tail := by
      cases count with
      | zero =>
        rw [State.advance_zero, Course.untouched, if_pos (hends rfl)]
        exact List.Subset.refl _
      | succ count =>
        exact List.Subset.trans (Course.untouched_subset _ _) (rest_advance_subset t count)
    refine hdecorated hordered
      ((ih (hordered.of_suffix suffix_behindDecorators) hkeeps).mono ?_) ?_
    · exact List.Subset.trans hsub (List.tail_suffix _).subset
    · exact List.Subset.trans hsub (tail_subset_of_suffix hst.leadsTo.rest)
  | @declared s t heading children hst hshorter ih =>
    have hsub := Course.untouched_subset (.member true) t
    have hkeeps : GivesNothingBack t.journal := hkeeps.of_prefix (List.prefix_append _ _)
    refine hdecorated hordered
      ((ih (hordered.of_suffix suffix_behindDecorators) hkeeps).mono hsub) ?_
    exact List.Subset.trans hsub (subset_tail_of_length_lt hst.leadsTo.rest hshorter)
  | @read s t u hst hends htu ih ih' =>
    have hbefore := ih hordered (hkeeps.of_prefix htu.leadsTo.journal)
    by_cases hend : t.endsMembers
    · rw [Course.untouched, if_pos hend] at hbefore
      obtain rfl := hends hend
      exact hbefore
    · rw [Course.untouched, if_neg hend] at hbefore
      refine .trans (hbefore.mono ?_) (ih' (hordered.of_suffix hst.leadsTo.rest) hkeeps)
      exact List.Subset.trans (Course.untouched_subset _ _) htu.leadsTo.rest.subset
  | @recovered s t u error count hst hrecovers hends htu ih ih' =>
    have hbefore : SameBefore t.rest.tail s.docs t.docs :=
      ih hordered (hkeeps.of_prefix htu.leadsTo.journal)
    cases count with
    | zero =>
      obtain rfl := hends rfl
      exact hbefore
    | succ count =>
      refine .trans (hbefore.mono ?_) (ih' (hordered.of_suffix ?_) hkeeps)
      · exact List.Subset.trans (Course.untouched_subset _ _)
          (List.Subset.trans htu.leadsTo.rest.subset (rest_advance_subset _ count))
      · exact (List.drop_suffix _ _).trans hst.leadsTo.rest
  | @stray s t u hst hclose htu ih ih' =>
    refine .trans ((ih hordered (hkeeps.of_prefix ?_)).mono ?_) (ih' (hordered.of_suffix ?_) hkeeps)
    · exact htu.leadsTo.journal
    · exact List.Subset.trans (Course.untouched_subset _ _)
        (List.Subset.trans htu.leadsTo.rest.subset (rest_advance_subset t 0))
    · exact (hone t).trans hst.leadsTo.rest

/-- A token of the source starts where the node does. The node has tags of its own documentation
only, in their order, and it has them all if no return type is given back. -/
structure Documented (source : String) (journal : List Event) (node : Node) : Prop where
  first : ∃ token rest, tokensFrom source node.span.start = token :: rest ∧
    token.span.start = node.span.start
  own : node.tags.Sublist (ownTags source node.span.start)
  all : GivesNothingBack journal → node.tags = ownTags source node.span.start

/-- The state comes up while the source is read: tokens are left and some of the documentation,
and if no return type is given back, all of it that stands in front of the given tokens. -/
structure State.Within (source : String) (journal : List Event) (tokens : List Token)
    (s : State) : Prop where
  rest : s.rest <:+ (TokenStream.ofSource source).tokens
  docs : s.docs.Sublist (TokenStream.ofSource source).docs
  same : GivesNothingBack journal → SameBefore tokens (TokenStream.ofSource source).docs s.docs

/-- All declarations in the journal are documented. -/
def State.Tells (source : String) (journal : List Event) (s : State) : Prop :=
  ∀ node before after, .declared node before after ∈ s.journal → Documented source journal node

section

variable {source : String} {journal : List Event} {tokens others : List Token} {s t : State}

theorem ascending_ofSource (source : String) : Ascending (TokenStream.ofSource source).tokens :=
  (TokenStream.inOrder_ofSource source).pairwise.imp And.left

theorem State.Within.ascending (h : s.Within source journal tokens) : Ascending s.rest :=
  (ascending_ofSource source).of_suffix h.rest

theorem State.Within.next (h : s.Within source journal tokens) (hto : s.LeadsTo t)
    (hsame : GivesNothingBack journal → SameBefore others s.docs t.docs) (hsub : others ⊆ tokens) :
    t.Within source journal others where
  rest := hto.rest.trans h.rest
  docs := hto.docs.trans h.docs
  same hkeeps := ((h.same hkeeps).mono hsub).trans (hsame hkeeps)

/-- The tokens left are those from where the first of them starts. -/
theorem State.Within.tokensFrom_eq (h : s.Within source journal tokens) {first : Token}
    {rest : List Token} (hrest : s.rest = first :: rest) : tokensFrom source s.start = s.rest := by
  obtain ⟨read, hread⟩ := h.rest
  have hstart : s.start = first.span.start := by rw [State.start, hrest]
  have hbefore : ∀ token ∈ read, token.span.start < s.start := by
    have hascending := ascending_ofSource source
    rw [← hread, Ascending, List.pairwise_append] at hascending
    exact fun token htoken => hstart ▸ hascending.2.2 token htoken first (by simp [hrest])
  rw [tokensFrom, ← hread, List.dropWhile_append_of_pos (by simpa using hbefore), hrest,
    List.dropWhile_cons_of_neg (by simp [hstart])]

/-- What is taken in front of a token stands in front of it, and is all that does if nothing was
taken before. -/
theorem State.Within.tags (h : s.Within source journal s.rest) {first : Token} {rest : List Token}
    (hrest : s.rest = first :: rest) :
    s.tags.Sublist (tagsBefore source s.start) ∧
      (GivesNothingBack journal → s.tags = tagsBefore source s.start) := by
  have hmem : first ∈ s.rest := hrest ▸ List.mem_cons_self
  have hstart : s.start = first.span.start := by rw [State.start, hrest]
  rw [State.tags, hstart, ← TokenStream.lookup_ofSource (h.rest.subset hmem)]
  refine ⟨lookup_sublist h.docs (TokenStream.nodup_docs_ofSource source) _, fun hkeeps => ?_⟩
  rw [h.same hkeeps first hmem]

theorem State.Within.behindDecorators (h : s.Within source journal s.rest)
    (hcount : decoratorsLength s.rest ≠ 0) :
    s.behindDecorators.Within source journal s.behindDecorators.rest := by
  have hsub : s.behindDecorators.rest ⊆ s.rest.tail := by
    obtain ⟨count, hcount⟩ := Nat.exists_eq_add_one_of_ne_zero hcount
    rw [State.behindDecorators, hcount]
    exact rest_advance_subset s.takeTags count
  exact
    { rest := suffix_behindDecorators.trans h.rest
      docs := List.filter_sublist.trans h.docs
      same := fun hkeeps => ((h.same hkeeps).mono suffix_behindDecorators.subset).trans
        ((sameBefore_takeTags h.ascending).mono hsub) }

/-- A declaration that begins in the state has the documentation in front of it. -/
theorem State.Within.documented (h : s.Within source journal s.rest)
    (hbehind : s.behindDecorators.rest ≠ []) (heading : Heading) (t : State)
    (children : List Node) : Documented source journal
      (heading.node s t (s.tags ++ s.behindDecorators.tags) children) := by
  obtain ⟨second, others, hsecond⟩ := List.exists_cons_of_ne_nil hbehind
  obtain ⟨first, rest, hrest⟩ : ∃ first rest, s.rest = first :: rest :=
    List.exists_cons_of_ne_nil fun hnil => hbehind (by
      rw [State.behindDecorators, State.rest_advance]
      exact (congrArg (List.drop _) hnil).trans List.drop_nil)
  have htokens := h.tokensFrom_eq hrest
  have hstart : (heading.node s t (s.tags ++ s.behindDecorators.tags) children).span.start =
      s.start := rfl
  have hown : ownTags source s.start = tagsBefore source s.start ++
      if decoratorsLength s.rest = 0 then [] else tagsBefore source s.behindDecorators.start := by
    have hdrop : s.rest.drop (decoratorsLength s.rest) = second :: others := hsecond
    have hplace : s.behindDecorators.start = second.span.start := by
      rw [State.start, hsecond]
    rw [ownTags, htokens, hdrop, hplace]
    rfl
  obtain ⟨hbefore, hall⟩ := h.tags hrest
  -- Without decorators the same place is asked twice, and the second time nothing is there.
  have hafter (own : List DocTag) (hown : own =
      if decoratorsLength s.rest = 0 then [] else tagsBefore source s.behindDecorators.start) :
      s.behindDecorators.tags.Sublist own ∧
        (GivesNothingBack journal → s.behindDecorators.tags = own) := by
    rw [hown]
    by_cases hcount : decoratorsLength s.rest = 0
    · have hnone : s.behindDecorators.tags = [] := by
        rw [State.behindDecorators, hcount, State.advance_zero]
        exact congrArg (·.getD []) (lookup_filter_self s.docs s.start)
      rw [if_pos hcount, hnone]
      exact ⟨List.Sublist.refl _, fun _ => rfl⟩
    · rw [if_neg hcount]
      exact (h.behindDecorators hcount).tags hsecond
  refine ⟨⟨first, rest, ?_, ?_⟩, ?_, fun hkeeps => ?_⟩
  · rw [hstart, htokens, hrest]
  · rw [hstart, State.start, hrest]
  · rw [hstart, hown]
    exact hbefore.append (hafter _ rfl).1
  · rw [hstart, hown, ← hall hkeeps, ← (hafter _ rfl).2 hkeeps]
    rfl

theorem State.Tells.note (h : s.Tells source journal) {event : Event}
    (hevent : ∀ node before after, event = .declared node before after →
      Documented source journal node) : (s.note event).Tells source journal := by
  intro node before after hmem
  rcases List.mem_append.mp hmem with hold | hnew
  · exact h node before after hold
  · exact hevent node before after (List.mem_singleton.mp hnew).symm

/-- Behind an opening bracket. -/
theorem State.Within.inside (h : s.Within source journal s.rest.tail) :
    (s.advance 1).Within source journal (s.advance 1).rest :=
  h.next (.advance s 1) (fun _ => .refl) (rest_advance_subset s 0)

theorem State.Within.tail (h : s.Within source journal s.rest) :
    s.Within source journal s.rest.tail :=
  h.next (.refl s) (fun _ => .refl) (List.tail_suffix _).subset

/-- Behind documentation that is taken it still waits further on. -/
theorem State.Within.takeTags (h : s.Within source journal s.rest) :
    s.takeTags.Within source journal s.rest.tail :=
  h.next { State.LeadsTo.refl s with docs := List.filter_sublist }
    (fun _ => sameBefore_takeTags h.ascending) (List.tail_suffix _).subset

theorem State.Within.decorated (h : s.Within source journal s.rest) :
    s.behindDecorators.takeTags.Within source journal s.behindDecorators.rest.tail :=
  h.next
    { rest := suffix_behindDecorators
      journal := List.prefix_refl _
      docs := List.filter_sublist.trans List.filter_sublist
      errors := List.prefix_refl _ }
    (fun _ => sameBefore_behindDecorators h.ascending)
    (List.Subset.trans (List.tail_suffix _).subset suffix_behindDecorators.subset)

/-- What waits behind a walk is what was untouched on it. -/
theorem Walk.within {course : Course} (h : Walk course s t)
    (hin : s.Within source journal tokens) (hjournal : t.journal <+: journal)
    (huntouched : others ⊆ course.untouched t) (hsub : others ⊆ tokens) :
    t.Within source journal others :=
  hin.next h.leadsTo (fun hkeeps =>
    (h.sameBefore hin.ascending (hkeeps.of_prefix hjournal)).mono huntouched) hsub

theorem Walk.within_tail {course : Course} (h : Walk course s t)
    (hin : s.Within source journal s.rest) (hjournal : t.journal <+: journal) :
    t.Within source journal t.rest.tail :=
  h.within hin hjournal (course.tail_subset_untouched t)
    (List.Subset.trans (List.tail_suffix _).subset h.leadsTo.rest.subset)

/-- The tokens in front of which documentation has to wait where a walk begins. Within a part of
a statement it is taken behind an opening brace only. -/
def Course.awaited : Course → List Token → List Token
  | .part _, tokens => tokens.tail
  | _, tokens => tokens

/-- Every declaration that is read on a walk is documented. -/
theorem Walk.tells {course : Course} (h : Walk course s t)
    (hin : s.Within source journal (course.awaited s.rest)) (hjournal : t.journal <+: journal)
    (htold : s.Tells source journal) : t.Tells source journal := by
  induction h with
  | stay | stop | pass | ended => exact htold
  | refuse => exact htold.note nofun
  | @trans whole s t u hst htu ih ih' =>
    have hmiddle := htu.leadsTo.journal.trans hjournal
    refine ih' (hst.within hin hmiddle ?_ ?_) hjournal (ih hin hmiddle htold)
    · exact (List.tail_suffix _).subset
    · exact tail_subset_of_suffix hst.leadsTo.rest
  | enclosed _ _ _ _ _ ih | unclosed _ _ _ ih => exact ih hin.inside.tail hjournal htold
  | braced _ _ _ _ ih | unbraced _ _ _ ih => exact ih hin.inside hjournal htold
  | @deeper course s t _ _ ih =>
    exact ih ⟨hin.rest, hin.docs, hin.same⟩ hjournal htold
  | returned _ ih | finished _ ih => exact ih hin hjournal htold
  | gaveBack count hst ih =>
    exact (ih hin ((List.prefix_append _ _).trans hjournal) htold).note nofun
  | documented hst _ ih => exact ih hin.takeTags hjournal htold
  | decorated hst _ ih | passed hst _ _ ih => exact ih hin.decorated hjournal htold
  | @declared s t heading children hst hshorter ih =>
    have hbefore := (List.prefix_append _ _).trans hjournal
    refine (ih hin.decorated hbefore htold).note fun node before after hevent => ?_
    cases hevent
    have hbehind : s.behindDecorators.rest ≠ [] := fun hnil => by simp [hnil] at hshorter
    exact hin.documented hbehind heading t children
  | @separated s t u hst htu ih ih' =>
    have hmiddle := htu.leadsTo.journal.trans hjournal
    refine ih' (hst.within hin hmiddle ?_ ?_) hjournal (ih hin.tail hmiddle htold)
    · exact List.Subset.refl _
    · exact hst.leadsTo.rest.subset
  | @read s t u hst hends htu ih ih' =>
    have hmiddle := htu.leadsTo.journal.trans hjournal
    have hafter := ih hin hmiddle htold
    by_cases hend : t.endsMembers
    · obtain rfl := hends hend
      exact hafter
    · refine ih' (hst.within hin hmiddle ?_ hst.leadsTo.rest.subset) hjournal hafter
      rw [Course.untouched, if_neg hend]
      exact List.Subset.refl _
  | @recovered s t u error count hst hrecovers hends htu ih ih' =>
    have hmiddle := htu.leadsTo.journal.trans hjournal
    have hafter := ih hin hmiddle htold
    cases count with
    | zero =>
      obtain rfl := hends rfl
      exact hafter
    | succ count =>
      refine ih' ((hst.within_tail hin hmiddle).next ?_ (fun _ => .refl) ?_) hjournal hafter
      · exact .trans (.record t error) (.advance _ _)
      · exact rest_advance_subset _ count
  | @stray s t u hst hclose htu ih ih' =>
    have hmiddle := htu.leadsTo.journal.trans hjournal
    refine ih' ((hst.within_tail hin hmiddle).next ?_ (fun _ => .refl) ?_) hjournal
      (ih hin hmiddle htold)
    · exact .trans (.record t _) (.advance _ 1)
    · exact rest_advance_subset t 0

end

end Parser

namespace Parse

open DeclSchema.Parser

/-- Every interface and every class of a source is documented. -/
theorem documented (source : String) {node : Node}
    (hnode : node ∈ (ofSource source).root.descendants) (hkind : node.kind.declares) :
    Documented source (journal source) node := by
  obtain ⟨nodes, t, hrun, hwalk⟩ := walk_sourceFile (.ofSource source)
  obtain ⟨u, -, hdeclares, hjournal, -⟩ := ofSource_attributed source
  have hin : (State.ofSource source).Within source (journal source) (State.ofSource source).rest :=
    ⟨List.suffix_refl _, List.Sublist.refl _, fun _ => .refl⟩
  have htold : t.journal = journal source := by rw [journal, hrun]
  have htells := hwalk.tells hin (htold ▸ List.prefix_refl _) fun _ _ _ h =>
    absurd h List.not_mem_nil
  rw [Node.descendants_eq, Node.preorder_eq, List.mem_cons] at hnode
  rcases hnode with rfl | hnode
  · exact absurd hkind Bool.false_ne_true
  · obtain ⟨before, after, hevent⟩ := hdeclares node hnode hkind
    rw [hjournal, ← htold] at hevent
    exact htells node before after hevent

/-- The tags of a class are tags of its own documentation, in their order: of the comments between
the token before its first one and that token, and of those behind its decorators. If no return
type is given back while the source is read, they are all of them, and the class is selected
exactly if its own documentation has the marker. -/
theorem tags_of_own_documentation (source : String) {node : Node}
    (hnode : node ∈ (ofSource source).root.descendants) (hkind : node.kind = .classDeclaration) :
    (∃ first rest, tokensFrom source node.span.start = first :: rest ∧
      first.span.start = node.span.start) ∧
    node.tags.Sublist (ownTags source node.span.start) ∧
    (GivesNothingBack (journal source) →
      node.tags = ownTags source node.span.start ∧
      ∀ options : ExtractionOptions, Extraction.selects options node =
        ((ownTags source node.span.start).any (·.name == options.marker) &&
          (!options.exportedOnly || node.hasChild .exportKeyword))) := by
  have hdocumented := documented source hnode (by rw [hkind]; rfl)
  refine ⟨hdocumented.first, hdocumented.own, fun hkeeps => ?_⟩
  have hall := hdocumented.all hkeeps
  refine ⟨hall, fun options => ?_⟩
  rw [Extraction.selects, hkind, ← hall]
  rfl

/-- A decorated class behind a statement that is passed over, with documentation at several
places. -/
def decoratedSource : String :=
  "/** @a */ f(); /** @b x */ @d() /** @schema */ class C { /** @c */ m; /** @e */ }"

/-- The class has the documentation in front of its decorator and behind it. -/
theorem tags_of_own_documentation_decorated :
    ∃ node ∈ (ofSource decoratedSource).root.descendants, node.kind = .classDeclaration ∧
      node.tags = [⟨"b", some "x"⟩, ⟨"schema", none⟩] := by
  have hclass : (ofSource decoratedSource).root.descendants.any
      (fun node => node.kind = .classDeclaration ∧ node.span.start = 27) := by decide +kernel
  obtain ⟨node, hnode, hfound⟩ := List.any_eq_true.mp hclass
  obtain ⟨hkind, hstart⟩ := of_decide_eq_true hfound
  have hkeeps : GivesNothingBack (journal decoratedSource) := by decide +kernel
  have hown : ownTags decoratedSource 27 = [⟨"b", some "x"⟩, ⟨"schema", none⟩] := by
    decide +kernel
  obtain ⟨-, -, hall⟩ := tags_of_own_documentation decoratedSource hnode hkind
  refine ⟨node, hnode, hkind, ?_⟩
  rw [(hall hkeeps).1, hstart, hown]

end Parse

end DeclSchema
