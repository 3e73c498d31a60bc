import DeclSchema.Proofs.Parser.StayingTypes
import DeclSchema.Proofs.Parser.ClosingStatements

/-!
# Declarations end at their own brace

An interface, the block of a namespace and a type literal end with the brace that closes
their body, and no brace of a source with nested brackets is called stray. The exception is
a level of nesting that is refused directly behind an opening brace: the brace is read by
then, recovery counts from behind it, and takes the brace that closes it for the one that
closes the list around it.
-/

/- The longest parsers have more parts than instance search allows by default. -/
set_option synthInstance.maxSize 8192

namespace DeclSchema

open TokenKind

namespace Parser

section

variable {source : String} {s t : State} {node : Node} {nodes : List Node}

/-- Reading stands behind the node, and no opening brace is between the two. -/
def State.Trails (source : String) (node : Node) (s : State) : Prop :=
  ∃ before, (TokenStream.ofSource source).tokens = before ++ s.rest ∧ EndsBefore node before

/-- The last of the nodes stands before the body of an interface, and reading stands behind
it. -/
def State.Heads (source : String) (nodes : List Node) (s : State) : Prop :=
  ∃ front last, nodes = front ++ [last] ∧ last.kind.heads ∧ s.Trails source last

/-- Run from the state, the parser gives what may stand before a body, and stops behind it. -/
def ReadsHead (source : String) (s : State) (p : Parser Node) : Prop :=
  ∀ t node, s.StandsIn source → p s = (.ok node, t) →
    t.StandsIn source ∧ node.kind.heads ∧ t.Trails source node

theorem State.StandsIn.prevEnd_eq (h : s.StandsIn source) {front : List Token} {last : Token}
    (htokens : (TokenStream.ofSource source).tokens = front ++ last :: s.rest) :
    s.prevEnd = last.span.stop := by
  obtain ⟨read, hread⟩ := State.standsIn_iff.mp h
  have hsplit : read ++ s.rest = front ++ [last] ++ s.rest := by
    rw [List.append_assoc, List.singleton_append, ← htokens]
    exact hread.rest.symm
  rw [hread.prevEnd, List.append_cancel_right hsplit, List.getLast?_concat]
  rfl

theorem State.Trails.advance_one (h : s.Trails source node) {first : Token} {rest : List Token}
    (hrest : s.rest = first :: rest) (hopen : first.kind ≠ .lBrace) :
    (s.advance 1).Trails source node := by
  obtain ⟨before, hbefore, front, last, gap, rfl, hstop, hgap⟩ := h
  refine ⟨(front ++ last :: gap) ++ [first], ?_, front, last, gap ++ [first], by simp, hstop, ?_⟩
  · rw [hbefore, State.rest_advance, hrest]
    simp
  · exact List.forall_mem_append.mpr ⟨hgap, List.forall_mem_singleton.mpr hopen⟩

theorem State.Heads.advance_one (h : s.Heads source nodes) {first : Token} {rest : List Token}
    (hrest : s.rest = first :: rest) (hopen : first.kind ≠ .lBrace) :
    (s.advance 1).Heads source nodes := by
  obtain ⟨front, last, rfl, hlast, htrails⟩ := h
  exact ⟨front, last, rfl, hlast, htrails.advance_one hrest hopen⟩

/-- Reading stands behind a node that was read up to there. -/
theorem State.StandsIn.trails (hs : s.StandsIn source) (ht : t.StandsIn source)
    (hrest : t.rest <:+ s.rest) (hlt : t.rest.length < s.rest.length)
    (hspan : node.span = Span.ofBounds s.start t.prevEnd) : t.Trails source node := by
  obtain ⟨before, hbefore⟩ := hs.exists_append
  obtain ⟨read, hread⟩ := hrest
  obtain ⟨front, last, rfl⟩ : ∃ front last, read = front ++ [last] := by
    rcases List.eq_nil_or_concat read with rfl | ⟨front, last, rfl⟩
    · rw [← hread] at hlt
      exact absurd hlt (Nat.lt_irrefl _)
    · exact ⟨front, last, List.concat_eq_append⟩
  have htokens : (TokenStream.ofSource source).tokens = (before ++ front) ++ last :: t.rest := by
    rw [hbefore, ← hread]
    simp
  have hprevEnd := ht.prevEnd_eq htokens
  refine ⟨before ++ (front ++ [last]), by simp [hbefore, ← hread],
    before ++ front, last, [], by simp, ?_, List.forall_mem_nil _⟩
  rw [hspan, hprevEnd]
  exact (hs.ordered.stop_ofBounds (by rw [← hread]; simp)).symm

end

/-- The parser gives nodes of the kind that begin at a place and end where it stops. -/
def Builds (kind : NodeKind) (start : Nat) (p : Parser Node) : Prop :=
  ∀ s t node, p s = (.ok node, t) →
    node.kind = kind ∧ node.span = Span.ofBounds start t.prevEnd

theorem Builds.bind {kind : NodeKind} {start : Nat} {p : Parser α} {f : α → Parser Node}
    (h : ∀ a, Builds kind start (f a)) : Builds kind start (p >>= f) := by
  intro s t node hrun
  obtain ⟨a, u, -, hrun⟩ := exists_of_bind_ok hrun
  exact h a u t node hrun

theorem builds_typeParameter {type : Parser Node} (s t : State) (node : Node)
    (hrun : typeParameter type s = (.ok node, t)) :
    node.kind = .typeParameter ∧ node.span = Span.ofBounds s.start t.prevEnd := by
  have hbuilds : Builds .typeParameter s.start (do
      let _ ← acceptWord "const"
      let u ← look
      if (u.atWord "in" || u.atWord "out") && u.nthIsWord 1 then
        advance 1
      let name ← identifier .typeParameter
      let bound ← optional (acceptWord "extends") type
      let preset ← optional (accept .eq) type
      return Node.inner .typeParameter s.start (← look).prevEnd (name :: bound ++ preset)) := by
    refine .bind fun _ => .bind fun u => ?_
    have hnamed : Builds .typeParameter s.start (do
        let name ← identifier .typeParameter
        let bound ← optional (acceptWord "extends") type
        let preset ← optional (accept .eq) type
        return Node.inner .typeParameter s.start (← look).prevEnd (name :: bound ++ preset)) := by
      refine .bind fun name => .bind fun bound => .bind fun preset => ?_
      rintro v w node hlast
      cases hlast
      exact ⟨rfl, rfl⟩
    split
    · exact .bind fun _ => hnamed
    · exact hnamed
  exact hbuilds s t node hrun

theorem consumes_typeParameter {type : Parser Node} [Forward type] :
    Consumes (typeParameter type) := by
  refine .after fun s => .after fun _ => .after fun t => ?_
  dsimp only
  refine .ite (.after fun _ => ?_) ?_
  · exact .bind (consumes_identifier _)
  · exact .bind (consumes_identifier _)

section

variable {source : String} {s t : State} {nodes : List Node}

theorem heads_of_identifier {what : Wanted} {name : Node} (hs : s.StandsIn source)
    (hrun : identifier what s = (.ok name, t)) : t.Heads source [name] := by
  obtain ⟨word, u, htoken, hlast⟩ := exists_of_bind_ok hrun
  cases hlast
  unfold token at htoken
  split at htoken
  · cases htoken
  · next first rest hrest =>
    split at htoken
    · cases htoken
      obtain ⟨before, hbefore⟩ := hs.exists_append
      refine ⟨[], _, rfl, rfl, before ++ [word], ?_, before, word, [], rfl, rfl, by simp⟩
      rw [hbefore, State.rest_advance, hrest]
      simp
    · cases htoken

/-- A list of what may stand before a body, up to its closing mark. -/
theorem State.Heads.listUpTo {close : TokenKind} (hclose : close ≠ .lBrace) {item : Parser Node}
    (hitem : ∀ s, ReadsHead source s item) (count : Nat) {items : List Node}
    (h : s.Heads source nodes) (hs : s.StandsIn source)
    (hrun : listUpTo close item count s = (.ok items, t)) : t.Heads source (nodes ++ items) := by
  induction count generalizing s nodes items with
  | zero =>
    cases hrun
    rwa [List.append_nil]
  | succ count ih =>
    rw [Parser.listUpTo] at hrun
    by_cases hat : s.isAt close
    · obtain ⟨mark, rest, hrest, hkind⟩ := rest_of_isAt hat
      rw [bind_apply_ok (accept_of_isAt hat)] at hrun
      cases hrun
      rw [List.append_nil]
      exact h.advance_one hrest (hkind ▸ hclose)
    rw [bind_apply_ok (accept_of_not_isAt hat)] at hrun
    obtain ⟨node, u, hread, hrun⟩ := exists_of_bind_ok hrun
    obtain ⟨hu, hheads, htrails⟩ := hitem s u node hs hread
    have hnext : u.Heads source (nodes ++ [node]) := ⟨nodes, node, rfl, hheads, htrails⟩
    by_cases hcomma : u.isAt .comma
    · obtain ⟨comma, rest, hrest, hkind⟩ := rest_of_isAt hcomma
      rw [bind_apply_ok (accept_of_isAt hcomma)] at hrun
      obtain ⟨others, v, hothers, hlast⟩ := exists_of_bind_ok hrun
      cases hlast
      rw [← List.singleton_append, ← List.append_assoc]
      exact ih (hnext.advance_one hrest (by simp [hkind])) (hu.advance 1) hothers
    · rw [bind_apply_ok (accept_of_not_isAt hcomma)] at hrun
      obtain ⟨mark, v, hmark, hlast⟩ := exists_of_bind_ok hrun
      cases hlast
      obtain ⟨hat, rfl⟩ := isAt_of_expect hmark
      obtain ⟨mark, rest, hrest, hkind⟩ := rest_of_isAt hat
      exact hnext.advance_one hrest (hkind ▸ hclose)

theorem State.Heads.upTo {continues : State → Bool} {item : Parser Node}
    (hitem : ∀ s, continues s → ReadsHead source s item) (count : Nat) {items : List Node}
    (h : s.Heads source nodes) (hs : s.StandsIn source)
    (hrun : upTo continues item count s = (.ok items, t)) : t.Heads source (nodes ++ items) := by
  induction count generalizing s nodes items with
  | zero =>
    cases hrun
    rwa [List.append_nil]
  | succ count ih =>
    rw [Parser.upTo, look_bind_apply] at hrun
    by_cases hcontinues : continues s
    · rw [if_pos hcontinues] at hrun
      obtain ⟨node, u, hread, hrun⟩ := exists_of_bind_ok hrun
      obtain ⟨others, v, hothers, hlast⟩ := exists_of_bind_ok hrun
      cases hlast
      obtain ⟨hu, hheads, htrails⟩ := hitem s hcontinues u node hs hread
      rw [← List.singleton_append, ← List.append_assoc]
      exact ih ⟨nodes, node, rfl, hheads, htrails⟩ hu hothers
    · rw [if_neg hcontinues] at hrun
      cases hrun
      rwa [List.append_nil]

theorem readsHead_typeParameter (s : State) : ReadsHead source s (typeParameter type) := by
  intro t node hs hrun
  have hstands := steady_standsIn source
  have hgrows := grows_nesting (State.StandsIn source)
  have ht := ((keeps_typeParameter hstands hgrows (keeps_type hstands hgrows)).of_ok hs hrun).1
  obtain ⟨hkind, hspan⟩ := builds_typeParameter s t node hrun
  refine ⟨ht, by rw [hkind]; rfl, ?_⟩
  exact hs.trails ht (Forward.of_run hrun).rest (consumes_typeParameter s t node hrun) hspan

theorem readsHead_heritageClause {words : List String} (hwords : s.atHeritage words) :
    ReadsHead source s heritageClause := by
  intro t node hs hrun
  have hstands := steady_standsIn source
  have ht := ((keeps_heritageClause hstands (grows_nesting _)).of_ok hs hrun).1
  have hlt := length_lt_of_heritageClause words s t node hwords hrun
  have hsuffix := (Forward.of_run hrun).rest
  unfold heritageClause at hrun
  rw [look_bind_apply] at hrun
  cases hrest : s.rest with
  | nil => simp [hrest] at hlt
  | cons keyword rest =>
    rw [hrest] at hrun
    obtain ⟨-, u, -, hrun⟩ := exists_of_bind_ok hrun
    obtain ⟨types, v, -, hlast⟩ := exists_of_bind_ok hrun
    cases hlast
    refine ⟨ht, rfl, hs.trails ht hsuffix hlt ?_⟩
    show Span.ofBounds keyword.span.start _ = _
    rw [State.start, hrest]

theorem State.Heads.typeParametersIfAny {generics : List Node} (h : s.Heads source nodes)
    (hs : s.StandsIn source) (hrun : typeParametersIfAny type s = (.ok generics, t)) :
    t.Heads source (nodes ++ generics) := by
  rw [Parser.typeParametersIfAny, look_bind_apply] at hrun
  by_cases hopen : s.isAt .lt
  · rw [if_pos hopen] at hrun
    obtain ⟨mark, u, hmark, hlist⟩ := exists_of_bind_ok hrun
    obtain ⟨-, rfl⟩ := isAt_of_expect hmark
    obtain ⟨first, rest, hrest, hkind⟩ := rest_of_isAt hopen
    exact (h.advance_one hrest (by simp [hkind])).listUpTo (by decide) readsHead_typeParameter _
      (hs.advance 1) hlist
  · rw [if_neg hopen] at hrun
    cases hrun
    rwa [List.append_nil]

theorem State.Heads.heritageClauses {words : List String} {clauses : List Node}
    (h : s.Heads source nodes) (hs : s.StandsIn source)
    (hrun : repeatWhile (·.atHeritage words) heritageClause s = (.ok clauses, t)) :
    t.Heads source (nodes ++ clauses) :=
  h.upTo (fun _ hwords => readsHead_heritageClause hwords) _ hs hrun

end

section

variable {source : String} {s : State}

theorem stays_heritageClauses (words : List String) :
    Stays source s (repeatWhile (·.atHeritage words) heritageClause) (AllWhole source) := by
  refine .repeatWhile fun t hcontinues => .look ?_
  cases hrest : t.rest with
  | nil => exact .fail nofun
  | cons keyword rest =>
    have hkind : keyword.kind = .word := by
      have hword : t.nthIsWord 0 := by
        rw [State.nthIsWord]
        cases hword : t.nthWord? 0 with
        | none => simp [State.atHeritage, hword] at hcontinues
        | some word => rfl
      obtain ⟨token, htoken, hkind⟩ := exists_of_nthIsWord hword
      rw [hrest] at htoken
      cases htoken
      exact hkind
    refine (Stays.advance_one hrest (by simp [hkind]) (by simp [hkind])).go fun _ u _ => ?_
    refine (Stays.separated (by decide) (by decide) stays_type).go fun types u htypes => ?_
    exact .look (.pure (.inner rfl htypes))

theorem stays_className : Stays source s className (AllWhole source) := by
  refine .look (.ite (fun _ => ?_) fun _ => .pure (List.forall_mem_nil _))
  exact (stays_identifier _).go fun name t hname => .pure (List.forall_mem_singleton.mpr hname)

theorem stays_classParts : Stays source s classParts (AllWhole source) := by
  refine stays_className.go fun name t hname => ?_
  refine (stays_typeParametersIfAny stays_type).go fun generics t hgenerics => ?_
  refine (stays_heritageClauses _).go fun clauses t hclauses => ?_
  refine .braced (fun u => stays_classMembers stays_type) (fun u => .inl ?_) ?_
  · exact members_reads (by decide) recovers_malformedLength consumes_classMember.member u
  intro inside u opening closing behind _ _ hinside
  refine .pure ?_
  simp only [AllWhole, List.forall_mem_append]
  exact ⟨⟨⟨hname, hgenerics⟩, hclauses⟩, hinside⟩

theorem stays_typeAliasParts : Stays source s typeAliasParts (AllWhole source) := by
  refine (stays_identifier _).go fun name t hname => ?_
  refine (stays_typeParametersIfAny stays_type).go fun generics t hgenerics => ?_
  refine (Stays.expect (by decide) (by decide)).go fun _ t _ => ?_
  refine (stays_type t).go fun meaning t hmeaning => ?_
  refine (Stays.accept (by decide) (by decide)).go fun _ t _ => .pure ?_
  refine List.forall_mem_append.mpr ⟨List.forall_mem_cons.mpr ⟨hname, hgenerics⟩, ?_⟩
  exact List.forall_mem_singleton.mpr hmeaning

theorem stays_enumParts : Stays source s enumParts (AllWhole source) := by
  refine (stays_identifier _).go fun name t hname => .look (.ite (fun hopen => ?_) fun _ =>
    .fail nofun)
  obtain ⟨token, rest, hrest, hkind⟩ := rest_of_isAt hopen
  refine (stays_skipGroup (by simp [hrest, hkind, TokenKind.opens])).go fun _ u _ => .pure ?_
  exact List.forall_mem_singleton.mpr hname

theorem stays_moduleName : Stays source s moduleName (Whole source) := by
  refine .look ?_
  cases hrest : s.rest with
  | nil => exact stays_entityName
  | cons token rest =>
    refine .ite (fun hkind => ?_) fun _ => stays_entityName
    refine (Stays.advance_one hrest (by simp [hkind]) (by simp [hkind])).go fun _ t _ => ?_
    exact .pure (.leaf rfl)

theorem stays_statementHead :
    Stays source s statementHead fun head => AllWhole source head.2 := by
  refine Stays.takeDocs.go fun before t _ => stays_skipDecorators.go fun _ t _ => ?_
  refine Stays.takeDocs.go fun behind t _ => ?_
  refine (stays_modifiers looksAhead_statementModifier isModifier_of_statementModifier).go ?_
  exact fun words t hwords => .pure hwords

/-- A declaration is announced by words. -/
theorem kind_of_mem_take_announced {heading : Heading} {announced : Nat}
    (h : s.heading? = some (heading, announced)) :
    ∀ token ∈ s.rest.take announced, token.kind = .word := by
  have hwords : s.nthIsWord 0 ∧ (announced = 1 ∨ announced = 2 ∧ s.nthIsWord 1) := by
    unfold State.heading? at h
    unfold State.nthIsWord
    grind
  obtain ⟨first, hfirst, hkind⟩ := exists_of_nthIsWord hwords.1
  have htake : s.rest.take 1 = [first] := by
    rw [List.take_add_one, hfirst]
    rfl
  rcases hwords.2 with rfl | ⟨rfl, hnext⟩
  · simpa [htake] using hkind
  · obtain ⟨second, hsecond, hkind'⟩ := exists_of_nthIsWord hnext
    rw [List.take_add_one, htake, hsecond]
    simpa using ⟨hkind, hkind'⟩

section

/-- The first brace behind the name, the type parameters and the clauses of an interface opens
its body. -/
theorem stays_interface {block : Parser (List Node)} {first : State}
    (hfirst : first.StandsIn source) (hrest : s.rest <:+ first.rest) (tags : List DocTag)
    {words : List Node} (hwords : AllWhole source words) :
    Stays source s (declaration block first tags words .ofInterface)
      fun node? => ∀ node ∈ node?, Whole source node := by
  have hsplit : declaration block first tags words .ofInterface = (do
      let name ← identifier .interfaceName
      let generics ← typeParametersIfAny type
      let clauses ← repeatWhile (·.atHeritage ["extends"]) heritageClause
      let inside ← braced (typeMembers type)
      let last ← look
      let node := Heading.ofInterface.node first last tags
        (words ++ (name :: generics ++ clauses ++ inside))
      note (.declared node first.errors last.errors)
      return some node) := by
    simp only [declaration, Heading.parts, interfaceParts, bind_assoc, pure_bind]
  rw [hsplit]
  refine .standing fun hs => (stays_identifier _).bind fun name t hname hnameWhole => ?_
  refine .standing fun ht => (stays_typeParametersIfAny stays_type).bind
    fun generics u hgenerics hgenericsWhole => .standing fun hu => ?_
  refine (stays_heritageClauses _).bind fun clauses v hclauses hclausesWhole => ?_
  obtain ⟨front, last, hnodes, hlast, before, hbefore, hends⟩ :=
    ((heads_of_identifier hs hname).typeParametersIfAny ht hgenerics).heritageClauses hu hclauses
  have hleads := ((Forward.of_run hname).trans (Forward.of_run hgenerics)).trans
    (Forward.of_run hclauses)
  have hbehind := hleads.rest.trans hrest
  refine .braced (fun w => stays_typeMembers stays_type) (fun w => .inl ?_) ?_
  · exact members_reads (by decide) recovers_malformedLength
      ((consumes_typeMember _).map some).member w
  intro inside w opening closing behind hsurrounds hclosing hinside
  refine .look (Stays.note.go fun _ x _ => .pure fun node hnode => ?_)
  cases hnode
  refine .of_children (fun _ => ⟨before, v.rest, opening, closing, behind, hbefore, hsurrounds,
    ?_, ?_⟩) ?_
  · refine (opensBody_interface rfl).mpr ⟨words ++ front, last, inside, ?_, hlast, ?_, hends⟩
    swap
    · exact fun node hnode => (hinside node hnode).2
    show words ++ ([name] ++ generics ++ clauses ++ inside) = _
    rw [hnodes]
    simp
  · show (Span.ofBounds first.start (w.advance 1).prevEnd).stop = _
    rw [State.advance_one hclosing]
    exact hfirst.ordered.stop_ofBounds (hbehind.subset hsurrounds.mem)
  · show ∀ node ∈ words ++ (name :: generics ++ clauses ++ inside), _
    simp only [List.forall_mem_append, List.forall_mem_cons]
    exact ⟨hwords, ⟨⟨hnameWhole, hgenericsWhole⟩, hclausesWhole⟩,
      fun node hnode => (hinside node hnode).1⟩

variable {block : Parser (List Node)} [Forward block]
  (hblock : ∀ s, Stays source s block (AllWhole source)) (hreads : ReadsInside block)

include hblock hreads

theorem stays_moduleParts : Stays source s (moduleParts block) (AllWhole source) := by
  refine stays_moduleName.go fun name t hname => .look (.ite (fun _ => ?_) fun _ => ?_)
  · refine .standing fun ht => .braced hblock hreads ?_
    intro nodes u opening closing behind hsurrounds hclosing hnodes
    have hbody : EndsAtBrace source (Node.inner .moduleBlock t.start (u.advance 1).prevEnd nodes) :=
      endsAtBrace_inner ht hsurrounds hclosing (by decide) nodes
    refine .look (.pure (List.forall_mem_cons.mpr ⟨hname, List.forall_mem_singleton.mpr ?_⟩))
    exact .of_children (fun _ => hbody) hnodes
  · refine (Stays.accept (by decide) (by decide)).go fun _ t _ => .pure ?_
    exact List.forall_mem_singleton.mpr hname

theorem stays_declaration {first : State} (hfirst : first.StandsIn source)
    (hrest : s.rest <:+ first.rest) (tags : List DocTag) {words : List Node}
    (hwords : AllWhole source words) (heading : Heading) :
    Stays source s (declaration block first tags words heading)
      fun node? => ∀ node ∈ node?, Whole source node := by
  have hordinary : heading.kind.hasBody = false →
      Stays source s (heading.parts block) (AllWhole source) →
      Stays source s (declaration block first tags words heading)
        fun node? => ∀ node ∈ node?, Whole source node := by
    intro hkind hparts
    refine hparts.go fun parts t hparts => .look (Stays.note.go fun _ u _ => .pure ?_)
    intro node hnode
    cases hnode
    exact .inner hkind (List.forall_mem_append.mpr ⟨hwords, hparts⟩)
  cases heading with
  | ofInterface => exact stays_interface hfirst hrest tags hwords
  | ofClass => exact hordinary rfl stays_classParts
  | ofTypeAlias => exact hordinary rfl stays_typeAliasParts
  | ofEnum => exact hordinary rfl stays_enumParts
  | ofModule => exact hordinary rfl (stays_moduleParts hblock hreads)

theorem stays_statement :
    Stays source s (statement block) fun node? => ∀ node ∈ node?, Whole source node := by
  rw [statement_eq]
  refine .look (.standing fun hs => stays_statementHead.bind fun head t hhead hwords => .look ?_)
  cases hheading : t.heading? with
  | none =>
    refine Stays.go (P := fun _ => True) (.advance fun _ htail h => h.drop_statement htail) ?_
    exact fun _ u _ => .pure nofun
  | some found =>
    refine Stays.bind (P := fun _ => True) (.advance fun _ htail h => h.drop htail _ ?_) ?_
    · intro token htoken
      simp [kind_of_mem_take_announced hheading token htoken]
    · intro _ u hrun _
      have hleads := (Forward.of_run hhead).trans (Forward.of_run hrun)
      exact stays_declaration hblock hreads hs hleads.rest _ hwords _

theorem stays_statements : Stays source s (statements block) (AllWhole source) :=
  .members (by decide) (by decide) (fun _ _ htail hinside => hinside.drop_statement htail)
    fun t => stays_statement hblock hreads

end

theorem reads_statements {block : Parser (List Node)} [Forward block] (s : State) :
    ∃ nodes t, statements block s = (.ok nodes, t) ∧ t.endsMembers :=
  members_reads (by decide) recovers_statementLength consumes_statement s

theorem reads_blockWithin (levels : Nat) : ReadsInside (blockWithin levels) := by
  cases levels with
  | zero => exact fun s => .inr rfl
  | succ levels => exact .nested reads_statements

theorem stays_blockWithin (levels : Nat) (s : State) :
    Stays source s (blockWithin levels) (AllWhole source) := by
  induction levels generalizing s with
  | zero => exact .refuse
  | succ levels ih => exact .nested (stays_statements ih (reads_blockWithin levels))

/-- A source with nested brackets is read up to its end as what stands in a pair of braces is
read up to the closing one. -/
theorem outcome_sourceFile
    (hnests : nests [] ((TokenStream.ofSource source).tokens.map (·.kind))) :
    Outcome source [] (AllWhole source) (sourceFile (.ofSource source)) := by
  have hclosing : Closing [] := by simp [Closing]
  have hs : Enclosed source [] (.ofSource source) := by
    refine ⟨State.standsIn_ofSource source, ?_, fun _ herror => absurd herror List.not_mem_nil⟩
    have hinside := Inside.of_nests hnests []
    rwa [List.append_nil] at hinside
  have hstays : Stays source (.ofSource source) (statements (blockWithin maxDepth))
      (AllWhole source) :=
    stays_statements (stays_blockWithin maxDepth) (reads_blockWithin maxDepth)
  obtain ⟨nodes, t, hrun, hends⟩ : ∃ nodes t,
      statements (blockWithin maxDepth) (.ofSource source) = (.ok nodes, t) ∧ t.endsMembers :=
    reads_statements _
  rw [sourceFile, runsUpTo]
  rcases hstays.of_run hclosing hs hrun with hastray | ⟨ht, hnodes⟩
  · rw [bind_apply_ok hrun]
    exact .of_astray hastray (Forward.leadsTo t)
  · have hrest : t.rest = [] := ht.inside.eq_tail (endsMembers_iff.mp hends)
    rw [bind_apply_ok hrun, look_bind_apply,
      if_neg (not_isAt_of_rest_eq_nil hrest)]
    exact .inr ⟨ht, hnodes⟩

end

end Parser

namespace Parse

open DeclSchema.Parser

/-- In a source whose brackets are nested every interface, every block of a namespace and
every type literal ends with the brace that closes its body, and no closing brace is called
stray, whatever errors there are, unless a level of nesting was refused directly behind an
opening brace. No error is kept of a return type, so that in a source that states one nothing
may be refused. -/
theorem ends_at_brace (source : String)
    (hnests : nests [] ((TokenStream.ofSource source).tokens.map (·.kind)))
    (hreturn : StatesReturnType source → .refused ∉ journal source)
    (hbraces : ∀ error ∈ (ofSource source).errors, ¬ RefusedBehindBrace source error) :
    (∀ node ∈ (ofSource source).root.descendants, node.kind.hasBody → EndsAtBrace source node) ∧
      ∀ error ∈ (ofSource source).errors, error.fault ≠ .strayBrace := by
  obtain ⟨nodes, t, hrun⟩ := sourceFile_eq_ok (.ofSource source)
  have herrors : (ofSource source).errors = t.errors := congrArg (·.2.errors) hrun
  have hjournal : journal source = t.journal := congrArg (·.2.journal) hrun
  have houtcome := outcome_sourceFile hnests
  rw [hrun] at houtcome
  rw [herrors] at hbraces ⊢
  rcases houtcome with hastray | ⟨ht, hnodes⟩
  · rcases hastray with ⟨hstates, hrefused⟩ | ⟨-, error, hmem, herror⟩
    · exact absurd (hjournal ▸ hrefused) (hreturn hstates)
    · exact absurd herror (hbraces error hmem)
  · refine ⟨fun node hnode hkind => ?_, ht.noStray⟩
    rw [root_eq hrun, Node.descendants_eq] at hnode
    exact Whole.inner rfl hnodes node hnode hkind

/-- Types inside each other, with as many braces as are asked for. -/
def bracedTypes (count : Nat) : String :=
  String.join (List.replicate count "\x7bx:") ++ "B" ++ "".pushn '\x7d' count

/-- Of 33 type literals inside each other the last is refused at its brace, so that nothing
is lost but the property it is the type of. -/
theorem ends_at_brace_refused :
    let source := "interface A \x7b m: " ++ bracedTypes 33 ++ " \x7d"
    (∃ error ∈ (ofSource source).errors, error.fault = .nestingTooDeep) ∧
      (∀ node ∈ (ofSource source).root.descendants, node.kind.hasBody →
        EndsAtBrace source node) ∧
      ∀ error ∈ (ofSource source).errors, error.fault ≠ .strayBrace := by
  intro source
  have hsource : nests [] ((TokenStream.ofSource source).tokens.map (·.kind)) ∧
      (∀ token ∈ (TokenStream.ofSource source).tokens, token.kind ≠ .rParen) ∧
      (∃ error ∈ (ofSource source).errors, error.fault = .nestingTooDeep) ∧
      ∀ error ∈ (ofSource source).errors, ¬ RefusedBehindBrace source error := by
    decide +kernel
  obtain ⟨hnests, hparens, hdeep, hbraces⟩ := hsource
  have hreturn : ¬ StatesReturnType source := by
    rintro ⟨before, close, colon, after, htokens, hclose, -⟩
    exact hparens close (by rw [htokens]; simp) hclose
  exact ⟨hdeep, ends_at_brace source hnests (absurd · hreturn) hbraces⟩

/-- Round brackets around the types are one level more: the last of 32 type literals is refused
behind its brace, and the interface ends with the brace of that literal. -/
theorem not_ends_at_brace :
    let source := "interface A \x7b m: (" ++ bracedTypes 32 ++ ") \x7d"
    nests [] ((TokenStream.ofSource source).tokens.map (·.kind)) ∧
      (∀ token ∈ (TokenStream.ofSource source).tokens, token.kind ≠ .unknown) ∧
      (∃ node ∈ (ofSource source).root.descendants, node.kind = .interfaceDeclaration ∧
        ¬ EndsAtBrace source node) ∧
      ∃ error ∈ (ofSource source).errors, error.fault = .strayBrace := by
  intro source
  have hsource : nests [] ((TokenStream.ofSource source).tokens.map (·.kind)) ∧
      (∀ token ∈ (TokenStream.ofSource source).tokens, token.kind ≠ .unknown) ∧
      (∃ error ∈ (ofSource source).errors, error.fault = .strayBrace) ∧
      (ofSource source).root.children.map (fun node => (node.kind, node.span.stop,
        node.children.map fun child => (child.kind, child.span.stop))) =
        [(.interfaceDeclaration, 147, [(.identifier, 11)])] ∧
      ((TokenStream.ofSource source).tokens.tail.head?.map (·.span.stop) = some 11 ∧
        (TokenStream.ofSource source).tokens.tail.tail.head?.map (·.kind) = some .lBrace ∧
        nests [] ((TokenStream.ofSource source).tokens.tail.tail.tail.dropLast.map (·.kind)) ∧
        (TokenStream.ofSource source).tokens.tail.tail.tail.getLast?.map
          (fun token => (token.kind, token.span.stop)) = some (.rBrace, 150)) := by
    decide +kernel
  obtain ⟨hnests, hknown, hstray, hchildren, hshape⟩ := hsource
  refine ⟨hnests, hknown, ?_, hstray⟩
  obtain ⟨node, hroot, hnode⟩ := List.map_eq_singleton_iff.mp hchildren
  obtain ⟨hkind, hnode⟩ := Prod.mk.inj hnode
  obtain ⟨hstop, hnode⟩ := Prod.mk.inj hnode
  obtain ⟨name, hname, hchild⟩ := List.map_eq_singleton_iff.mp hnode
  obtain ⟨hidentifier, hend⟩ := Prod.mk.inj hchild
  have hmem : node ∈ (ofSource source).root.descendants := by
    rw [Node.descendants_eq]
    exact Node.mem_preorder_of_mem (by simp [hroot]) (Node.mem_preorder_self node)
  refine ⟨node, hmem, hkind, fun hends => ?_⟩
  -- The third token and the last one are the braces of the interface.
  obtain ⟨hown, hopen, hinside, hlast⟩ := hshape
  obtain ⟨own, htail, hown⟩ := Option.map_eq_some_iff.mp hown
  obtain ⟨opening, hbehind, hopen⟩ := Option.map_eq_some_iff.mp hopen
  obtain ⟨closing, hlast, hclosing⟩ := Option.map_eq_some_iff.mp hlast
  obtain ⟨inside, hrest⟩ := List.getLast?_eq_some_iff.mp hlast
  obtain ⟨hclose, hclosing⟩ := Prod.mk.inj hclosing
  rw [hrest, List.dropLast_concat] at hinside
  cases htokens : (TokenStream.ofSource source).tokens with
  | nil => simp [htokens] at htail
  | cons keyword behind =>
    rw [htokens, List.tail_cons] at htail hbehind hrest
    replace htokens : (TokenStream.ofSource source).tokens =
        [keyword, own] ++ opening :: (inside ++ [closing]) := by
      rw [htokens, List.eq_cons_of_mem_head? htail, List.eq_cons_of_mem_head? hbehind, hrest]
      rfl
    have hsurrounds : Surrounds opening closing (opening :: (inside ++ [closing])) [] :=
      ⟨inside, rfl, hopen, hclose, hinside⟩
    have hbody : OpensBody node [keyword, own] opening :=
      (opensBody_interface hkind).mpr ⟨[], name, [], hname, by rw [hidentifier]; rfl,
        List.forall_mem_nil _, [keyword], own, [], rfl, hown.trans hend.symm,
        List.forall_mem_nil _⟩
    have hsame := (endsAtBrace_iff htokens hsurrounds hbody).mp hends
    omega

end Parse

end DeclSchema
