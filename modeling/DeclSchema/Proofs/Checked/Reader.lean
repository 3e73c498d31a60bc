import DeclSchema.Proofs.Checked.Tokens
import DeclSchema.Proofs.Parser.Progress

/-!
# Reading with steps that may be undefined

A reader is a parser some of whose steps are undefined in some states: taking a token where
none is left, leaving a level of nesting that was not entered, cutting the quotes off a
literal that has none. `Mirrors` relates a reader to a parser: where every string still to
read stands in quotes, the reader is defined and does what the parser does, and it ends on
the level of nesting on which it began. It is proved step by step along the parser.
-/

open DeclSchema.Parser

namespace DeclSchema

/-- A parser with steps that may be undefined. -/
def Reader (α : Type) : Type :=
  State → Option (Except ParseError α × State)

namespace Reader

variable {α β : Type}

/-- Goes on with the result of a reader that succeeds. -/
protected def bind (c : Reader α) (d : α → Reader β) : Reader β := fun s =>
  match c s with
  | none => none
  | some (.ok a, t) => d a t
  | some (.error error, t) => some (.error error, t)

instance : Monad Reader where
  pure a := fun s => some (.ok a, s)
  bind := Reader.bind

/-- A parser is a reader that is always defined. -/
instance : MonadLift Parser Reader where
  monadLift p := fun s => some (p s)

/-- The value that has to be there. -/
def demand (a? : Option α) : Reader α :=
  fun s => a?.map fun a => (.ok a, s)

/-- The token that has to come next. -/
def take : Reader Token := do
  let token? := (← look).rest.head?
  advance 1
  demand token?

/-- In a state, the reader does what the parser does, and it ends on the level on which it
began. -/
structure Follows (c : Reader α) (p : Parser α) (s : State) : Prop where
  defined : c s = some (p s)
  level : (p s).2.depth = s.depth

/-- All strings still to read stand in quotes. -/
def Readable (s : State) : Prop :=
  ∀ token ∈ s.rest, Checked.InQuotes token

/-- The reader follows the parser in every state in which all strings stand in quotes. -/
def Mirrors (c : Reader α) (p : Parser α) : Prop :=
  ∀ s, Readable s → Follows c p s

theorem Readable.after {s t : State} (hs : Readable s) (h : t.rest <:+ s.rest) : Readable t :=
  fun token htoken => hs token (h.subset htoken)

theorem Readable.advance {s : State} (hs : Readable s) (count : Nat) :
    Readable (s.advance count) :=
  hs.after (List.drop_suffix _ _)

section

variable {c d : Reader α} {p q : Parser α} {f : α → Reader β} {g : α → Parser β} {s : State}

theorem Follows.bind (h : Follows c p s)
    (hf : ∀ a t, p s = (.ok a, t) → Follows (f a) (g a) t) : Follows (c >>= f) (p >>= g) s := by
  have hrun : (c >>= f) s = match some (p s) with
      | none => none
      | some (.ok a, t) => f a t
      | some (.error error, t) => some (.error error, t) := by
    rw [← h.defined]
    rfl
  have hlevel := h.level
  rcases hp : p s with ⟨error | a, t⟩ <;> rw [hp] at hrun hlevel
  · exact ⟨by rw [hrun, bind_apply_error hp], by rw [bind_apply_error hp, hlevel]⟩
  · obtain ⟨hdefined, hend⟩ := hf a t hp
    exact ⟨by rw [hrun, bind_apply_ok hp]; exact hdefined,
      by rw [bind_apply_ok hp, hend]; exact hlevel⟩

theorem Follows.pure (a : α) (s : State) : Follows (Pure.pure a) (Pure.pure a) s :=
  ⟨rfl, rfl⟩

/-- What follows may depend on the state that is seen. -/
theorem Follows.look {f : State → Reader β} {g : State → Parser β} (h : Follows (f s) (g s) s) :
    Follows (liftM look >>= f) (Parser.look >>= g) s :=
  ⟨h.defined, h.level⟩

theorem Follows.lift (h : (p s).2.depth = s.depth) : Follows (liftM p) p s :=
  ⟨rfl, h⟩

namespace Mirrors

theorem pure (a : α) : Mirrors (Pure.pure a) (Pure.pure a) :=
  fun s _ => .pure a s

theorem bind [Forward p] (h : Mirrors c p) (hf : ∀ a, Mirrors (f a) (g a)) :
    Mirrors (c >>= f) (p >>= g) := by
  refine fun s hs => (h s hs).bind fun a t hp => hf a t (hs.after ?_)
  exact (Forward.of_run hp).rest

theorem lookAt {f : State → Reader β} {g : State → Parser β}
    (hf : ∀ s, Readable s → Follows (f s) (g s) s) :
    Mirrors (liftM look >>= f) (look >>= g) :=
  fun s hs => .look (hf s hs)

theorem look {f : State → Reader β} {g : State → Parser β} (hf : ∀ s, Mirrors (f s) (g s)) :
    Mirrors (liftM look >>= f) (look >>= g) :=
  .lookAt fun s hs => hf s s hs

theorem ite {b : Prop} [Decidable b] (h : Mirrors c p) (h' : Mirrors d q) :
    Mirrors (if b then c else d) (if b then p else q) := by
  split
  · exact h
  · exact h'

/-- A step that is taken only under a condition, with what comes behind it. -/
theorem when {b : Prop} [Decidable b] {c : Reader Unit} {p : Parser Unit} [Forward p]
    {f : Unit → Reader β} {g : Unit → Parser β} (h : Mirrors c p)
    (hf : ∀ u, Mirrors (f u) (g u)) :
    Mirrors (if b then c >>= f else f ()) (if b then p >>= g else g ()) :=
  .ite (.bind h hf) (hf ())

/-- One of two steps, with what comes behind it in both cases. -/
theorem either {b : Prop} [Decidable b] [Forward p] [Forward q] (h : Mirrors c p)
    (h' : Mirrors d q) (hf : ∀ a, Mirrors (f a) (g a)) :
    Mirrors (if b then c >>= f else d >>= f) (if b then p >>= g else q >>= g) :=
  .ite (.bind h hf) (.bind h' hf)

theorem fail (fault : Fault) : Mirrors (liftM (fail fault : Parser α)) (fail fault) :=
  fun _ _ => .lift rfl

theorem refuse : Mirrors (liftM (refuse : Parser α)) refuse :=
  fun _ _ => .lift rfl

theorem report (error : ParseError) : Mirrors (liftM (report error)) (report error) :=
  fun _ _ => .lift rfl

theorem note (event : Event) : Mirrors (liftM (note event)) (note event) :=
  fun _ _ => .lift rfl

theorem advance (count : Nat) : Mirrors (liftM (advance count)) (advance count) :=
  fun _ _ => .lift rfl

theorem takeDocs : Mirrors (liftM takeDocs) takeDocs := by
  refine fun s _ => .lift ?_
  unfold Parser.takeDocs
  split <;> rfl

theorem accept (kind : TokenKind) : Mirrors (liftM (accept kind)) (accept kind) := by
  refine fun s _ => .lift ?_
  unfold Parser.accept
  split <;> rfl

theorem acceptWord (word : String) : Mirrors (liftM (acceptWord word)) (acceptWord word) := by
  refine fun s _ => .lift ?_
  unfold Parser.acceptWord
  split <;> rfl

theorem skipGroup : Mirrors (liftM skipGroup) skipGroup :=
  fun _ _ => .lift rfl

theorem skipDecorators : Mirrors (liftM skipDecorators) skipDecorators :=
  fun _ _ => .lift rfl

end Mirrors

/-- A token that comes next can be taken. -/
theorem take_of_rest {token : Token} {rest : List Token} (h : s.rest = token :: rest) :
    take s = some (.ok token, s.advance 1) := by
  show (demand s.rest.head?) (s.advance 1) = _
  rw [h]
  rfl

/-- A value that is there can be demanded. -/
theorem demand_bind {a? : Option α} {a : α} (h : a? = some a) (f : α → Reader β) :
    demand a? >>= f = f a := by
  subst h
  rfl

/-- Taking the next token and going on with it is reading it and going on with it. -/
theorem Follows.take {token : Token} {rest : List Token} (h : s.rest = token :: rest)
    {f : Token → Reader β} {q : Parser β} (hf : Follows (f token) q (s.advance 1)) :
    Follows (Reader.take >>= f) (Parser.advance 1 >>= fun _ => q) s := by
  refine ⟨?_, hf.level⟩
  show Reader.bind Reader.take f s = _
  rw [Reader.bind, take_of_rest h]
  exact hf.defined

/-- Taking a token that is of a kind is reading it. -/
theorem Follows.takeToken {token : Token} {rest : List Token} (h : s.rest = token :: rest)
    {kind : TokenKind} (hkind : token.kind = kind) (what : Wanted) :
    Follows Reader.take (Parser.token kind what) s := by
  have hrun : Parser.token kind what s = (.ok token, s.advance 1) := by
    rw [Parser.token, h]
    exact if_pos hkind
  exact ⟨by rw [take_of_rest h, hrun], by rw [hrun]; rfl⟩

end

/-- Reads a token of a kind, or fails for want of something. -/
def token (kind : TokenKind) (what : Wanted) : Reader Token := do
  if (← look).isAt kind then
    take
  else
    fail (.expected what)

/-- Reads a punctuation mark. -/
def expect (kind : TokenKind) : Reader Token :=
  token kind (.mark kind)

theorem Mirrors.token (kind : TokenKind) (what : Wanted) :
    Mirrors (token kind what) (Parser.token kind what) := by
  intro s _
  have hrun : Reader.token kind what s =
      (if s.isAt kind then take else liftM (Parser.fail (.expected what) : Parser Token)) s := rfl
  cases hrest : s.rest with
  | nil =>
    have hfail : Parser.token kind what s = Parser.fail (.expected what) s := by
      simp [Parser.token, hrest]
    exact ⟨by rw [hrun, if_neg (not_isAt_of_rest_eq_nil hrest), hfail]; rfl, by rw [hfail]; rfl⟩
  | cons first rest =>
    by_cases hkind : first.kind = kind
    · obtain ⟨hdefined, hlevel⟩ := Follows.takeToken hrest hkind what
      exact ⟨by rw [hrun, if_pos ((isAt_iff hrest).mpr hkind), hdefined], hlevel⟩
    · have hfail : Parser.token kind what s = Parser.fail (.expected what) s := by
        simp [Parser.token, hrest, hkind]
      exact ⟨by rw [hrun, if_neg (mt (isAt_iff hrest).mp hkind), hfail]; rfl, by rw [hfail]; rfl⟩

theorem Mirrors.expect (kind : TokenKind) : Mirrors (expect kind) (Parser.expect kind) :=
  .token kind _

/-- Runs a reader one level deeper, and leaves the level that was entered. -/
def nested (c : Reader α) : Reader α := fun s =>
  if maxDepth ≤ s.depth then
    (liftM (refuse : Parser α) : Reader α) s
  else do
    let (result, t) ← c { s with depth := s.depth + 1 }
    let depth ← t.depth.ppred
    return (result, { t with depth := depth })

/-- The level that was entered is there to be left. -/
theorem Mirrors.nested {c : Reader α} {p : Parser α} (h : Mirrors c p) :
    Mirrors (nested c) (Parser.nested p) := by
  intro s hs
  unfold Reader.nested Parser.nested
  by_cases hdepth : maxDepth ≤ s.depth
  · exact ⟨by simp only [if_pos hdepth]; rfl, by simp only [if_pos hdepth]; rfl⟩
  obtain ⟨hdefined, hlevel⟩ := h { s with depth := s.depth + 1 } hs
  rcases hp : p { s with depth := s.depth + 1 } with ⟨result, t⟩
  rw [hp] at hdefined hlevel
  replace hlevel : t.depth = s.depth + 1 := hlevel
  constructor
  · simp [hdepth, hdefined, hp, hlevel]
  · simp [hdepth, hp, hlevel]

/-- What a reader reads when `test` has read its mark, and otherwise nothing. -/
def optional (test : Parser Bool) (c : Reader α) : Reader (List α) := do
  if ← test then
    return [← c]
  else
    return []

/-- Runs `item` at most `count` times, as long as `continues` holds. -/
def upTo (continues : State → Bool) (item : Reader α) : Nat → Reader (List α)
  | 0 => return []
  | count + 1 => do
    if continues (← look) then
      let a ← item
      return a :: (← upTo continues item count)
    else
      return []

/-- Runs `item` as long as `continues` holds. -/
def repeatWhile (continues : State → Bool) (item : Reader α) : Reader (List α) :=
  fun s => upTo continues item s.rest.length s

/-- One item or more, with a separator between them. -/
def separated (separator : TokenKind) (item : Reader α) : Reader (List α) := do
  let first ← item
  let others ← repeatWhile (·.isAt separator) do
    advance 1
    item
  return first :: others

/-- At most `count` items with commas between them, up to a closing mark. -/
def listUpTo (close : TokenKind) (item : Reader α) : Nat → Reader (List α)
  | 0 => return []
  | count + 1 => do
    if ← accept close then
      return []
    else
      let a ← item
      if ← accept .comma then
        return a :: (← listUpTo close item count)
      else
        let _ ← expect close
        return [a]

/-- Items with commas between them, up to and with a closing mark. -/
def commaList (close : TokenKind) (item : Reader α) : Reader (List α) :=
  fun s => listUpTo close item (s.rest.length + 1) s

/-- The result of a reader, be it an error. -/
def attempt (c : Reader α) : Reader (Except ParseError α) :=
  fun s => (c s).map fun (result, t) => (.ok result, t)

/-- At most `count` members, malformed ones and those without a node included. What has to
be skipped behind an error may be undefined. -/
def membersUpTo (separates : TokenKind → Bool) (recovery : List Token → Option Nat)
    (member : Reader (Option Node)) : Nat → Reader (List Node)
  | 0 => return []
  | count + 1 => do
    advance ((← look).rest.takeWhile (separates ·.kind)).length
    let s ← look
    if s.atEnd || s.isAt .rBrace then
      return []
    else
      match ← attempt member with
      | .ok node? => return node?.toList ++ (← membersUpTo separates recovery member count)
      | .error error =>
        report error
        advance (← demand (recovery (← look).rest))
        membersUpTo separates recovery member count

/-- Members up to a closing brace or the end. -/
def members (separates : TokenKind → Bool) (recovery : List Token → Option Nat)
    (member : Reader (Option Node)) : Reader (List Node) :=
  fun s => membersUpTo separates recovery member s.rest.length s

namespace Mirrors

variable {c : Reader α} {p : Parser α} [Forward p]

theorem optional {test : Parser Bool} [Forward test] (htest : Mirrors (liftM test) test)
    (h : Mirrors c p) : Mirrors (optional test c) (Parser.optional test p) :=
  .bind htest fun _ => .ite (.bind h fun a => .pure [a]) (.pure [])

/-- An item is read only where the repetition goes on. -/
theorem upTo {continues : State → Bool}
    (h : ∀ s, Readable s → continues s → Follows c p s) (count : Nat) :
    Mirrors (upTo continues c count) (Parser.upTo continues p count) := by
  induction count with
  | zero => exact .pure []
  | succ count ih =>
    refine .lookAt fun s hs => ?_
    by_cases hcontinues : continues s
    · simp only [hcontinues, if_true]
      refine (h s hs hcontinues).bind fun a t hp => ?_
      refine (ih.bind fun as => .pure (a :: as)) t (hs.after ?_)
      exact (Forward.of_run hp).rest
    · simp only [hcontinues, if_false, Bool.false_eq_true]
      exact .pure [] s

theorem repeatWhile {continues : State → Bool}
    (h : ∀ s, Readable s → continues s → Follows c p s) :
    Mirrors (repeatWhile continues c) (Parser.repeatWhile continues p) :=
  fun s hs => ⟨(upTo h s.rest.length s hs).defined, (upTo h s.rest.length s hs).level⟩

theorem separated (separator : TokenKind) (h : Mirrors c p) :
    Mirrors (separated separator c) (Parser.separated separator p) := by
  refine .bind h fun first => .bind (.repeatWhile fun s hs _ => ?_) fun _ => .pure _
  exact (Mirrors.bind (.advance 1) fun _ => h) s hs

theorem listUpTo {close : TokenKind} (h : Mirrors c p) (count : Nat) :
    Mirrors (listUpTo close c count) (Parser.listUpTo close p count) := by
  induction count with
  | zero => exact .pure []
  | succ count ih =>
    refine .bind (.accept close) fun _ => .ite (.pure []) (.bind h fun a => ?_)
    refine .bind (.accept .comma) fun _ => .ite (.bind ih fun _ => .pure _) ?_
    exact .bind (.expect close) fun _ => .pure [a]

theorem commaList {close : TokenKind} (h : Mirrors c p) :
    Mirrors (commaList close c) (Parser.commaList close p) :=
  fun s hs => ⟨(listUpTo h (s.rest.length + 1) s hs).defined,
    (listUpTo h (s.rest.length + 1) s hs).level⟩

omit [Forward p] in
theorem attempt (h : Mirrors c p) : Mirrors (attempt c) (Parser.attempt p) := by
  intro s hs
  obtain ⟨hdefined, hlevel⟩ := h s hs
  exact ⟨by rw [Reader.attempt, hdefined]; rfl, hlevel⟩

theorem membersUpTo {separates : TokenKind → Bool} {recovery? : List Token → Option Nat}
    {recovery : List Token → Nat} (hrecovery : ∀ tokens, recovery? tokens = some (recovery tokens))
    {member : Reader (Option Node)} {q : Parser (Option Node)} [Forward q]
    (h : Mirrors member q) (count : Nat) :
    Mirrors (membersUpTo separates recovery? member count)
      (Parser.membersUpTo separates recovery q count) := by
  induction count with
  | zero => exact .pure []
  | succ count ih =>
    refine .look fun s => .bind (.advance _) fun _ => .look fun t => .ite (.pure []) ?_
    refine .bind h.attempt fun result => ?_
    cases result with
    | ok node? => exact .bind ih fun _ => .pure _
    | error error =>
      refine .bind (.report error) fun _ => .look fun u => ?_
      rw [hrecovery]
      exact .bind (.advance _) fun _ => ih

theorem members {separates : TokenKind → Bool} {recovery? : List Token → Option Nat}
    {recovery : List Token → Nat} (hrecovery : ∀ tokens, recovery? tokens = some (recovery tokens))
    {member : Reader (Option Node)} {q : Parser (Option Node)} [Forward q]
    (h : Mirrors member q) :
    Mirrors (members separates recovery? member) (Parser.members separates recovery q) :=
  fun s hs => ⟨(membersUpTo hrecovery h s.rest.length s hs).defined,
    (membersUpTo hrecovery h s.rest.length s hs).level⟩

end Mirrors

end Reader

end DeclSchema
