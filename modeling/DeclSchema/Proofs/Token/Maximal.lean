import DeclSchema.Proofs.Token.Concatenation
import DeclSchema.Proofs.Token.Newlines
import DeclSchema.Proofs.Token.Patterns

/-!
# Longest matches

The tokens of a source and the text between them make up the source. A token is matched by
a pattern of its kind, and no pattern matches a longer start of the text from there on.
Between tokens stand only white space, comments up to the end of a line, and closed comments
that are no documentation.
-/

namespace DeclSchema

open Pattern Lexicon Piece

namespace Lexicon

/-- A comment in a block that ends with its first closing mark. -/
def IsComment (text : List Char) : Prop :=
  ∃ inner, text = '/' :: '*' :: (inner ++ ['*', '/']) ∧ ¬ ['*', '/'] <:+: inner ++ ['*']

/-- Whether a comment documents what follows it. -/
def Documents (text : List Char) : Prop :=
  ['/', '*', '*'] <+: text ∧ text ≠ ['/', '*', '*', '/']

/-- Text that only separates tokens, with the text behind it. -/
inductive Separates : List Char → List Char → Prop
  | nil (behind : List Char) : Separates [] behind
  | blank {c : Char} {gap behind : List Char} (hc : c ∈ [' ', '\t', '\r', '\n', '\x0c'])
    (hgap : Separates gap behind) : Separates (c :: gap) behind
  | line {inner gap behind : List Char} (hinner : '\n' ∉ inner)
    (hend : gap ++ behind = [] ∨ (gap ++ behind).head? = some '\n')
    (hgap : Separates gap behind) : Separates ('/' :: '/' :: inner ++ gap) behind
  | block {comment gap behind : List Char} (hcomment : IsComment comment)
    (hplain : ¬ Documents comment) (hgap : Separates gap behind) :
    Separates (comment ++ gap) behind

/-- A token of a kind with the text behind it. Of unknown kind is only the opening mark of a
comment that is never closed, and text from where on no pattern matches at all. -/
def IsLongest (kind : TokenKind) (text behind : List Char) : Prop :=
  match kind with
  | .docComment => IsComment text ∧ Documents text
  | .unknown =>
    text = ['/', '*'] ∧ ¬ ['*', '/'] <:+: behind ∨
      ∀ rule w, Matches rule w → ¬ w <+: text ++ behind
  | kind =>
    Matches (.token kind) text ∧
      ∀ rule w, Matches rule w → w <+: text ++ behind → w.length ≤ text.length

theorem Separates.append {gap more behind : List Char} (h : Separates gap (more ++ behind))
    (hmore : Separates more behind) : Separates (gap ++ more) behind := by
  generalize htail : more ++ behind = tail at h
  induction h with
  | nil => exact hmore
  | blank hc _ ih => exact .blank hc (ih htail)
  | @line inner gap _ hinner hend _ ih =>
    rw [List.append_assoc]
    refine .line hinner ?_ (ih htail)
    rwa [List.append_assoc, htail]
  | block hcomment hplain _ ih =>
    rw [List.append_assoc]
    exact .block hcomment hplain (ih htail)

theorem separates_of_blank {blank : List Char} (h : ∀ c ∈ blank, isSeparator c)
    (behind : List Char) : Separates blank behind := by
  induction blank with
  | nil => exact .nil behind
  | cons c blank ih =>
    rw [List.forall_mem_cons] at h
    exact .blank (by simpa [isSeparator, or_assoc] using h.1) (ih h.2)

theorem take_commentLength? {cs : List Char} {length : Nat} (h : commentLength? cs = some length) :
    ∃ inner, cs.take length = inner ++ ['*', '/'] ∧ ¬ ['*', '/'] <:+: inner ++ ['*'] := by
  induction cs generalizing length with
  | nil => cases h
  | cons c cs ih =>
    rw [commentLength?] at h
    split at h
    · next hclose =>
      obtain ⟨rfl, hslash⟩ : c = '*' ∧ cs.head? = some '/' := by simpa using hclose
      obtain ⟨rest, rfl⟩ := List.head?_eq_some_iff.mp hslash
      cases h
      exact ⟨[], rfl, by decide⟩
    · next hopen =>
      obtain ⟨length, hlength, rfl⟩ := Option.map_eq_some_iff.mp h
      obtain ⟨inner, htake, hfirst⟩ := ih hlength
      refine ⟨c :: inner, by rw [List.take_succ_cons, htake]; rfl, ?_⟩
      rw [List.cons_append, List.infix_cons_iff, not_or]
      refine ⟨fun hbegins => hopen ?_, hfirst⟩
      obtain ⟨rfl, hrest⟩ := List.cons_prefix_cons.mp hbegins
      cases inner with
      | nil => exact absurd hrest (by decide)
      | cons d inner =>
        obtain ⟨rfl, -⟩ := List.cons_prefix_cons.mp hrest
        have hhead : cs.head? = some '/' := by
          rw [← List.take_append_drop length cs, htake]
          rfl
        simp [hhead]

theorem commentLength?_eq_none {cs : List Char} (h : commentLength? cs = none) :
    ¬ ['*', '/'] <:+: cs := by
  induction cs with
  | nil => decide
  | cons c cs ih =>
    rw [commentLength?] at h
    split at h
    · cases h
    · next hopen =>
      rw [List.infix_cons_iff, not_or]
      refine ⟨fun hbegins => hopen ?_, ih (Option.map_eq_none_iff.mp h)⟩
      obtain ⟨rfl, ⟨rest, rfl⟩⟩ := List.cons_prefix_cons.mp hbegins
      rfl

theorem isComment_of_commentLength? {cs : List Char} {length : Nat}
    (h : commentLength? cs = some length) : IsComment ('/' :: '*' :: cs.take length) := by
  obtain ⟨inner, htake, hfirst⟩ := take_commentLength? h
  exact ⟨inner, by rw [htake], hfirst⟩

theorem documents_iff {cs : List Char} {length : Nat} (h : commentLength? cs = some length) :
    Documents ('/' :: '*' :: cs.take length) ↔ isDocumentation cs := by
  obtain ⟨hlow, hle⟩ := commentLength?_le h
  match cs, hle with
  | [], hle => exact absurd hle (by simp; omega)
  | [_], hle => exact absurd hle (by simp; omega)
  | first :: second :: rest, _ =>
    obtain ⟨count, rfl⟩ : ∃ count, length = count + 2 := ⟨length - 2, by omega⟩
    by_cases hempty : first = '*' ∧ second = '/'
    · obtain ⟨rfl, rfl⟩ := hempty
      have hcount : 2 = count + 2 := Option.some.inj h
      obtain rfl : count = 0 := by omega
      simp [Documents, isDocumentation]
    · have hsecond : first = '*' → second ≠ '/' := fun hfirst hslash => hempty ⟨hfirst, hslash⟩
      simp only [Documents, isDocumentation, List.take_succ_cons, List.cons_prefix_cons,
        List.nil_prefix, List.head?_cons, List.take_zero, ne_eq, List.cons.injEq, true_and,
        and_true, Bool.and_eq_true, beq_iff_eq, Option.some.injEq, bne_iff_ne]
      constructor
      · rintro ⟨rfl, -⟩
        exact ⟨rfl, by simpa using hsecond rfl⟩
      · rintro ⟨rfl, -⟩
        exact ⟨rfl, by simpa using fun hslash => absurd hslash (hsecond rfl)⟩

/-- Behind a slash begins a comment up to the end of the line, a comment in a block, or
nothing that belongs to it. -/
theorem slashed_cases (cs : List Char) :
    (∃ rest, cs = '/' :: rest) ∨ (∃ rest, cs = '*' :: rest) ∨ slashed cs = (some .slash, 1) := by
  match cs with
  | [] => exact .inr (.inr rfl)
  | c :: rest =>
    by_cases hslash : c = '/'
    · exact .inl ⟨rest, by rw [hslash]⟩
    by_cases hstar : c = '*'
    · exact .inr (.inl ⟨rest, by rw [hstar]⟩)
    · exact .inr (.inr (slashed_of_ne hslash hstar rest))

theorem first_closed {cs : List Char} {length : Nat} (h : commentLength? cs = some length) :
    first '/' ('*' :: cs) =
        ⟨if isDocumentation cs then some .docComment else none, '/' :: '*' :: cs.take length⟩ ∧
      afterFirst '/' ('*' :: cs) = cs.drop length := by
  have hnext : next '/' ('*' :: cs) =
      (if isDocumentation cs then some .docComment else none, 2 + length) := by
    show slashed ('*' :: cs) = _
    rw [slashed, h]
  have hlength : 2 + length - 1 = length + 1 := by omega
  rw [first, afterFirst, hnext]
  dsimp only
  rw [hlength, List.take_succ_cons, List.drop_succ_cons]
  exact ⟨rfl, rfl⟩

theorem first_open {cs : List Char} (h : commentLength? cs = none) :
    first '/' ('*' :: cs) = ⟨some .unknown, ['/', '*']⟩ ∧ afterFirst '/' ('*' :: cs) = cs := by
  have hnext : next '/' ('*' :: cs) = (some .unknown, 2) := by
    show slashed ('*' :: cs) = _
    rw [slashed, h]
  rw [first, afterFirst, hnext]
  exact ⟨rfl, rfl⟩

theorem numberLength_pos {c : Char} (h : c.isDigit) (cs : List Char) :
    0 < numberLength (c :: cs) := by
  have hrun : run isDigitOrGap (c :: cs) = run isDigitOrGap cs + 1 := by
    rw [run, List.takeWhile_cons_of_pos (by simp [isDigitOrGap, h])]
    rfl
  refine Nat.lt_of_lt_of_le ?_ (Nat.le_max_left _ _)
  unfold decimalLength
  dsimp only
  omega

theorem slashed_pos (cs : List Char) : 0 < (slashed cs).2 := by
  unfold slashed
  split
  · exact Nat.add_pos_left Nat.two_pos _
  · split
    · exact Nat.two_pos
    · exact Nat.add_pos_left Nat.two_pos _
  · exact Nat.one_pos

theorem pointed_pos (cs : List Char) : 0 < (pointed cs).2 := by
  unfold pointed
  split
  · decide
  · split
    · exact Nat.add_pos_left Nat.one_pos _
    · exact Nat.one_pos
  · exact Nat.one_pos

theorem pointed_ne_unknown (cs : List Char) : (pointed cs).1 ≠ some .unknown := by
  unfold pointed
  split
  · decide
  · split
    · exact fun h => absurd h (by simp)
    · decide
  · decide

theorem ofMark?_ne_unknown (c : Char) : TokenKind.ofMark? c ≠ some .unknown := by
  unfold TokenKind.ofMark?
  split <;> decide

theorem next_pos (c : Char) (cs : List Char) : 0 < (next c cs).2 := by
  unfold next
  split
  · exact Nat.add_pos_left Nat.one_pos _
  split
  · exact Nat.add_pos_left Nat.one_pos _
  split
  · next hdigit => exact numberLength_pos hdigit cs
  split
  · exact Nat.succ_pos _
  · exact Nat.succ_pos _
  · exact Nat.succ_pos _
  · exact slashed_pos cs
  · exact pointed_pos cs
  · split
    · exact Nat.two_pos
    · exact Nat.one_pos
  · exact Nat.one_pos

/-- How far the patterns reach at the start of a text. -/
def reach (c : Char) (cs : List Char) : Nat :=
  if (next c cs).1 = some .unknown ∧ c ≠ '/' then 0 else (next c cs).2

theorem reach_eq {c : Char} {cs : List Char} {kind : Option TokenKind} {length : Nat}
    (h : next c cs = (kind, length)) (hkind : kind ≠ some .unknown) : reach c cs = length := by
  rw [reach, h, if_neg fun hunknown => hkind hunknown.1]

theorem reach_pos {c : Char} {cs : List Char} (h : (next c cs).1 ≠ some .unknown ∨ c = '/') :
    1 ≤ reach c cs := by
  rw [reach, if_neg fun hunknown => h.elim (· hunknown.1) hunknown.2]
  exact next_pos c cs

section

variable {c : Char} {cs w : List Char} (hbegins : w <+: c :: cs)

include hbegins

theorem length_le_of_blank (hw : w ∈ blank) : w.length ≤ reach c cs := by
  have hbound := (reaches_blank (c :: cs)).bound w hw hbegins
  by_cases hsep : isSeparator c
  · rw [run, List.takeWhile_cons_of_pos hsep] at hbound
    rw [reach_eq (next_of_isSeparator hsep cs) (by decide), Nat.add_comm]
    exact hbound
  · rw [run, List.takeWhile_cons_of_neg hsep] at hbound
    exact Nat.le_trans hbound (Nat.zero_le _)

theorem length_le_of_lineComment (hw : w ∈ lineComment) : w.length ≤ reach c cs := by
  obtain ⟨_, rest, rfl, hrest, rfl⟩ := mem_one_mul.mp hw
  obtain ⟨_, inner, rfl, -, rfl⟩ := mem_one_mul.mp hrest
  obtain ⟨rfl, hbehind⟩ := List.cons_prefix_cons.mp hbegins
  obtain ⟨tail, rfl⟩ := hbehind
  have hbound := (reaches_lineComment (inner ++ tail)).bound _ hw hbegins
  have hnext : next '/' ('/' :: inner ++ tail) = (none, 2 + run (· != '\n') (inner ++ tail)) := rfl
  rwa [reach_eq hnext (by decide), Nat.add_comm]

theorem length_le_of_commentOpening (hw : w = ['/', '*']) : w.length ≤ reach c cs := by
  subst hw
  obtain ⟨rfl, tail, rfl⟩ := List.cons_prefix_cons.mp hbegins
  show 2 ≤ reach '/' ('*' :: tail)
  have hnext : next '/' ('*' :: tail) = slashed ('*' :: tail) := rfl
  rw [reach, if_neg (by simp), hnext, slashed]
  split
  · exact Nat.le_refl 2
  · exact Nat.le_add_right 2 _

theorem length_le_of_word (hw : w ∈ word) : w.length ≤ reach c cs := by
  by_cases hword : startsWord c
  · have hbound := (reaches_word hword cs).bound w hw hbegins
    rwa [reach_eq (next_of_startsWord hword cs) (by decide), Nat.add_comm]
  · obtain ⟨d, rest, hd, -, rfl⟩ := mem_one_mul.mp hw
    obtain ⟨rfl, -⟩ := List.cons_prefix_cons.mp hbegins
    exact absurd ((inRanges_letters d).mp hd) hword

theorem length_le_of_number (hw : w ∈ number) : w.length ≤ reach c cs := by
  have hstart : c.isDigit := by
    have hzero : ∀ lower upper ranges, w ∈ radix lower upper ranges → c.isDigit := by
      intro lower upper ranges hmem
      obtain ⟨_, _, rfl, -, rfl⟩ := mem_one_mul.mp hmem
      obtain ⟨rfl, -⟩ := List.cons_prefix_cons.mp hbegins
      rfl
    rcases mem_number.mp hw with hmem | hmem | hmem | hmem
    · obtain ⟨d, _, hd, -, rfl⟩ := mem_one_mul.mp hmem
      obtain ⟨rfl, -⟩ := List.cons_prefix_cons.mp hbegins
      exact (inRanges_digits d).mp hd
    · exact hzero _ _ _ hmem
    · exact hzero _ _ _ hmem
    · exact hzero _ _ _ hmem
  have hbound := (reaches_number hstart cs).bound w hw hbegins
  rwa [reach_eq (next_of_isDigit hstart cs) (by decide)]

theorem length_le_of_pointedDecimal (hw : w ∈ pointedDecimal) : w.length ≤ reach c cs := by
  obtain ⟨_, rest, rfl, hrest, rfl⟩ := mem_one_mul.mp hw
  obtain ⟨d, inner, hd, -, rfl⟩ := mem_one_mul.mp hrest
  obtain ⟨rfl, hbehind⟩ := List.cons_prefix_cons.mp hbegins
  obtain ⟨tail, rfl⟩ := hbehind
  have hdigit := (inRanges_digits d).mp hd
  have hbound := (reaches_pointedDecimal hdigit (inner ++ tail)).bound _ hw hbegins
  have hnext : next '.' (d :: inner ++ tail) =
      (some .number, 1 + pointedLength (d :: inner ++ tail)) := by
    have hpoint : d ≠ '.' := by
      rintro rfl
      exact absurd hdigit (by decide)
    show pointed (d :: (inner ++ tail)) = _
    rw [pointed_of_ne hpoint, if_pos hdigit]
    rfl
  rwa [reach_eq hnext (by decide), Nat.add_comm]

theorem length_le_of_quotedText {quote : Char} {multiline : Bool} {excluded : List Char}
    {kind : TokenKind} (hquote : quote ≠ '\\')
    (hexcluded : ∀ c, c ∉ excluded ↔ c ≠ quote ∧ c ≠ '\\' ∧ ¬ (c = '\n' ∧ multiline = false))
    (hkind : kind ≠ .unknown) (hnext : ∀ cs, next quote cs = quoted kind quote multiline cs)
    (hw : w ∈ quotedText quote excluded) : w.length ≤ reach c cs := by
  obtain ⟨d, rest, hd, -, rfl⟩ := mem_one_mul.mp hw
  obtain ⟨rfl, -⟩ := List.cons_prefix_cons.mp hbegins
  obtain rfl : quote = d := hd.symm
  have hbound := (reaches_quotedText hquote hexcluded cs).bound _ hw hbegins
  split at hbound
  · next hclosed =>
    have hquoted : next quote cs = (some kind, (quotedLength quote multiline cs).1 + 1) := by
      rw [hnext]
      show (some (if (quotedLength quote multiline cs).2 then kind else .unknown), _) = _
      rw [if_pos hclosed]
    rwa [reach_eq hquoted (by simpa using hkind)]
  · exact Nat.le_trans hbound (Nat.zero_le _)

theorem length_le_of_mark {kind : TokenKind} (hmark : (kind, w) ∈ marks) :
    w.length ≤ reach c cs := by
  rcases marks_cases _ hmark with ⟨hlength, hkind⟩ | heq | heq
  · obtain ⟨d, rfl⟩ := List.length_eq_one_iff.mp hlength
    obtain ⟨rfl, -⟩ := List.cons_prefix_cons.mp hbegins
    have hknown : TokenKind.ofMark? d = some kind := hkind
    apply reach_pos
    by_cases hlong : d ∈ ['/', '.', '=']
    · simp only [List.mem_cons, List.not_mem_nil, or_false] at hlong
      rcases hlong with rfl | rfl | rfl
      · exact .inr rfl
      · exact .inl (pointed_ne_unknown cs)
      · refine .inl ?_
        show (if cs.head? == some '>' then (some TokenKind.arrow, 2) else (some .eq, 1)).1 ≠ _
        split <;> decide
    · rw [next_mark hknown hlong]
      exact .inl fun hunknown => ofMark?_ne_unknown d (hknown.trans hunknown)
  · obtain ⟨rfl, rfl⟩ := Prod.mk.inj heq
    obtain ⟨tail, heq⟩ := hbegins
    obtain ⟨rfl, rfl⟩ := List.cons.inj heq
    exact Nat.le_refl 3
  · obtain ⟨rfl, rfl⟩ := Prod.mk.inj heq
    obtain ⟨tail, heq⟩ := hbegins
    obtain ⟨rfl, rfl⟩ := List.cons.inj heq
    exact Nat.le_refl 2

end

/-- No pattern reaches further than the first piece. -/
theorem length_le_of_matches {rule : Rule} {c : Char} {cs w : List Char} (h : Matches rule w)
    (hbegins : w <+: c :: cs) : w.length ≤ reach c cs := by
  obtain ⟨L, hL, hw⟩ := h
  rcases List.mem_append.mp hL with hL | hL
  · simp only [List.mem_cons, List.not_mem_nil, or_false, Prod.mk.injEq] at hL
    rcases hL with ⟨-, rfl⟩ | ⟨-, rfl⟩ | ⟨-, rfl⟩ | ⟨-, rfl⟩ | ⟨-, rfl⟩ | ⟨-, rfl⟩ | ⟨-, rfl⟩ |
      ⟨-, rfl⟩ | ⟨-, rfl⟩ | ⟨-, rfl⟩ | ⟨-, rfl⟩ | ⟨-, rfl⟩
    · exact length_le_of_blank hbegins hw
    · exact length_le_of_lineComment hbegins hw
    · exact length_le_of_commentOpening hbegins hw
    · exact length_le_of_word hbegins hw
    · exact length_le_of_quotedText hbegins (by decide) (not_mem_excluded _) (by decide)
        (fun _ => rfl) hw
    · exact length_le_of_quotedText hbegins (by decide) (not_mem_excluded _) (by decide)
        (fun _ => rfl) hw
    · exact length_le_of_quotedText hbegins (by decide) (not_mem_excluded_multiline _)
        (by decide) (fun _ => rfl) hw
    · exact length_le_of_number hbegins (mem_number.mpr (.inl hw))
    · exact length_le_of_pointedDecimal hbegins hw
    · exact length_le_of_number hbegins (mem_number.mpr (.inr (.inl hw)))
    · exact length_le_of_number hbegins (mem_number.mpr (.inr (.inr (.inl hw))))
    · exact length_le_of_number hbegins (mem_number.mpr (.inr (.inr (.inr hw))))
  · obtain ⟨⟨kind, text⟩, hmark, heq⟩ := List.mem_map.mp hL
    cases heq
    obtain rfl : w = text := hw
    exact length_le_of_mark hbegins hmark

section

variable {c : Char} {cs : List Char}

theorem text_first : (first c cs).text = (c :: cs).take (next c cs).2 := by
  obtain ⟨length, hlength⟩ := Nat.exists_eq_add_one_of_ne_zero (Nat.ne_of_gt (next_pos c cs))
  show c :: cs.take ((next c cs).2 - 1) = _
  rw [hlength]
  rfl

theorem length_text_first : (first c cs).text.length = (next c cs).2 := by
  rw [text_first, List.length_take, List.length_cons, Nat.min_eq_left (next_le c cs)]

theorem not_matches_nil {rule : Rule} : ¬ Matches rule [] := by
  rintro ⟨L, hL, hnil⟩
  rcases List.mem_append.mp hL with hL | hL
  · simp only [List.mem_cons, List.not_mem_nil, or_false, Prod.mk.injEq] at hL
    rcases hL with ⟨-, rfl⟩ | ⟨-, rfl⟩ | ⟨-, rfl⟩ | ⟨-, rfl⟩ | ⟨-, rfl⟩ | ⟨-, rfl⟩ | ⟨-, rfl⟩ |
      ⟨-, rfl⟩ | ⟨-, rfl⟩ | ⟨-, rfl⟩ | ⟨-, rfl⟩ | ⟨-, rfl⟩
    case inr.inr.inl => cases hnil
    all_goals exact nil_not_mem_one_mul hnil
  · obtain ⟨mark, hmark, heq⟩ := List.mem_map.mp hL
    cases heq
    have hempty : mark.2 = [] := hnil.symm
    have hlength : ∀ mark ∈ marks, mark.2 ≠ [] := by decide
    exact hlength mark hmark hempty

/-- A quoted text that is closed is matched by its pattern. -/
theorem matches_quoted {kind wanted : TokenKind} {quote : Char} {multiline : Bool}
    {excluded : List Char} (hquote : quote ≠ '\\')
    (hexcluded : ∀ c, c ∉ excluded ↔ c ≠ quote ∧ c ≠ '\\' ∧ ¬ (c = '\n' ∧ multiline = false))
    (hmem : (.token wanted, quotedText quote excluded) ∈ patterns) (hunknown : kind ≠ .unknown)
    (h : (quoted wanted quote multiline cs).1 = some kind) :
    Matches (.token kind) ((quote :: cs).take (quoted wanted quote multiline cs).2) := by
  have hreach := reaches_quotedText hquote hexcluded cs
  have hkind : (if (quotedLength quote multiline cs).2 then wanted else .unknown) = kind :=
    Option.some.inj h
  split at hkind
  · next hclosed =>
    subst hkind
    rw [if_pos hclosed] at hreach
    exact ⟨_, hmem, hreach.mem (Nat.succ_ne_zero _)⟩
  · exact absurd hkind.symm hunknown

theorem matches_slashed {kind : TokenKind} (hunknown : kind ≠ .unknown) (hdoc : kind ≠ .docComment)
    (h : (slashed cs).1 = some kind) :
    Matches (.token kind) (('/' :: cs).take (slashed cs).2) := by
  rcases slashed_cases cs with ⟨rest, rfl⟩ | ⟨rest, rfl⟩ | hslash
  · cases h
  · rw [slashed] at h
    split at h
    · exact absurd (Option.some.inj h).symm hunknown
    · dsimp only at h
      split at h
      · exact absurd (Option.some.inj h).symm hdoc
      · cases h
  · rw [hslash] at h ⊢
    cases h
    show Matches _ ['/']
    exact matches_mark (by decide)

theorem matches_pointed {kind : TokenKind} (h : (pointed cs).1 = some kind) :
    Matches (.token kind) (('.' :: cs).take (pointed cs).2) := by
  match cs with
  | [] =>
    cases h
    exact matches_mark (by decide)
  | c :: rest =>
    by_cases hpoint : c = '.'
    · subst hpoint
      match rest with
      | [] =>
        cases h
        exact matches_mark (by decide)
      | d :: rest =>
        by_cases hsecond : d = '.'
        · subst hsecond
          cases h
          show Matches _ ['.', '.', '.']
          exact matches_mark (by decide)
        · rw [pointed_of_single hsecond] at h ⊢
          cases h
          show Matches _ ['.']
          exact matches_mark (by decide)
    · rw [pointed_of_ne hpoint] at h ⊢
      split at h
      · next hdigit =>
        cases h
        rw [if_pos hdigit, Nat.add_comm]
        exact ⟨pointedDecimal, by simp [patterns],
          (reaches_pointedDecimal hdigit rest).mem (Nat.succ_ne_zero _)⟩
      · next hdigit =>
        cases h
        rw [if_neg hdigit]
        show Matches _ ['.']
        exact matches_mark (by decide)

/-- A token of a known kind is matched by a pattern of its kind. -/
theorem matches_next {kind : TokenKind} (h : (next c cs).1 = some kind) (hunknown : kind ≠ .unknown)
    (hdoc : kind ≠ .docComment) : Matches (.token kind) ((c :: cs).take (next c cs).2) := by
  by_cases hsep : isSeparator c
  · rw [next_of_isSeparator hsep] at h
    cases h
  by_cases hword : startsWord c
  · rw [next_of_startsWord hword] at h ⊢
    cases h
    rw [Nat.add_comm]
    exact ⟨word, by simp [patterns], (reaches_word hword cs).mem (Nat.succ_ne_zero _)⟩
  by_cases hdigit : c.isDigit
  · rw [next_of_isDigit hdigit] at h ⊢
    cases h
    exact matches_number ((reaches_number hdigit cs).mem
      (Nat.ne_of_gt (numberLength_pos hdigit cs)))
  by_cases hlong : c ∈ ['"', '\x27', '\x60', '/', '.', '=']
  case neg =>
    rw [next_of_mark hsep hword hdigit hlong] at h ⊢
    cases hmark : TokenKind.ofMark? c with
    | none =>
      rw [hmark] at h
      exact absurd (Option.some.inj h).symm hunknown
    | some mark =>
      rw [hmark] at h
      cases h
      exact matches_mark (mem_marks_of_ofMark? hmark)
  simp only [List.mem_cons, List.not_mem_nil, or_false] at hlong
  rcases hlong with rfl | rfl | rfl | rfl | rfl | rfl
  · exact matches_quoted (by decide) (not_mem_excluded _) (by simp [patterns]) hunknown h
  · exact matches_quoted (by decide) (not_mem_excluded _) (by simp [patterns]) hunknown h
  · exact matches_quoted (by decide) (not_mem_excluded_multiline _) (by simp [patterns]) hunknown h
  · exact matches_slashed hunknown hdoc h
  · exact matches_pointed h
  · have hequals : next '=' cs =
        if cs.head? == some '>' then (some .arrow, 2) else (some .eq, 1) := rfl
    rw [hequals] at h ⊢
    split at h
    · next harrow =>
      obtain ⟨rest, rfl⟩ := List.head?_eq_some_iff.mp (by simpa using harrow)
      cases h
      show Matches _ ['=', '>']
      exact matches_mark (by decide)
    · next hother =>
      cases h
      rw [if_neg hother]
      show Matches _ ['=']
      exact matches_mark (by decide)

theorem pointed_ne_docComment (cs : List Char) : (pointed cs).1 ≠ some .docComment := by
  unfold pointed
  grind

theorem ofMark?_ne_docComment (c : Char) :
    (TokenKind.ofMark? c).getD .unknown ≠ .docComment := by
  unfold TokenKind.ofMark?
  split <;> decide

/-- Only a slash begins a comment. -/
theorem eq_slash_of_next (h : (next c cs).1 = some .docComment ∨
    (next c cs).1 = none ∧ ¬ isSeparator c) : c = '/' := by
  have hquoted : ∀ {kind quote multiline}, kind ≠ TokenKind.docComment →
      (quoted kind quote multiline cs).1 ≠ none ∧
        (quoted kind quote multiline cs).1 ≠ some .docComment := by
    intro kind quote multiline hkind
    unfold quoted
    grind
  have hpointed : (pointed cs).1 ≠ none := by
    unfold pointed
    grind
  by_cases hslash : c = '/'
  · exact hslash
  exfalso
  have hmark := ofMark?_ne_docComment c
  have hdoc := pointed_ne_docComment cs
  unfold next at h
  split at h
  · grind
  split at h
  · grind
  split at h
  · grind
  split at h <;> grind

theorem separates_line (cs : List Char) :
    Separates ('/' :: '/' :: cs.takeWhile (· != '\n')) (cs.dropWhile (· != '\n')) := by
  have hinner : '\n' ∉ cs.takeWhile (· != '\n') := fun hmem =>
    absurd (List.all_eq_true.mp List.all_takeWhile _ hmem) (by simp)
  have hend : cs.dropWhile (· != '\n') = [] ∨
      (cs.dropWhile (· != '\n')).head? = some '\n' := by
    have hhead := List.head?_dropWhile_not (· != '\n') cs
    cases hrest : cs.dropWhile (· != '\n') with
    | nil => exact .inl rfl
    | cons c rest =>
      rw [hrest] at hhead
      exact .inr (by simpa using hhead)
  have hgap : Separates ('/' :: '/' :: cs.takeWhile (· != '\n') ++ [])
      (cs.dropWhile (· != '\n')) := .line hinner hend (.nil _)
  rwa [List.append_nil] at hgap

/-- A piece of no kind only separates tokens. -/
theorem separates_first (h : (first c cs).kind = none) :
    Separates (first c cs).text (afterFirst c cs) := by
  by_cases hsep : isSeparator c
  · rw [first, afterFirst, next_of_isSeparator hsep]
    dsimp only
    rw [Nat.add_sub_cancel_left, take_run]
    refine separates_of_blank ?_ _
    rw [List.forall_mem_cons]
    exact ⟨hsep, List.all_eq_true.mp List.all_takeWhile⟩
  obtain rfl := eq_slash_of_next (.inr ⟨h, hsep⟩)
  rcases slashed_cases cs with ⟨rest, rfl⟩ | ⟨rest, rfl⟩ | hslash
  · have hline := separates_line rest
    rw [← take_run, ← drop_run] at hline
    have hnext : next '/' ('/' :: rest) = (none, run (· != '\n') rest + 1 + 1) := by
      show slashed ('/' :: rest) = _
      rw [slashed, Nat.add_comm]
    rwa [first, afterFirst, hnext]
  · cases hlength : commentLength? rest with
    | none =>
      rw [(first_open hlength).1] at h
      cases h
    | some length =>
      obtain ⟨hfirst, hafter⟩ := first_closed hlength
      have hplain : ¬ isDocumentation rest := fun hdoc => by
        rw [hfirst, if_pos hdoc] at h
        cases h
      have hgap := Separates.block (isComment_of_commentLength? hlength)
        (mt (documents_iff hlength).mp hplain) (.nil (rest.drop length))
      rw [hfirst, hafter]
      rwa [List.append_nil] at hgap
  · have hkind : (slashed cs).1 = none := h
    rw [hslash] at hkind
    cases hkind

/-- A piece of a kind is a token of this kind. -/
theorem isLongest_first {kind : TokenKind} (h : (first c cs).kind = some kind) :
    IsLongest kind (first c cs).text (afterFirst c cs) := by
  by_cases hdoc : kind = .docComment
  · subst hdoc
    obtain rfl := eq_slash_of_next (.inl h)
    rcases slashed_cases cs with ⟨rest, rfl⟩ | ⟨rest, rfl⟩ | hslash
    · cases h
    · cases hlength : commentLength? rest with
      | none =>
        rw [(first_open hlength).1] at h
        cases h
      | some length =>
        rw [(first_closed hlength).1] at h ⊢
        refine ⟨isComment_of_commentLength? hlength, (documents_iff hlength).mpr ?_⟩
        by_contra hplain
        rw [if_neg hplain] at h
        cases h
    · have hkind : (slashed cs).1 = some .docComment := h
      rw [hslash] at hkind
      cases hkind
  by_cases hunknown : kind = .unknown
  · subst hunknown
    by_cases hopening : c = '/'
    · subst hopening
      rcases slashed_cases cs with ⟨rest, rfl⟩ | ⟨rest, rfl⟩ | hslash
      · cases h
      · cases hlength : commentLength? rest with
        | none =>
          obtain ⟨hfirst, hafter⟩ := first_open hlength
          rw [hfirst, hafter]
          exact .inl ⟨rfl, commentLength?_eq_none hlength⟩
        | some length =>
          rw [(first_closed hlength).1] at h
          dsimp only at h
          split at h <;> cases h
      · have hkind : (slashed cs).1 = some .unknown := h
        rw [hslash] at hkind
        cases hkind
    · refine .inr fun rule w hmatch hbegins => ?_
      rw [text_first_append_afterFirst] at hbegins
      have hle := length_le_of_matches hmatch hbegins
      rw [reach, if_pos ⟨h, hopening⟩] at hle
      rw [List.eq_nil_of_length_eq_zero (Nat.le_zero.mp hle)] at hmatch
      exact not_matches_nil hmatch
  · have hlongest : Matches (.token kind) (first c cs).text ∧ ∀ rule w, Matches rule w →
        w <+: (first c cs).text ++ afterFirst c cs → w.length ≤ (first c cs).text.length := by
      refine ⟨text_first ▸ matches_next h hunknown hdoc, fun rule w hw hbegins => ?_⟩
      rw [text_first_append_afterFirst] at hbegins
      have hle := length_le_of_matches hw hbegins
      have hreach : reach c cs = (next c cs).2 :=
        if_neg fun hbad => hunknown (Option.some.inj (h.symm.trans hbad.1))
      rwa [hreach, ← length_text_first] at hle
    cases kind <;> first | exact absurd rfl hdoc | exact absurd rfl hunknown | exact hlongest

end

/-- The lexemes of a text that starts at an offset, and the gaps between them, make up the
text. -/
inductive Tiles : Nat → List Char → List Lexeme → Prop
  | last (offset : Nat) {gap : List Char} (hgap : Separates gap []) : Tiles offset gap []
  | token {offset : Nat} {gap text behind : List Char} {kind : TokenKind} {rest : List Lexeme}
    (hgap : Separates gap (text ++ behind)) (hne : text ≠ []) (hkind : IsLongest kind text behind)
    (hrest : Tiles (offset + byteLength (gap ++ text)) behind rest) :
    Tiles offset (gap ++ text ++ behind)
      (⟨kind, String.ofList text,
        ⟨offset + byteLength gap, offset + byteLength (gap ++ text)⟩⟩ :: rest)

/-- A lexeme of a text behind the lexeme that ends at `stop`. The text is what stands up to
there, a gap, the text of the lexeme, and what stands behind it. -/
def IsTile (source : List Char) (stop : Nat) (lexeme : Lexeme) : Prop :=
  ∃ before gap behind, source = before ++ gap ++ lexeme.text.toList ++ behind ∧
    stop = byteLength before ∧
    lexeme.span =
      ⟨byteLength (before ++ gap), byteLength (before ++ gap ++ lexeme.text.toList)⟩ ∧
    lexeme.span.start < lexeme.span.stop ∧
    Separates gap (lexeme.text.toList ++ behind) ∧
    IsLongest lexeme.kind lexeme.text.toList behind

namespace Tiles

variable {offset : Nat} {gap cs : List Char} {lexemes : List Lexeme}

theorem prepend (hgap : Separates gap cs) (h : Tiles (offset + byteLength gap) cs lexemes) :
    Tiles offset (gap ++ cs) lexemes := by
  cases h with
  | last _ hlast =>
    rw [← List.append_nil cs] at hgap
    exact .last offset (hgap.append hlast)
  | @token _ more text behind kind rest hmore hne hkind hrest =>
    rw [List.append_assoc] at hgap
    rw [Nat.add_assoc, ← byteLength_append, ← List.append_assoc] at hrest
    have htoken := Tiles.token (hgap.append hmore) hne hkind hrest
    rwa [byteLength_append gap more, ← Nat.add_assoc, List.append_assoc gap more text,
      byteLength_append gap (more ++ text), ← Nat.add_assoc, List.append_assoc gap] at htoken

/-- The lexemes follow each other without overlapping, and none is empty. -/
theorem ordered (h : Tiles offset cs lexemes) :
    lexemes.Pairwise (fun first second => first.span.stop ≤ second.span.start) ∧
      ∀ lexeme ∈ lexemes, offset ≤ lexeme.span.start := by
  induction h with
  | last => exact ⟨.nil, by simp⟩
  | token _ _ _ _ ih =>
    obtain ⟨hordered, hbehind⟩ := ih
    refine ⟨hordered.cons hbehind, List.forall_mem_cons.mpr ⟨Nat.le_add_right _ _, ?_⟩⟩
    exact fun lexeme hmem => Nat.le_trans (Nat.le_add_right _ _) (hbehind lexeme hmem)

section

variable {read : List Char} {done : List Lexeme} (hread : byteLength read = offset)
  (hdone : stopOf done = offset)

include hread hdone

/-- A lexeme is a tile of the text, if the text behind `read` and behind the lexemes `done`
starts at the offset. -/
theorem isTile (h : Tiles offset cs lexemes) {earlier later : List Lexeme} {lexeme : Lexeme}
    (hsplit : lexemes = earlier ++ lexeme :: later) :
    IsTile (read ++ cs) (stopOf (done ++ earlier)) lexeme := by
  induction h generalizing read done earlier with
  | last => simp at hsplit
  | @token offset gap text behind kind rest hgap hne hkind hrest ih =>
    cases earlier with
    | nil =>
      obtain ⟨rfl, rfl⟩ := List.cons.inj hsplit
      have hpos := byteLength_pos hne
      unfold IsTile
      rw [String.toList_ofList, List.append_nil, hdone]
      refine ⟨read, gap, behind, by simp, hread.symm, ?_, ?_, hgap, hkind⟩
      · rw [← hread, List.append_assoc, byteLength_append read, byteLength_append read]
      · rw [byteLength_append]
        dsimp only
        omega
    | cons first earlier =>
      obtain ⟨rfl, hrest⟩ := List.cons.inj hsplit
      have hbehind : byteLength (read ++ (gap ++ text)) = offset + byteLength (gap ++ text) := by
        rw [← hread, byteLength_append read]
      have htile := ih hbehind (stopOf_concat done ⟨kind, String.ofList text,
        ⟨offset + byteLength gap, offset + byteLength (gap ++ text)⟩⟩) hrest
      rwa [List.append_assoc, List.append_assoc done, List.singleton_append] at htile

/-- What stands behind the last lexeme. -/
theorem exists_gap (h : Tiles offset cs lexemes) :
    ∃ before gap, read ++ cs = before ++ gap ∧ stopOf (done ++ lexemes) = byteLength before ∧
      Separates gap [] := by
  induction h generalizing read done with
  | @last offset gap hgap => exact ⟨read, gap, rfl, by rw [List.append_nil, hdone, hread], hgap⟩
  | @token offset gap text behind kind rest hgap hne hkind hrest ih =>
    have hbehind : byteLength (read ++ (gap ++ text)) = offset + byteLength (gap ++ text) := by
      rw [← hread, byteLength_append read]
    have hlast := ih hbehind (stopOf_concat done ⟨kind, String.ofList text,
      ⟨offset + byteLength gap, offset + byteLength (gap ++ text)⟩⟩)
    rwa [List.append_assoc, List.append_assoc done, List.singleton_append] at hlast

end

end Tiles

theorem tiles_ofText (offset : Nat) (cs : List Char) :
    Tiles offset cs (lexemes offset (ofText cs)) := by
  induction hlength : cs.length using Nat.strongRecOn generalizing offset cs with
  | ind n ih =>
    cases cs with
    | nil => exact .last offset (.nil [])
    | cons c cs =>
      have hrest := ih (afterFirst c cs).length
        (hlength ▸ Nat.lt_succ_of_le (length_afterFirst_le c cs))
        (offset + byteLength (first c cs).text) (afterFirst c cs) rfl
      rw [← text_first_append_afterFirst c cs]
      rw [text_first_append_afterFirst, ofText_cons, lexemes]
      cases hkind : (first c cs).kind with
      | none =>
        rw [← text_first_append_afterFirst c cs]
        exact hrest.prepend (separates_first hkind)
      | some kind =>
        have htoken := Tiles.token (.nil _) (by simp [first]) (isLongest_first hkind) hrest
        rwa [List.nil_append, text_first_append_afterFirst, byteLength_nil, Nat.add_zero] at htoken

end Lexicon

/-- The lexemes of a source and what separates them make up the source. They follow each
other, and each is the longest match where it starts. -/
theorem tokenize_tiles (source : String) :
    (∀ earlier lexeme later, tokenize source = earlier ++ lexeme :: later →
      IsTile source.toList (stopOf earlier) lexeme) ∧
    (∃ before gap, source.toList = before ++ gap ∧
      stopOf (tokenize source) = byteLength before ∧ Separates gap []) ∧
    (tokenize source).Pairwise fun first second => first.span.stop ≤ second.span.start := by
  have htiles := tiles_ofText 0 source.toList
  refine ⟨fun earlier lexeme later hsplit => ?_, ?_, htiles.ordered.1⟩
  · exact htiles.isTile byteLength_nil stopOf_nil hsplit
  · exact htiles.exists_gap byteLength_nil stopOf_nil

end DeclSchema
