import DeclSchema.Token.Stream
import Mathlib.Algebra.GroupWithZero.Nat

/-!
# Where the tokens of a source stand

The pieces of a source tile it, and no piece is empty. The tokens therefore follow each
other without overlapping, and the last one ends by the end of the source. Lengths are
counted in bytes, for characters by `Piece.byteLength`.
-/

namespace DeclSchema

namespace Piece

@[simp] theorem byteLength_nil : byteLength [] = 0 := rfl

@[simp] theorem byteLength_cons (c : Char) (cs : List Char) :
    byteLength (c :: cs) = c.utf8Size + byteLength cs := by
  simp [byteLength]

@[simp] theorem byteLength_append (cs ds : List Char) :
    byteLength (cs ++ ds) = byteLength cs + byteLength ds := by
  simp [byteLength]

theorem byteLength_pos {cs : List Char} (h : cs ≠ []) : 0 < byteLength cs := by
  cases cs with
  | nil => exact absurd rfl h
  | cons c cs =>
    have := Char.utf8Size_pos c
    rw [byteLength_cons]
    omega

theorem utf8ByteSize_ofList (cs : List Char) :
    (String.ofList cs).utf8ByteSize = byteLength cs := by
  induction cs with
  | nil => rfl
  | cons c cs ih =>
    rw [byteLength_cons, ← ih, ← List.singleton_append, String.ofList_append,
      String.utf8ByteSize_append]
    simp [String.utf8ByteSize_singleton]

theorem utf8ByteSize_eq (source : String) :
    source.utf8ByteSize = byteLength source.toList := by
  rw [← utf8ByteSize_ofList, String.ofList_toList]

theorem exists_of_mem_take {count : Nat} {cs : List Char} {piece : Piece}
    (h : piece ∈ take count cs) : ∃ c rest, piece = first c rest := by
  induction count generalizing cs with
  | zero => simp [take] at h
  | succ count ih =>
    cases cs with
    | nil => simp [take] at h
    | cons c cs =>
      rw [take, List.mem_cons] at h
      rcases h with rfl | h
      · exact ⟨c, cs, rfl⟩
      · exact ih h

theorem ne_nil_of_mem_take {count : Nat} {cs : List Char} {piece : Piece}
    (h : piece ∈ take count cs) : piece.text ≠ [] := by
  obtain ⟨c, rest, rfl⟩ := exists_of_mem_take h
  simp [first]

theorem ne_nil_of_mem_ofText {cs : List Char} {piece : Piece} (h : piece ∈ ofText cs) :
    piece.text ≠ [] :=
  ne_nil_of_mem_take h

/-- The number of bytes of several pieces. -/
def totalLength (pieces : List Piece) : Nat :=
  (pieces.map fun piece => byteLength piece.text).sum

@[simp] theorem totalLength_nil : totalLength [] = 0 := rfl

@[simp] theorem totalLength_cons (piece : Piece) (pieces : List Piece) :
    totalLength (piece :: pieces) = byteLength piece.text + totalLength pieces := by
  simp [totalLength]

theorem totalLength_eq (pieces : List Piece) :
    totalLength pieces = byteLength (pieces.map text).flatten := by
  induction pieces with
  | nil => rfl
  | cons piece pieces ih => simp [ih]

theorem totalLength_ofText (cs : List Char) : totalLength (ofText cs) = byteLength cs := by
  rw [totalLength_eq, flatten_ofText]

end Piece

/-- The tokens start at `start` or later, follow each other, and end by `stop`. -/
def InOrder (stop : Nat) : Nat → List Token → Prop
  | start, [] => start ≤ stop
  | start, token :: rest =>
    start ≤ token.span.start ∧ token.span.start < token.span.stop ∧
      InOrder stop token.span.stop rest

theorem InOrder.start_le_stop {stop start : Nat} {tokens : List Token}
    (h : InOrder stop start tokens) : start ≤ stop := by
  induction tokens generalizing start with
  | nil => exact h
  | cons token rest ih =>
    obtain ⟨hstart, hspan, hrest⟩ := h
    have := ih hrest
    omega

theorem InOrder.mono {stop start start' : Nat} {tokens : List Token}
    (h : InOrder stop start tokens) (hle : start' ≤ start) : InOrder stop start' tokens := by
  cases tokens with
  | nil => exact Nat.le_trans hle h
  | cons token rest => exact ⟨Nat.le_trans hle h.1, h.2⟩

theorem InOrder.bounds {stop start : Nat} {tokens : List Token} (h : InOrder stop start tokens)
    {token : Token} (htoken : token ∈ tokens) :
    start ≤ token.span.start ∧ token.span.start < stop := by
  induction tokens generalizing start with
  | nil => exact absurd htoken List.not_mem_nil
  | cons first rest ih =>
    obtain ⟨hstart, hspan, hrest⟩ := h
    have hstop := hrest.start_le_stop
    rcases List.mem_cons.mp htoken with rfl | hmem
    · omega
    · have := ih hrest hmem
      omega

theorem InOrder.start_lt_stop {stop start : Nat} {tokens : List Token}
    (h : InOrder stop start tokens) {token : Token} (htoken : token ∈ tokens) :
    token.span.start < token.span.stop := by
  induction tokens generalizing start with
  | nil => exact absurd htoken List.not_mem_nil
  | cons first rest ih =>
    obtain ⟨-, hspan, hrest⟩ := h
    rcases List.mem_cons.mp htoken with rfl | hmem
    · exact hspan
    · exact ih hrest hmem

/-- Of two tokens the first one begins and ends first. -/
theorem InOrder.pairwise {stop start : Nat} {tokens : List Token} (h : InOrder stop start tokens) :
    tokens.Pairwise fun a b => a.span.start < b.span.start ∧ a.span.stop < b.span.stop := by
  induction tokens generalizing start with
  | nil => exact .nil
  | cons first rest ih =>
    obtain ⟨-, hspan, hrest⟩ := h
    refine .cons (fun token htoken => ?_) (ih hrest)
    have hfollows := (hrest.bounds htoken).1
    have hproper := hrest.start_lt_stop htoken
    omega

/-- The tokens before others end by the end of the last one. -/
theorem InOrder.front {stop start : Nat} {front rest : List Token}
    (h : InOrder stop start (front ++ rest)) :
    InOrder ((front.getLast?.map (·.span.stop)).getD start) start front := by
  induction front generalizing start with
  | nil => exact Nat.le_refl start
  | cons first front ih =>
    have hfront := ih h.2.2
    rw [List.getLast?_cons]
    refine ⟨h.1, h.2.1, ?_⟩
    cases hlast : front.getLast? with
    | none => rwa [hlast] at hfront
    | some last => rwa [hlast] at hfront

/-- The tokens start where the first one does. -/
theorem InOrder.of_head? {stop start : Nat} {tokens : List Token} {first : Token}
    (h : InOrder stop start tokens) (hfirst : tokens.head? = some first) :
    InOrder stop first.span.start tokens := by
  obtain ⟨rest, rfl⟩ := List.head?_eq_some_iff.mp hfirst
  exact ⟨Nat.le_refl _, h.2⟩

/-- What is behind some of the tokens starts at the end of the last of them or later. -/
theorem InOrder.behind {stop start : Nat} {front rest : List Token}
    (h : InOrder stop start (front ++ rest)) :
    InOrder stop ((front.getLast?.map (·.span.stop)).getD start) rest := by
  induction front generalizing start with
  | nil => exact h
  | cons first front ih =>
    have hbehind := ih h.2.2
    rw [List.getLast?_cons]
    cases hlast : front.getLast? with
    | none => rwa [hlast] at hbehind
    | some last => rwa [hlast] at hbehind

namespace TokenStream

/-- A token is a piece of the source. -/
theorem exists_piece {pieces : List Piece} {offset : Nat} {newline : Bool}
    {pending : List DocTag} {token : Token}
    (h : token ∈ (ofPieces offset newline pending pieces).tokens) :
    ∃ piece ∈ pieces, piece.kind = some token.kind ∧ token.text = String.ofList piece.text := by
  induction pieces generalizing offset newline pending with
  | nil => simp [ofPieces] at h
  | cons piece rest ih =>
    have hrest : ∀ {offset newline pending},
        token ∈ (ofPieces offset newline pending rest).tokens → ∃ other ∈ piece :: rest,
          other.kind = some token.kind ∧ token.text = String.ofList other.text := by
      intro offset newline pending hmem
      obtain ⟨other, hother, hkind⟩ := ih hmem
      exact ⟨other, List.mem_cons_of_mem _ hother, hkind⟩
    unfold ofPieces at h
    split at h
    · exact hrest h
    · exact hrest h
    · next kind _ hkind =>
      rcases List.mem_cons.mp h with rfl | h
      · exact ⟨piece, List.mem_cons_self, hkind, rfl⟩
      · exact hrest h

theorem inOrder_ofPieces {pieces : List Piece} (h : ∀ piece ∈ pieces, piece.text ≠ [])
    (offset : Nat) (newline : Bool) (pending : List DocTag) :
    InOrder (offset + Piece.totalLength pieces) offset
      (ofPieces offset newline pending pieces).tokens := by
  induction pieces generalizing offset newline pending with
  | nil => exact Nat.le_add_right _ _
  | cons piece rest ih =>
    have hpos := Piece.byteLength_pos (h piece (by simp))
    have hrest := ih (fun piece hp => h piece (List.mem_cons_of_mem _ hp))
    have hnext := fun newline pending =>
      hrest (offset + Piece.byteLength piece.text) newline pending
    rw [Piece.totalLength_cons, ← Nat.add_assoc]
    unfold ofPieces
    split
    · exact (hnext _ _).mono (Nat.le_add_right _ _)
    · exact (hnext _ _).mono (Nat.le_add_right _ _)
    · exact ⟨Nat.le_refl _, Nat.lt_add_of_pos_right hpos, hnext _ _⟩

/-- The tokens of a source follow each other and end by its end. -/
theorem inOrder_ofSource (source : String) :
    InOrder source.utf8ByteSize 0 (ofSource source).tokens := by
  have hpieces : ∀ piece ∈ Piece.ofText source.toList, piece.text ≠ [] :=
    fun _ hpiece => Piece.ne_nil_of_mem_ofText hpiece
  have h := inOrder_ofPieces hpieces 0 false []
  rw [Piece.totalLength_ofText, Nat.zero_add, ← Piece.utf8ByteSize_eq] at h
  exact h

end TokenStream

end DeclSchema
