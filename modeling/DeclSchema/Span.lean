/-!
# Spans of source text

A half-open range of offsets into a source text, counted in bytes of its UTF-8
form.
-/

namespace DeclSchema

/-- The offsets from `start` up to but not including `stop`. -/
structure Span where
  start : Nat
  stop : Nat
deriving DecidableEq, Repr, Inhabited

namespace Span

/-- The empty span at an offset. -/
def empty (offset : Nat) : Span :=
  ⟨offset, offset⟩

/-- Whether an offset lies in the span. The end offset does not. -/
def contains (span : Span) (offset : Nat) : Bool :=
  span.start ≤ offset && offset < span.stop

/-- The span from `start` to `stop`, empty when `stop` lies before `start`. -/
def ofBounds (start stop : Nat) : Span :=
  ⟨start, max stop start⟩

/-- The two offsets with two dots between them. -/
def toText (span : Span) : String :=
  toString span.start ++ ".." ++ toString span.stop

@[simp] theorem contains_iff {span : Span} {offset : Nat} :
    span.contains offset ↔ span.start ≤ offset ∧ offset < span.stop := by
  simp [contains]

@[simp] theorem start_ofBounds (start stop : Nat) : (ofBounds start stop).start = start := rfl

end Span

end DeclSchema
