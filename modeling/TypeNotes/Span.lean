/-!
# Spans

A span is a half-open range of character positions. `Range.clamp` moves a range into bounds: both
of its ends come to lie inside, in the right order.
-/

namespace TypeNotes

/-- A half-open range. -/
structure Range (α : Type) where
  start : α
  stop : α
  deriving DecidableEq, Repr

/-- A half-open range of character positions. -/
abbrev Span : Type := Range Nat

/-- The part of the bounds that is nearest to the target. -/
def Range.clamp {α : Type} [Min α] [Max α] (target bounds : Range α) : Range α :=
  let start := min (max target.start bounds.start) bounds.stop
  ⟨start, min (max target.stop start) bounds.stop⟩

end TypeNotes
