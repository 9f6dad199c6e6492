import TypeNotes.Note.Basic

/-!
# Offenses

An offense is a place in a file and what is wrong there. Offenses are ordered by where they start,
then by where they end, then by their words.
-/

namespace TypeNotes

/-- A place in a file, and what is wrong there. -/
structure Offense where
  span : Span
  message : String
  deriving DecidableEq, Repr

namespace Offense

/-- Whether an offense does not come after another. -/
def le (a b : Offense) : Bool :=
  a.span.start < b.span.start || (a.span.start == b.span.start &&
    (a.span.stop < b.span.stop || (a.span.stop == b.span.stop && Text.le a.message.toList b.message.toList)))

/-- Offenses in order. -/
def sort (l : List Offense) : List Offense := l.mergeSort le

end Offense

end TypeNotes
