import TypeNotes.Rule.Offense

/-!
# The rule about types

Types in notes have to be well-formed. The offense is at the token that was not expected, or at the
end of the note if its signature is cut short. It lies within one comment.
-/

namespace TypeNotes

open Ruby

/-- The offense for an error in a note. -/
def typeOffense (s : Source) (n : Note) (e : Signature.Error) : Offense :=
  let place := s.spanOfBytes e.offset (e.offset + e.length)
  let comment := (commentAt? n.comments place.start).getD n.first
  ⟨place.clamp comment.span, "Invalid annotation found: " ++ e.message⟩

/-- Types in notes are well-formed. -/
def invalidTypes (s : Source) : List Offense :=
  Offense.sort <| s.blocks.flatMap fun b => b.notes.filterMap fun n => n.error.map (typeOffense s n)

end TypeNotes
