import TypeNotes.Rule.Offense

/-!
# Notes and the methods they are about

A block of comments directly above a method declaration is claimed by it, and notes about
parameters in the block have to name parameters of the method. Blocks that no declaration claims
have no notes about parameters, blocks or results.

A `CrossReference` is built up by recording declarations one after another; each claims a block at
most, and a block is claimed once. Finishing it gives the offenses and leaves nothing behind.
-/

namespace TypeNotes

open Ruby

/-- The blocks not claimed yet, and the notes about parameters in those that are, with the
declaration that claimed them. -/
structure CrossReference where
  unclaimed : List CommentBlock
  claimed : List (Declaration × NamedType)

namespace CrossReference

/-- Nothing is claimed at the start. -/
def ofSource (s : Source) : CrossReference := ⟨s.blocks, []⟩

/-- The name in a note about a parameter or a block. -/
def parameterName? (n : Note) : Option NamedType :=
  match n.content with
  | .parameter named | .block named => some named
  | _ => none

/-- The name in a note about a parameter, a block or the result. -/
def methodName? (n : Note) : Option NamedType :=
  match n.content with
  | .parameter named | .block named | .result named => some named
  | _ => none

/-- Whether a block stands directly above a declaration. -/
def isAbove (d : Declaration) (b : CommentBlock) : Bool := b.isLeading && b.lastLine + 1 == d.line

/-- A declaration claims the block directly above it. -/
def record (x : CrossReference) (d : Declaration) : CrossReference :=
  match x.unclaimed.find? (isAbove d) with
  | none => x
  | some b =>
    { unclaimed := x.unclaimed.eraseP (isAbove d)
      claimed := x.claimed ++ (b.notes.filterMap parameterName?).map (d, ·) }

/-- The offense for a name that is not that of a parameter. -/
def offense (s : Source) (named : NamedType) : Offense :=
  ⟨s.spanOfBytes named.offset (named.offset + Utf8.size named.name),
    "target parameter not found: `" ++ String.ofList named.name ++ "`."⟩

/-- The names that match no parameter: those of claimed notes that the declaration does not have,
and all of unclaimed notes. -/
def unmatched (x : CrossReference) : List NamedType :=
  (x.claimed.filter fun (d, named) => !d.parameterNames.contains named.name).map (·.2) ++
    x.unclaimed.flatMap fun b => b.notes.filterMap methodName?

/-- The offenses, and an empty cross reference. -/
def finish (s : Source) (x : CrossReference) : List Offense × CrossReference :=
  (Offense.sort (x.unmatched.map (offense s)), ⟨[], []⟩)

end CrossReference

/-- Notes about parameters name parameters of the method below them. -/
def unmatchedNotes (s : Source) : List Offense :=
  ((s.declarations.foldl CrossReference.record (.ofSource s)).finish s).1

end TypeNotes
