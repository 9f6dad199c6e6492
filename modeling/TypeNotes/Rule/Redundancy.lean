import TypeNotes.Rule.Offense
import TypeNotes.Rule.Shape

/-!
# The rule about skipped methods

A method marked as skipped or overriding has no generated signature, so no other note on it is of
use. A second mark is not of use either.
-/

namespace TypeNotes

open Ruby

/-- The two marks that keep a method from having a signature. -/
inductive SkipMark
  | skip
  | override
  deriving DecidableEq, Repr

/-- The mark that a note is. -/
def SkipMark.ofNote? (n : Note) : Option SkipMark :=
  match n.content with
  | .skip => some .skip
  | .override => some .override
  | _ => none

/-- The words for a second mark after a first one. -/
def SkipMark.message (first second : SkipMark) : String :=
  if first ≠ second then "`@rbs skip` and `@rbs override` cannot both be specified."
  else match second with
    | .skip => "Duplicate `@rbs skip` annotation."
    | .override => "Duplicate `@rbs override` annotation."

/-- What is wrong with a note that is no mark, on a method with a mark. -/
def redundancy? (n : Note) : Option String :=
  match n.content with
  | .methodAssertion _ => some <|
    "Redundant method type signature. `@rbs skip` and `@rbs override` skip RBS generation."
  | .methodType _ _ | .parameter _ | .block _ | .result _ => some <|
    "Redundant `@rbs` annotation. `@rbs skip` and `@rbs override` skip RBS generation."
  | _ => none

/-- The characters from the first comment of a note to its last. -/
def Note.span (n : Note) : Span := ⟨n.first.start, n.last.stop⟩

/-- The notes on a method that are not of use, with what is wrong with them, after a first mark if
there was one. -/
def redundantNotes (first : Option SkipMark) : List Note → List (Note × String)
  | [] => []
  | n :: rest =>
    match SkipMark.ofNote? n with
    | some mark =>
      match first with
      | none => redundantNotes (some mark) rest
      | some earlier => (n, earlier.message mark) :: redundantNotes first rest
    | none => ((redundancy? n).map fun message => (n, message)).toList ++ redundantNotes first rest

/-- The offense of a result type behind the parameters of a method. -/
def redundantResult? (comments : List Comment) (d : Declaration) : Option Offense :=
  (comments.find? fun c => c.line == d.parametersEndLine && Text.startsWith c.text "#:").map
    fun c => ⟨c.span, "Redundant trailing return type annotation. " ++
      "`@rbs skip` and `@rbs override` skip RBS generation."⟩

/-- Methods marked as skipped or overriding have no other notes. -/
def redundantWithSkip (s : Source) : List Offense :=
  let comments := s.comments
  let blocks := s.blocks
  Offense.sort <| s.declarations.flatMap fun d =>
    match leadingBlock? blocks d.line with
    | none => []
    | some b =>
      if b.notes.any fun n => (SkipMark.ofNote? n).isSome then
        (redundantNotes none b.notes).map (fun (n, message) => ⟨n.span, message⟩) ++
          (redundantResult? comments d).toList
      else []

end TypeNotes
