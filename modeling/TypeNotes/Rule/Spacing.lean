import TypeNotes.Rule.Offense
import TypeNotes.Rule.Shape

/-!
# Rules about blank lines

Notes about variables and embedded declarations are followed by a blank line, notes about methods
are not.
-/

namespace TypeNotes

open Ruby

/-! ### Runs of comments -/

/-- The last comment of the run that a comment opens: the comments on the lines directly after it,
as long as they continue the run. -/
def runEnd (continues : Comment → Bool) (c : Comment) : List Comment → Comment
  | [] => c
  | d :: rest => if d.line == c.line + 1 && continues d then runEnd continues d rest else c

/-- The last comments of all runs. `opens` says which comments open a run, and what continues it. -/
def runEnds (opens : Comment → Option (Comment → Bool)) : List Comment → List Comment
  | [] => []
  | c :: rest =>
    match opens c with
    | some continues => runEnd continues c rest :: runEnds opens rest
    | none => runEnds opens rest

/-- An offense for the line after each of these comments, if it is not blank. -/
def missingBlankLines (s : Source) (message : String) (ends : List Comment) : List Offense :=
  .eraseDups <| ends.filterMap fun c =>
    let following := c.line + 1
    if s.isBlankLine following then none
    else (s.lineSpan? following).map fun span => ⟨span, message⟩

/-! ### Embedded declarations -/

/-- Whether a comment continues embedded declarations whose marker is indented like this. -/
def continuesEmbedded (indent : Nat) (c : Comment) : Bool :=
  !c.inline && (indent < indentation c.body || Text.isBlank c.body)

/-- Embedded declarations are followed by a blank line. -/
def embeddedSpacing (s : Source) : List Offense :=
  missingBlankLines s "`@rbs!` comment must be followed by a blank line."
    (runEnds (fun c => (Shape.embeddedIndent? c.text).map continuesEmbedded) s.comments)

/-! ### Variables -/

/-- Notes about variables are followed by a blank line. -/
def variableSpacing (s : Source) : List Offense :=
  let isVariable := fun (c : Comment) => Shape.isVariableComment c.text
  missingBlankLines s "`@rbs` variable comment must be followed by a blank line."
    (runEnds (fun c => if isVariable c then some isVariable else none) s.comments)

/-! ### Methods -/

/-- Whether a note is about a method. -/
def isAboutMethod (n : Note) : Bool :=
  match n.content with
  | .parameter _ | .result _ | .block _ | .override | .skip | .tags _ | .methodType _ _
  | .methodAssertion _ => true
  | _ => false

/-- Whether a note says that a method is skipped. -/
def isSkip (n : Note) : Bool := n.content == .skip

/-- The offense of a block that is about a method and ends with this comment, with no method below. -/
def misplacedOffense (last : Comment) : Offense :=
  ⟨last.span, "Method-related `@rbs` annotation must be immediately before a method definition."⟩

/-- The offense of a blank line between a block and the method that it is about. -/
def blankLineOffense (line : Span) : Offense :=
  ⟨line, "Remove blank line between method annotation and method definition."⟩

/-- The offense for the line after a block that is about a method. -/
def methodSpacingOffense? (s : Source) (b : CommentBlock) : Option Offense :=
  let following := b.lastLine + 1
  if s.isBlankLine following then
    if s.isDefinitionLine (following + 1) then (s.lineSpan? following).map blankLineOffense
    else some (misplacedOffense b.last)
  else if s.isDefinitionLine following || b.notes.all isSkip then none
  else some (misplacedOffense b.last)

/-- Notes about a method stand directly before its definition. -/
def methodSpacing (s : Source) : List Offense :=
  (s.blocks.filter fun b => b.isLeading && b.notes.any isAboutMethod).filterMap
    (methodSpacingOffense? s)

end TypeNotes
