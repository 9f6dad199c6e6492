import TypeNotes.Rule.Offense
import TypeNotes.Rule.Shape

/-!
# Rules about the form of a note

Three rules about how notes are written: that a comment which looks like a note is one, that no
colon stands after a keyword, and that one stands after the name of a parameter.
-/

namespace TypeNotes

open Ruby

/-! ### Comments that look like notes -/

/-- Comments that look like notes have to start with `#:` or `# @rbs`. -/
def invalidComment (s : Source) : List Offense :=
  (s.comments.filter fun c => Shape.isInvalidNote c.text).map fun c =>
    ⟨c.span, "Invalid RBS annotation comment found."⟩

/-! ### Keywords with a colon -/

/-- Whether the keyword and colon in a comment name a parameter of this method. A keyword that can
stand alone does so only if a type follows. -/
def namesParameter (d : Declaration) (c : Comment) : Bool :=
  (Shape.keywordWithColon? c.text).any fun (keyword, stop) =>
    d.parameterNames.contains keyword &&
      (!Text.isBlank (c.text.drop stop) || !Shape.loneKeywords.contains keyword)

/-- The comments that name a parameter of the method below their block by a keyword. -/
def parameterComments (s : Source) : List Comment :=
  let blocks := s.blocks
  s.declarations.flatMap fun d =>
    match leadingBlock? blocks d.line with
    | none => []
    | some b => b.comments.filter (namesParameter d)

/-- The offense of a keyword and colon in a comment, unless it is one of those that name a
parameter. -/
def keywordOffense? (named : List Comment) (c : Comment) : Option Offense :=
  match Shape.keywordWithColon? c.text with
  | none => none
  | some (_, stop) =>
    if (named.map (·.start)).contains c.start then none
    else
      let stop' := if (c.text.drop stop).head? == some ' ' then stop + 1 else stop
      some ⟨⟨c.start + (stop - 1), c.start + stop'⟩, "Do not use `:` after the keyword."⟩

/-- No colon stands between a keyword and its argument, unless the keyword names a parameter. -/
def keywordSeparator (s : Source) : List Offense :=
  let named := parameterComments s
  s.comments.filterMap (keywordOffense? named)

/-! ### Names without a colon -/

/-- Whether a word may stand after the marker. -/
def mayFollowMarker (token : List Char) : Bool :=
  Shape.isKeyword token || Shape.opensMethodType token || Shape.isNameWithColon token

/-- A colon stands between the name of a parameter and its type. -/
def parametersSeparator (s : Source) : List Offense :=
  s.comments.filterMap fun c =>
    match Shape.markedWord? c.text with
    | none => none
    | some (token, stop) =>
      if mayFollowMarker token then none
      else
        let place := c.start + stop
        some ⟨⟨place, place⟩, "Use `:` as a separator between parameter name and type."⟩

end TypeNotes
