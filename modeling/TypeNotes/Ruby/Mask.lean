import TypeNotes.Ruby.Frame

/-!
# Masked lines

Masking blanks out everything in a Ruby file that is not code: comments, the inside of literals,
heredoc bodies, embedded documents, and the data section. A masked line has as many characters as
the line it comes from, and it tells where the comment of the line starts, if it has one.
-/

namespace TypeNotes.Ruby

/-! ### One line of code -/

/-- A line without what is not code, and the column at which its comment starts. -/
structure MaskedLine where
  text : List Char
  comment : Option Nat
  deriving DecidableEq, Repr

/-- A line with nothing to show. -/
def MaskedLine.hidden (line : List Char) : MaskedLine := ⟨Text.blanks line.length, none⟩

/-- A scanned line of code, the frames at its end, and the heredocs that it opens. -/
structure ScannedLine where
  masked : MaskedLine
  frames : List Frame
  heredocs : List Heredoc
  deriving DecidableEq, Repr

/-- Scans the rest of a line, after the masked text `before`, which is given in reverse. -/
def scanFrom (before : List Char) (frames : List Frame) (heredocs : List Heredoc) :
    List Char → ScannedLine
  | [] => ⟨⟨before.reverse, none⟩, frames, heredocs⟩
  | c :: rest =>
    match step frames before c rest with
    | none =>
      ⟨⟨before.reverse ++ Text.blanks (rest.length + 1), some before.length⟩, frames, heredocs⟩
    | some s =>
      scanFrom (s.more.reverse ++ s.first :: before) s.frames (heredocs ++ s.heredoc.toList)
        (rest.drop s.more.length)
termination_by line => line.length
decreasing_by simp only [List.length_drop, List.length_cons]; omega

/-- Scans a line of code that starts inside these frames. -/
def scanLine (frames : List Frame) (line : List Char) : ScannedLine := scanFrom [] frames [] line

/-! ### All lines -/

/-- The part of a file that a line is in. -/
inductive Region
  | code
  /-- The body of a heredoc, and the heredocs whose bodies come next. -/
  | heredoc (h : Heredoc) (next : List Heredoc)
  /-- An embedded document. -/
  | document
  /-- Everything after the end marker. -/
  | data
  deriving DecidableEq, Repr

/-- The region after a line of code that opened these heredocs, or after the end of one of them. -/
def Region.ofHeredocs : List Heredoc → Region
  | [] => .code
  | h :: next => .heredoc h next

/-- Where the scanner is at the start of a line. -/
structure Place where
  region : Region
  frames : List Frame
  deriving DecidableEq, Repr

/-- The start of a file. -/
def Place.start : Place := ⟨.code, []⟩

/-- The line after which a file holds data. -/
def endMarker : List Char := "__END__".toList

/-- Masks one line, and says where the scanner is afterwards. -/
def Place.mask (p : Place) (line : List Char) : MaskedLine × Place :=
  let hidden := MaskedLine.hidden line
  match p.region with
  | .data => (hidden, p)
  | .heredoc h next =>
    (hidden, if h.endsAt line then { p with region := .ofHeredocs next } else p)
  | .document =>
    (hidden, if Text.startsWith line "=end" then { p with region := .code } else p)
  | .code =>
    if p.frames.isEmpty && Text.startsWith line "=begin" then
      (hidden, { p with region := .document })
    else if p.frames.isEmpty && Text.dropReturns line == endMarker then
      (hidden, { p with region := .data })
    else
      let scanned := scanLine p.frames line
      (scanned.masked, ⟨.ofHeredocs scanned.heredocs, scanned.frames⟩)

/-- Masks lines from a place on. -/
def Place.maskAll (p : Place) : List (List Char) → List MaskedLine
  | [] => []
  | line :: rest => (p.mask line).1 :: (p.mask line).2.maskAll rest

/-- Masks the lines of a file. -/
def maskLines (lines : List (List Char)) : List MaskedLine := Place.start.maskAll lines

/-- The places of the comments: the index of the line, and the column. -/
def commentPlaces (masked : List MaskedLine) : List (Nat × Nat) :=
  masked.zipIdx.filterMap fun (line, index) => line.comment.map fun column => (index, column)

end TypeNotes.Ruby
