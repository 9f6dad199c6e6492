import TypeNotes.Note.Block
import TypeNotes.Signature.Token

/-!
# Entries: the text of one note

Inside a block, a line with the marker `@rbs` opens an entry, and owns the lines after it that are
indented deeper or blank. A line that starts with a colon right after its hash sign is an entry of
its own. A single comment behind code may hold type arguments in brackets.

An entry is text gathered from several comments. It is read as one signature, and a place in it is
found again in the file through its segments.
-/

namespace TypeNotes

open Ruby

/-! ### Segments -/

/-- A piece of text from one comment, and the byte of the file at which it starts. -/
structure Segment where
  comment : Comment
  text : List Char
  byteStart : Nat
  deriving DecidableEq, Repr

namespace Segment

/-- What follows the first characters of a comment's body. -/
def ofBody (c : Comment) (skipped : Nat) : Segment :=
  ⟨c, c.body.drop skipped, c.byteStart + 1 + Utf8.size (c.body.take skipped)⟩

/-- The byte of the file for a byte of the text of segments, which are joined by line ends. A place
after the text is the end of the last segment. -/
def fileOffset (seg : Segment) (more : List Segment) (offset : Nat) : Nat :=
  let size := Utf8.size seg.text
  match more with
  | [] => seg.byteStart + min offset size
  | next :: rest =>
    if offset ≤ size then seg.byteStart + offset else fileOffset next rest (offset - (size + 1))

end Segment

/-! ### Entries -/

/-- The four forms of entries. -/
inductive EntryKind
  /-- After the marker `@rbs`. -/
  | marked
  /-- After the marker `@rbs!`. -/
  | embedded
  /-- After `#:`. -/
  | assertion
  /-- Type arguments in brackets. -/
  | application
  deriving DecidableEq, Repr

/-- The text of one note, in at least one segment. -/
structure Entry where
  kind : EntryKind
  first : Segment
  more : List Segment
  deriving DecidableEq, Repr

namespace Entry

def segments (e : Entry) : List Segment := e.first :: e.more

/-- The comments that an entry is gathered from. -/
def comments (e : Entry) : List Comment := e.segments.map (·.comment)

/-- The text of an entry. -/
def text (e : Entry) : List Char := Text.unlines (e.segments.map (·.text))

/-- The byte of the file for a byte of the text. -/
def fileOffset (e : Entry) (offset : Nat) : Nat := e.first.fileOffset e.more offset

/-- The byte of the file for a character of the text. -/
def fileOffsetOfCharacter (e : Entry) (index : Nat) : Nat :=
  e.fileOffset (Utf8.size (e.text.take index))

/-- The text with its first characters blanked out, byte by byte, so that all other bytes keep their
places. -/
def blankedTo (e : Entry) (count : Nat) : List Char :=
  Text.blanks (Utf8.size (e.text.take count)) ++ e.text.drop count

/-- An error in the text of an entry as an error in the file. -/
def relocate (e : Entry) (error : Signature.Error) : Signature.Error :=
  let start := e.fileOffset error.offset
  let stop := e.fileOffset (error.offset + error.length)
  ⟨error.cause, start, stop - start⟩

end Entry

/-! ### Gathering -/

/-- The marker at the start of a comment's body. -/
structure Marker where
  /-- How many characters stand before it. -/
  indent : Nat
  /-- Whether it has an exclamation mark. -/
  bang : Bool
  deriving DecidableEq, Repr

/-- How many characters of the body a marker takes, with what stands before it. -/
def Marker.length (m : Marker) : Nat := m.indent + 4 + if m.bang then 1 else 0

/-- Whether white space or nothing at all stands here. -/
def atGap (s : List Char) : Bool := s.head?.all Unicode.isSpace

/-- How deep a text is indented. -/
def indentation (s : List Char) : Nat := (s.takeWhile Unicode.isSpace).length

/-- Reads the marker at the start of a comment's body. -/
def Marker.ofBody? (body : List Char) : Option Marker :=
  match Text.after? "@rbs".toList (Text.trimLeft body) with
  | none => none
  | some ('!' :: rest) => if atGap rest then some ⟨indentation body, true⟩ else none
  | some rest => if atGap rest then some ⟨indentation body, false⟩ else none

/-- Whether a comment is an assertion. -/
def isColonLine (c : Comment) : Bool := c.body.head? == some ':'

/-- Whether a comment belongs to the entry that a marker opened: it is blank or indented deeper than
the marker, and opens no entry itself. -/
def Marker.owns (m : Marker) (c : Comment) : Bool :=
  (Marker.ofBody? c.body).isNone && !isColonLine c &&
    (Text.isBlank c.body || m.indent < indentation c.body)

/-- The entry that a marker opens. -/
def Marker.entry (m : Marker) (c : Comment) (owned : List Comment) : Entry where
  kind := if m.bang then .embedded else .marked
  first := .ofBody c m.length
  more := owned.map fun c => .ofBody c 0

/-- The entries of comments that follow each other. -/
def Entry.gather : List Comment → List Entry
  | [] => []
  | c :: rest =>
    match Marker.ofBody? c.body with
    | some m => m.entry c (rest.takeWhile m.owns) :: gather (rest.dropWhile m.owns)
    | none =>
      if isColonLine c then ⟨.assertion, .ofBody c 1, []⟩ :: gather rest else gather rest
termination_by l => l.length
decreasing_by
  · have := Text.length_dropWhile_le m.owns rest
    simp only [List.length_cons]
    omega
  · simp
  · simp

/-- Whether a block is a single comment behind code with type arguments. -/
def CommentBlock.isApplication (b : CommentBlock) : Bool :=
  b.more.isEmpty && b.first.inline && b.first.body.head? == some '['

/-- The entries of a block. -/
def CommentBlock.entries (b : CommentBlock) : List Entry :=
  if b.isApplication then [⟨.application, .ofBody b.first 0, []⟩] else Entry.gather b.comments

end TypeNotes
