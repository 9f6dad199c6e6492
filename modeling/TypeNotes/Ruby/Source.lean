import TypeNotes.Ruby.Definition
import TypeNotes.Ruby.Mask
import TypeNotes.Span
import TypeNotes.Utf8

/-!
# Ruby files

A `Source` is a Ruby file as text. Its comments and method declarations come from the masked lines,
and positions are translated between bytes, characters, and lines with columns. Lines end at line
feeds only; carriage returns at the end of a line are left out of it. Lines and columns are counted
from one, positions from zero.
-/

namespace TypeNotes.Ruby

/-! ### Positions -/

/-- The character position of a byte position. A position inside a character counts from the start
of that character as if it went on in single bytes. -/
def characterOffset : List Char → Nat → Nat
  | [], offset => offset
  | c :: rest, offset =>
    if c.utf8Size ≤ offset then characterOffset rest (offset - c.utf8Size) + 1 else offset

/-- The line and column of a character position, in lines of which the first has this number. A
position after the end is taken to be on the last line. -/
def locateFrom (number offset : Nat) : List (List Char) → Nat × Nat
  | [] | [_] => (number, offset + 1)
  | line :: next :: more =>
    if offset ≤ line.length then (number, offset + 1)
    else locateFrom (number + 1) (offset - (line.length + 1)) (next :: more)

/-- The position at which the line with this index starts. -/
def lineStart (lines : List (List Char)) (index : Nat) : Nat :=
  (lines.take index).foldr (fun line start => line.length + 1 + start) 0

/-! ### Comments -/

/-- A comment: its text from the hash sign on, where it stands, and whether code stands before it on
its line. -/
structure Comment where
  text : List Char
  start : Nat
  stop : Nat
  byteStart : Nat
  byteStop : Nat
  line : Nat
  /-- Counted from zero. -/
  column : Nat
  inline : Bool
  deriving DecidableEq, Repr

/-- The characters of a comment. -/
def Comment.span (c : Comment) : Span := ⟨c.start, c.stop⟩

/-- What follows the hash sign. -/
def Comment.body (c : Comment) : List Char := c.text.drop 1

/-- Where a line stands: its number, and the positions at which it starts. -/
structure LinePlace where
  number : Nat
  start : Nat
  byteStart : Nat

/-- The place of the line after this one. -/
def LinePlace.next (p : LinePlace) (line : List Char) : LinePlace :=
  ⟨p.number + 1, p.start + line.length + 1, p.byteStart + Utf8.size line + 1⟩

/-- The comment in a column of a line. -/
def Comment.ofLine (p : LinePlace) (line : List Char) (column : Nat) : Comment :=
  let line := Text.dropReturns line
  let code := line.take column
  let text := line.drop column
  let byteStart := p.byteStart + Utf8.size code
  { text := text
    start := p.start + column
    stop := p.start + line.length
    byteStart := byteStart
    byteStop := byteStart + Utf8.size text
    line := p.number
    column := column
    inline := !Text.isBlank code }

/-- The comments of lines, the first of which is at this place. -/
def commentsFrom (p : LinePlace) : List (List Char × MaskedLine) → List Comment
  | [] => []
  | (line, masked) :: rest =>
    (masked.comment.map (Comment.ofLine p line)).toList ++ commentsFrom (p.next line) rest

/-- The comment that contains a position, or else the last one. -/
def commentAt? (comments : List Comment) (offset : Nat) : Option Comment :=
  (comments.find? fun c => c.start ≤ offset && offset ≤ c.stop).or comments.getLast?

/-! ### Declarations -/

/-- A method declaration: its name, the line of its `def`, the line on which the parentheses of its
parameters close (that of the `def` without parentheses), and its parameters. -/
structure Declaration where
  name : List Char
  line : Nat
  parametersEndLine : Nat
  parameters : List Parameter
  deriving DecidableEq, Repr

/-- The names by which notes may refer to parameters of a method. -/
def Declaration.parameterNames (d : Declaration) : List (List Char) :=
  d.parameters.flatMap Parameter.matchableNames

/-! ### Files -/

/-- A Ruby file. -/
structure Source where
  path : String
  text : List Char

namespace Source

/-- The path of a text that comes from no file. -/
def noPath : String := "(string)"

/-- The file with a text and no path. -/
def ofText (text : List Char) : Source := ⟨noPath, text⟩

def lines (s : Source) : List (List Char) := Text.lines s.text

/-- The lines without what is not code. -/
def maskedLines (s : Source) : List MaskedLine := maskLines s.lines

/-- The text without what is not code. -/
def maskedText (s : Source) : List Char := Text.unlines (s.maskedLines.map (·.text))

/-- All comments, in order. -/
def comments (s : Source) : List Comment :=
  commentsFrom ⟨1, 0, 0⟩ (s.lines.zip s.maskedLines)

/-- The line and column of a character position. -/
def location (s : Source) (offset : Nat) : Nat × Nat := locateFrom 1 offset s.lines

/-- All method declarations, in order. -/
def declarations (s : Source) : List Declaration :=
  let lines := s.lines
  (definitions s.maskedText).map fun d =>
    let line := (locateFrom 1 d.start lines).1
    { name := d.name
      line := line
      parametersEndLine := (d.close.map fun offset => (locateFrom 1 offset lines).1).getD line
      parameters := d.parameters }

/-- The character position of a byte position. -/
def characterOffset (s : Source) (offset : Nat) : Nat := Ruby.characterOffset s.text offset

/-- A range of bytes as a range of characters. -/
def spanOfBytes (s : Source) (start stop : Nat) : Span :=
  ⟨s.characterOffset start, s.characterOffset stop⟩

/-- The line with a number. -/
def line? (s : Source) : Nat → Option (List Char)
  | 0 => none
  | index + 1 => s.lines[index]?.map Text.dropReturns

/-- The characters of the line with a number. Numbers below one count back from the last line, which
is number zero. -/
def lineSpan? (s : Source) (number : Int) : Option Span :=
  let lines := s.lines
  let index := if number ≤ 0 then number - 1 + lines.length else number - 1
  if index < 0 then none
  else
    let index := index.toNat
    let start := lineStart lines index
    lines[index]?.map fun line => ⟨start, start + (Text.dropReturns line).length⟩

theorem lineSpan?_succ (s : Source) (index : Nat) :
    s.lineSpan? ((index + 1 : Nat) : Int) = s.lines[index]?.map fun line =>
      ⟨lineStart s.lines index, lineStart s.lines index + (Text.dropReturns line).length⟩ := by
  have hpos : ¬ ((index + 1 : Nat) : Int) ≤ 0 := by omega
  have hsub : ((index + 1 : Nat) : Int) - 1 = index := by omega
  have hneg : ¬ (index : Int) < 0 := by omega
  simp only [lineSpan?, if_neg hpos, hsub, if_neg hneg, Int.toNat_natCast]

/-- Whether the line with a number is blank, as lines are that do not exist. -/
def isBlankLine (s : Source) (number : Nat) : Bool := (s.line? number).all Text.isBlank

/-- Words that may stand before the definition of a method. -/
def modifiers : List (List Char) :=
  ["private", "protected", "public", "private_class_method", "module_function"].map String.toList

/-- Whether a text starts with the word `def`. -/
def startsDefinition (line : List Char) : Bool :=
  match Text.after? ['d', 'e', 'f'] line with
  | some (c :: _) => Unicode.isSpace c
  | _ => false

/-- Whether a line defines a method, possibly after one modifier. -/
def isDefinition (line : List Char) : Bool :=
  let line := Text.trim line
  startsDefinition line || modifiers.any fun modifier =>
    match Text.after? modifier line with
    | some (c :: rest) => Unicode.isSpace c && startsDefinition (Text.trimLeft rest)
    | _ => false

/-- Whether the line with a number defines a method. -/
def isDefinitionLine (s : Source) (number : Nat) : Bool := (s.line? number).any isDefinition

end Source

/-! ### Reading files -/

/-- Why a file is not a source. -/
inductive LoadFault
  /-- The file cannot be read, for a reason given by the system. -/
  | unreadable (reason : String)
  /-- The bytes at a position are not UTF-8. -/
  | notUtf8 (fault : Utf8.Fault) (offset : Nat)
  deriving DecidableEq, Repr

/-- The words for a fault. -/
def LoadFault.message : LoadFault → String
  | unreadable reason => reason
  | notUtf8 fault offset => s!"not valid UTF-8 ({fault.reason} at byte {offset})"

/-- A file that is not a source, and why. -/
structure LoadError where
  path : String
  fault : LoadFault
  deriving DecidableEq, Repr

/-- The words for an error. -/
def LoadError.message (e : LoadError) : String := s!"{e.path}: {e.fault.message}"

/-- The source in the bytes of a file. -/
def Source.ofBytes (path : String) (bytes : List UInt8) : Except LoadError Source :=
  match Utf8.decode? bytes with
  | .ok text => .ok ⟨path, text⟩
  | .error (fault, offset) => .error ⟨path, .notUtf8 fault offset⟩

end TypeNotes.Ruby
