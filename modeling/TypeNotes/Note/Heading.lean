import TypeNotes.Note.Entry

/-!
# Headings: how the text of a note starts

What follows the marker `@rbs` decides which note it is: a name with a colon, a keyword, the start
of a method type, or a name alone. A `Heading` is a name found there with the characters around
it. White space may stand before the name and between the name and its colon.
-/

namespace TypeNotes

open Unicode

/-- A name at the start of a text: the number of characters before it, the name, and the number of
characters up to the end of the heading. -/
structure Heading where
  start : Nat
  name : List Char
  stop : Nat
  deriving DecidableEq, Repr

/-! ### Names -/

/-- Cuts a part of a name off the front of a text. -/
abbrev NamePart : Type := List Char → Option (List Char × List Char)

/-- A word whose first character is of a class. -/
def word (start : Char → Bool) : NamePart
  | [] => none
  | c :: rest => if start c then some (c :: rest.takeWhile isWord, rest.dropWhile isWord) else none

/-- A name of an instance or class variable, of the object or of its class. -/
def variableName : NamePart := fun s =>
  let self := if Text.startsWith s "self." then s.take 5 else []
  let marks := (s.drop self.length).takeWhile (· == '@') |>.take 2
  if marks.isEmpty then none
  else (word Ruby.isNameStart (s.drop (self.length + marks.length))).map fun (name, rest) =>
    (self ++ marks ++ name, rest)

/-- A name of a block, which may be only its ampersand. -/
def blockName : NamePart
  | '&' :: rest => some ('&' :: rest.takeWhile isWord, rest.dropWhile isWord)
  | _ => none

/-- A name after one or two asterisks, which may be left out. -/
def splatName : NamePart := fun s =>
  let stars := (s.takeWhile (· == '*')).take 2
  if stars.isEmpty then none
  else
    let rest := s.drop stars.length
    let (name, rest) := (word Ruby.isNameStart rest).getD ([], rest)
    some (stars ++ name, rest)

/-- Characters that a parameter's name starts with. -/
def isParameterStart (c : Char) : Bool := c.isLower || c == '_'

/-- A name of a parameter, with a question or exclamation mark if it has one. -/
def parameterName : NamePart := fun s =>
  (word isParameterStart s).map fun (name, rest) =>
    let ending := rest.take 1 |>.filter fun c => c == '?' || c == '!'
    (name ++ ending, rest.drop ending.length)

/-! ### Headings -/

/-- A name, and a colon that is not the first half of a double one. -/
def Heading.withColon? (part : NamePart) (s : List Char) : Option Heading :=
  let start := indentation s
  match part (Text.trimLeft s) with
  | none => none
  | some (name, rest) =>
    match Text.trimLeft rest with
    | ':' :: ':' :: _ => none
    | ':' :: _ => some ⟨start, name, start + name.length + indentation rest + 1⟩
    | _ => none

/-- A parameter's name without a colon, in front of white space or the end. Words of their own
meaning are no names. -/
def Heading.bare? (s : List Char) : Option Heading :=
  let start := indentation s
  let s := Text.trimLeft s
  if ["yields", "override", "skip"].any fun w => s.takeWhile isWord == w.toList then none
  else match parameterName s with
    | some (name, rest) => if atGap rest then some ⟨start, name, start + name.length⟩ else none
    | none => none

/-- The word at the start of a text, up to white space. -/
def Heading.firstWord (s : List Char) : Heading :=
  let start := indentation s
  let name := (Text.trimLeft s).takeWhile fun c => !isSpace c
  ⟨start, name, start + name.length⟩

/-! ### Markers and openings -/

/-- Whether nothing but this word and a remark after two dashes stands here. -/
def isLoneWord (w : String) (s : List Char) : Bool :=
  match Text.after? w.toList (Text.trimLeft s) with
  | none => false
  | some rest =>
    let rest := Text.trimLeft rest
    rest.isEmpty || Text.startsWith rest "--"

/-- Whether a text starts with a tag or like a method type. -/
def startsMethodType (s : List Char) : Bool :=
  let s := Text.trimLeft s
  ["%a", "(", "[", "\x7b", "?", "^", "->"].any (Text.startsWith s)

end TypeNotes
