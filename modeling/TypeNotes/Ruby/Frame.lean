import TypeNotes.Text.Basic
import TypeNotes.Unicode.Word

/-!
# Where a character stands: code, literals and heredocs

Ruby code is scanned one step at a time. The scanner keeps a stack of *frames*: the literals it is
inside of, and the pieces of code that are interpolated into them. With no frame it is in plain
code. `step` says what the next character is: the start of a comment, or the first of a few
characters that are shown or blanked out, with the frames afterwards.

Some characters start a literal only where a value is expected. What was shown of the line so far
decides that; it is given in reverse, so that its last character comes first.
-/

namespace TypeNotes.Ruby

open Unicode

/-! ### Frames -/

/-- What surrounds a character. -/
inductive Frame
  /-- A literal with its delimiters, whether code may be interpolated into it, and how many of its
  opening delimiters are open inside of it. -/
  | literal (opener closer : Char) (interpolates : Bool) (nesting : Nat)
  /-- Code interpolated into a literal, and how many braces are open in it. -/
  | interpolation (depth : Nat)
  deriving DecidableEq, Repr

/-- A heredoc: whether its terminator may be indented, and the terminator. -/
structure Heredoc where
  indented : Bool
  terminator : List Char
  deriving DecidableEq, Repr

/-- Whether a line ends the heredoc. -/
def Heredoc.endsAt (h : Heredoc) (line : List Char) : Bool :=
  let body := Text.dropReturns line
  (if h.indented then Text.trim body else body) == h.terminator

/-- The opening of a heredoc after its two angle brackets. -/
structure HeredocOpening where
  heredoc : Heredoc
  /-- Whether it is told apart from a shift by a flag or a quotation mark. -/
  marked : Bool
  /-- Its characters. -/
  text : List Char

/-- Letters of ASCII and the underscore. -/
def isNameStart (c : Char) : Bool := c.isAlpha || c == '_'

/-- Reads the opening of a heredoc after its two angle brackets: a flag, and a name that may be
quoted. -/
def HeredocOpening.ofText? (s : List Char) : Option HeredocOpening :=
  let flag := s.take 1 |>.filter fun c => c == '~' || c == '-'
  let s := s.drop flag.length
  let mark := s.take 1 |>.filter fun c => c == '"' || c == '\'' || c == '`'
  let s := s.drop mark.length
  match s with
  | [] => none
  | c :: rest =>
    if isNameStart c then
      let name := c :: rest.takeWhile isWord
      if mark.isPrefixOf (rest.dropWhile isWord) then
        some ⟨⟨!flag.isEmpty, name⟩, !flag.isEmpty || !mark.isEmpty, flag ++ mark ++ name ++ mark⟩
      else none
    else none

/-! ### Where values stand -/

/-- Characters after which a value is expected. -/
def valuePunctuation : List Char := "([\x7b,;=|&!?:+-*/%<>~^".toList

/-- Words after which a value is expected. -/
def valueWords : List (List Char) :=
  ["and", "case", "do", "else", "elsif", "if", "in", "not", "or", "p", "puts", "return", "then",
   "unless", "until", "when", "while", "yield"].map String.toList

/-- The word at the end of the text before, which is given in reverse. -/
def lastWord (before : List Char) : List Char :=
  (before.takeWhile isWord).reverse.dropWhile fun c => !isNameStart c

/-- Whether a value is expected after this text, which is given in reverse. -/
def valueExpected (before : List Char) : Bool :=
  match before.dropWhile isSpace with
  | [] => true
  | c :: rest => valuePunctuation.contains c || valueWords.contains (lastWord (c :: rest))

/-- Whether a character can start a literal after this text: where a value is expected, and as the
first argument of a call, with a blank before and none behind. -/
def literalAllowed (before : List Char) (next : Option Char) : Bool :=
  valueExpected before ||
    (before.head?.any isSpace && next.any (fun c => !isSpace c) &&
      (before.dropWhile isSpace).head?.any isWord)

/-- Whether a regular expression closes on its line. -/
def closesOnLine : List Char → Bool
  | [] => false
  | '\\' :: rest => closesOnLine (rest.drop 1)
  | '/' :: _ => true
  | _ :: rest => closesOnLine rest
termination_by s => s.length
decreasing_by all_goals simp only [List.length_drop, List.length_cons]; omega

/-- Whether a slash starts a regular expression. A first argument has to close on its line, so that
a division is not taken for one. -/
def regexpAllowed (before rest : List Char) : Bool :=
  valueExpected before || (literalAllowed before rest.head? && closesOnLine rest)

/-! ### Percent literals -/

/-- The delimiter that closes what another one opens. -/
def closerOf (opener : Char) : Char :=
  match opener with
  | '(' => ')'
  | '[' => ']'
  | '{' => '}'
  | '<' => '>'
  | c => c

/-- Whether a character can delimit a percent literal. -/
def isDelimiter (c : Char) : Bool := !isWord c && !isSpace c && c != '='

/-- Reads the opening of a literal after its percent sign: its characters, and its frame. -/
def percentOpening? (s : List Char) : Option (List Char × Frame) :=
  match s with
  | [] => none
  | c :: rest =>
    if "qQwWiIrsx".toList.contains c then
      match rest with
      | [] => none
      | d :: _ =>
        if isDelimiter d then
          some ([c, d], .literal d (closerOf d) ("QWIrx".toList.contains c) 0)
        else none
    else if isDelimiter c then some ([c], .literal c (closerOf c) true 0)
    else none

/-! ### Steps -/

/-- A step of the scanner: what is shown for the next character and for those after it that belong
to the same step, the frames afterwards, and the heredoc that is opened. -/
structure Step where
  first : Char
  more : List Char
  frames : List Frame
  heredoc : Option Heredoc

/-- Shows one character. -/
def Step.show (c : Char) (frames : List Frame) : Step := ⟨c, [], frames, none⟩

/-- Shows one character and some more. -/
def Step.showAll (c : Char) (more : List Char) (frames : List Frame) : Step :=
  ⟨c, more, frames, none⟩

/-- Blanks one character out. -/
def Step.hide (frames : List Frame) : Step := ⟨' ', [], frames, none⟩

/-- A step inside a literal. Everything is blanked out but the closing delimiter. A backslash takes
the next character with it. -/
def stepLiteral (opener closer : Char) (interpolates : Bool) (nesting : Nat) (outer : List Frame)
    (c : Char) (rest : List Char) : Step :=
  let here := Frame.literal opener closer interpolates
  if c == '\\' then ⟨' ', Text.blanks (rest.take 1).length, here nesting :: outer, none⟩
  else if interpolates && c == '#' && rest.head? == some '\x7b' then
    ⟨' ', [' '], .interpolation 0 :: here nesting :: outer, none⟩
  else if c == closer then
    match nesting with
    | 0 => .show c outer
    | nesting + 1 => .hide (here nesting :: outer)
  else if c == opener then .hide (here (nesting + 1) :: outer)
  else .hide (here nesting :: outer)

/-- Characters that form a global variable with a dollar sign in front. -/
def specialVariables : List Char := "'\"`/\\;,.<>!@~&*?:=$0".toList

/-- A brace is opened in code. -/
def openBrace : List Frame → List Frame
  | .interpolation depth :: outer => .interpolation (depth + 1) :: outer
  | frames => frames

/-- A brace is closed in code: the end of an interpolation if none is open in it. -/
def stepCloseBrace (c : Char) : List Frame → Step
  | .interpolation 0 :: outer => .hide outer
  | .interpolation (depth + 1) :: outer => .show c (.interpolation depth :: outer)
  | frames => .show c frames

/-- A heredoc may be opened here. One that is neither flagged nor quoted has an upper-case
terminator and stands where a literal can. -/
def stepHeredoc? (frames : List Frame) (before : List Char) (c : Char) (rest : List Char) :
    Option Step := do
  let opening ← match rest with
    | '<' :: name => HeredocOpening.ofText? name
    | _ => none
  let first ← opening.heredoc.terminator.head?
  if opening.marked || (first.isUpper && literalAllowed before (some first)) then
    some ⟨c, '<' :: opening.text, frames, some opening.heredoc⟩
  else none

/-- A character literal may stand here: a question mark with one character, or with a backslash and
one character, and no word character behind. -/
def stepCharacter? (frames : List Frame) (before : List Char) (c : Char) (rest : List Char) :
    Option Step := do
  let next ← rest.head?
  let count := if next == '\\' then 2 else 1
  if literalAllowed before (some next) && !(rest[count]?.any isWord) then
    some ⟨c, Text.blanks (rest.take count).length, frames, none⟩
  else none

/-- A step in code, for a character that starts no comment. -/
def stepCode (frames : List Frame) (before : List Char) (c : Char) (rest : List Char) : Step :=
  let plain := Step.show c frames
  match c with
  | '{' => .show c (openBrace frames)
  | '}' => stepCloseBrace c frames
  | '$' =>
    match rest with
    | d :: _ => if specialVariables.contains d then .showAll c [d] frames else plain
    | [] => plain
  | '"' | '`' => .show c (.literal c c true 0 :: frames)
  | '\'' => .show c (.literal c c false 0 :: frames)
  | '<' => (stepHeredoc? frames before c rest).getD plain
  | '%' =>
    if literalAllowed before rest.head? then
      match percentOpening? rest with
      | some (opening, frame) => .showAll c opening (frame :: frames)
      | none => plain
    else plain
  | '/' =>
    if regexpAllowed before rest then .show c (.literal '/' '/' true 0 :: frames) else plain
  | '?' => (stepCharacter? frames before c rest).getD plain
  | _ => plain

/-- What the character `c` is, after the text `before` (in reverse) and in front of `rest`; nothing
if it starts a comment. -/
def step (frames : List Frame) (before : List Char) (c : Char) (rest : List Char) : Option Step :=
  match frames with
  | .literal opener closer interpolates nesting :: outer =>
    some (stepLiteral opener closer interpolates nesting outer c rest)
  | _ => if c == '#' then none else some (stepCode frames before c rest)

end TypeNotes.Ruby
