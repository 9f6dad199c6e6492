import TypeNotes.Ruby.Parameter

/-!
# Method definitions in masked code

A definition is the word `def`, a receiver that may be left out, and the name of a method, which
may be an operator. Definitions are found in masked text from left to right and do not overlap.
Each comes with the text of its parameters: what stands in the parentheses after its name, over
several lines if need be, or else the rest of its line up to a semicolon.
-/

namespace TypeNotes.Ruby

open Unicode

/-! ### The spelling of a definition -/

/-- Blanks inside a line. -/
def isInlineBlank (c : Char) : Bool := c == ' ' || c == '\t'

/-- Whether `def` after this character is not a word of its own. -/
def gluesWord (c : Char) : Bool :=
  isWord c || c == '.' || c == ':' || c == '$' || c == '@'

/-- The names of methods that are operators; the first that fits is meant. -/
def operatorNames : List (List Char) :=
  ["===", "==", "=~", "!=", "!~", "<=>", "<<", ">>", "<=", ">=", "**", "[]=", "[]", "+@", "-@",
   "~@", "!@", "+", "-", "~", "!", "*", "/", "%", "<", ">", "&", "|", "^", "`"].map String.toList

/-- Cuts the name of a method off the front of a text. -/
def splitMethodName? (s : List Char) : Option (List Char × List Char) :=
  match s with
  | [] => none
  | c :: rest =>
    if isNameStart c then
      let tail := rest.dropWhile isWord
      let ending := tail.take 1 |>.filter fun c => c == '?' || c == '!' || c == '='
      some (c :: rest.takeWhile isWord ++ ending, tail.drop ending.length)
    else operatorNames.findSome? fun name => (Text.after? name (c :: rest)).map fun tail =>
      (name, tail)

/-- Cuts the qualified part of a constant off: `::` and names that start with an upper-case
letter. -/
def splitConstantTail : List Char → List Char × List Char
  | ':' :: ':' :: c :: rest =>
    if c.isUpper then
      let more := splitConstantTail (rest.dropWhile isWord)
      (':' :: ':' :: c :: rest.takeWhile isWord ++ more.1, more.2)
    else ([], ':' :: ':' :: c :: rest)
  | s => ([], s)
termination_by s => s.length
decreasing_by
  have := Text.length_dropWhile_le isWord rest
  simp only [List.length_cons]
  omega

/-- Cuts a receiver and its dot off the front of a text. -/
def splitReceiver? (s : List Char) : Option (List Char × List Char) :=
  match s with
  | [] => none
  | c :: rest =>
    if isNameStart c then
      let word := c :: rest.takeWhile isWord
      let (path, tail) :=
        if c.isUpper then splitConstantTail (rest.dropWhile isWord)
        else ([], rest.dropWhile isWord)
      let gap := tail.takeWhile isInlineBlank
      match tail.dropWhile isInlineBlank with
      | '.' :: tail =>
        some (word ++ path ++ gap ++ '.' :: tail.takeWhile isInlineBlank,
          tail.dropWhile isInlineBlank)
      | _ => none
    else none

/-- A definition at the front of a text: its name, all characters up to the end of the name, and
what follows. -/
structure DefinitionHead where
  name : List Char
  text : List Char
  rest : List Char

/-- Reads a definition at the front of a text. A receiver without a name after it is the name. -/
def DefinitionHead.ofText? (s : List Char) : Option DefinitionHead := do
  let tail ← Text.after? ['d', 'e', 'f'] s
  let gap := tail.takeWhile isInlineBlank
  let body := tail.dropWhile isInlineBlank
  if gap.isEmpty then none
  else
    let lead := ['d', 'e', 'f'] ++ gap
    let withReceiver := do
      let (receiver, tail) ← splitReceiver? body
      let (name, rest) ← splitMethodName? tail
      return ⟨name, lead ++ receiver ++ name, rest⟩
    let bare := do
      let (name, rest) ← splitMethodName? body
      return ⟨name, lead ++ name, rest⟩
    withReceiver <|> bare

/-! ### The text of the parameters -/

/-- Splits a text at the bracket that closes the last of `depth + 1` open ones; without such a
bracket all of it is inside. -/
def splitAtClose (depth : Nat) : List Char → List Char × List Char
  | [] => ([], [])
  | c :: rest =>
    if c == ')' || c == ']' || c == '\x7d' then
      match depth with
      | 0 => ([], c :: rest)
      | depth + 1 => let parts := splitAtClose depth rest; (c :: parts.1, parts.2)
    else
      let depth := if c == '(' || c == '[' || c == '\x7b' then depth + 1 else depth
      let parts := splitAtClose depth rest
      (c :: parts.1, parts.2)

/-- The text of the parameters after the name of a method, and at which distance from the name they
end, if they are in parentheses. -/
def parameterText (s : List Char) : List Char × Option Nat :=
  let gap := (s.takeWhile isInlineBlank).length
  match s.dropWhile isInlineBlank with
  | [] => ([], none)
  | '(' :: rest =>
    let inside := (splitAtClose 0 rest).1
    (inside, some (gap + 1 + inside.length))
  | c :: rest =>
    if c == '\n' || c == ';' || c == '=' || c == '\r' then ([], none)
    else ((c :: rest).takeWhile fun c => c != '\n' && c != ';', none)

/-! ### All definitions -/

/-- A definition found in a text, by its position. -/
structure Definition where
  name : List Char
  /-- Where the word `def` starts. -/
  start : Nat
  /-- Where the closing parenthesis of the parameters stands, or the text ends without one. -/
  close : Option Nat
  parameters : List Parameter
  deriving DecidableEq, Repr

/-- The definitions in a text that is `offset` characters into the file, after the character
`previous`. -/
def definitionsFrom (offset : Nat) (previous : Option Char) : List Char → List Definition
  | [] => []
  | c :: rest =>
    let found := if previous.any gluesWord then none else DefinitionHead.ofText? (c :: rest)
    match found with
    | none => definitionsFrom (offset + 1) (some c) rest
    | some head =>
      let stop := offset + head.text.length
      let (text, distance) := parameterText head.rest
      let definition :=
        ⟨head.name, offset, distance.map (stop + ·), parseParameters text⟩
      definition :: definitionsFrom stop (head.text.getLast?) (rest.drop (head.text.length - 1))
termination_by s => s.length
decreasing_by
  · simp
  · simp only [List.length_drop, List.length_cons]; omega

/-- The definitions in a masked text. -/
def definitions (masked : List Char) : List Definition := definitionsFrom 0 none masked

end TypeNotes.Ruby
