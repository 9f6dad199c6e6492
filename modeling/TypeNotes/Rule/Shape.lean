import TypeNotes.Note.Heading

/-!
# Shapes of comments

Several rules look only at how a comment is written: whether it has the marker `@rbs`, what follows
the marker, and whether it looks like a note that was not written as one. All shapes are tests of
the text of a comment from its hash sign on.
-/

namespace TypeNotes.Shape

open Unicode

/-! ### Words after the marker -/

/-- The words that introduce a note without a colon behind them. -/
def keywords : List (List Char) :=
  ["inherits", "override", "use", "module-self", "generic", "skip", "module", "class"].map
    String.toList

/-- The keywords that stand alone. -/
def loneKeywords : List (List Char) := ["override", "skip"].map String.toList

/-- Whether some place of a text has a property. -/
def anywhere (p : List Char → Bool) : List Char → Bool
  | [] => p []
  | c :: rest => p (c :: rest) || anywhere p rest

/-- Whether a text starts with a tag that is one word, in brackets of the given kind. -/
def startsTag (opener closer : Char) (s : List Char) : Bool :=
  match Text.after? ['%', 'a', opener] s with
  | none => false
  | some rest =>
    let isPart := fun c => isWord c || c == '-'
    (rest.head?.any isPart) && (rest.dropWhile isPart).head? == some closer

/-- Whether a word may follow the marker without a colon: a keyword, or anything that contains a
tag. -/
def isKeyword (token : List Char) : Bool :=
  keywords.contains token ||
    [('\x7b', '\x7d'), ('(', ')'), ('[', ']')].any fun (opener, closer) =>
      anywhere (startsTag opener closer) token

/-- What follows the white space at the front of a text, if there is any. -/
def afterSpace? (s : List Char) : Option (List Char) :=
  match s with
  | c :: rest => if isSpace c then some (Text.trimLeft rest) else none
  | [] => none

/-- What follows the hash sign, white space, and the marker `@rbs` with white space behind it. -/
def afterMarker? (s : List Char) : Option (List Char) := do
  let rest ← Text.after? ['#'] s
  let rest ← afterSpace? rest
  let rest ← Text.after? "@rbs".toList rest
  afterSpace? rest

/-- The word after the marker, and the position at which it ends. -/
def markedWord? (s : List Char) : Option (List Char × Nat) := do
  let rest ← afterMarker? s
  let token := rest.takeWhile fun c => !isSpace c
  if token.isEmpty then none else some (token, s.length - rest.length + token.length)

/-- The keyword after the marker that has a colon behind it, and the position after the colon. -/
def keywordWithColon? (s : List Char) : Option (List Char × Nat) := do
  let rest ← afterMarker? s
  keywords.findSome? fun keyword =>
    match Text.after? keyword rest with
    | some (':' :: _) => some (keyword, s.length - rest.length + keyword.length + 1)
    | _ => none

/-- How deep the marker `@rbs!` of a comment is indented. -/
def embeddedIndent? (s : List Char) : Option Nat := do
  let body ← Text.after? ['#'] s
  let rest ← afterSpace? body
  let rest ← Text.after? "@rbs!".toList rest
  if atGap rest then some (indentation body) else none

/-- Whether a comment is about a variable. -/
def isVariableComment (s : List Char) : Bool :=
  match afterMarker? s with
  | none => false
  | some rest =>
    let rest := (Text.after? "self.".toList rest).getD rest
    match rest with
    | '@' :: '@' :: c :: _ | '@' :: c :: _ => Ruby.isNameStart c
    | _ => false

/-! ### Words that look like a name and a colon -/

/-- Whether a word is a name with a single colon behind it. -/
def isNameWithColon (token : List Char) : Bool :=
  let isPart := fun c => !isSpace c && c != ':'
  token.head?.any isPart &&
    match token.dropWhile isPart with
    | ':' :: ':' :: _ => false
    | ':' :: _ => true
    | _ => false

/-- Whether a word opens a method type. -/
def opensMethodType (token : List Char) : Bool :=
  ["(", "[", "\x7b", "?", "^", "->"].any (Text.startsWith token)

/-! ### Comments that look like notes -/

/-- Whether what follows some occurrence of a character has a property. -/
def anyAfter (c : Char) (p : List Char → Bool) : List Char → Bool
  | [] => false
  | d :: rest => (d == c && p rest) || anyAfter c p rest

/-- Whether an arrow stands here, possibly after white space. -/
def startsArrow (s : List Char) : Bool := Text.startsWith (Text.trimLeft s) "->"

/-- Whether a block in braces and an arrow stand here, possibly after white space. -/
def startsBlockAndArrow (s : List Char) : Bool :=
  let s := Text.trimLeft s
  let s := match s with
    | '?' :: rest => Text.trimLeft rest
    | s => s
  match s with
  | '{' :: rest => anyAfter '}' startsArrow rest
  | _ => false

/-- Whether a text starts like a method type: parentheses, a block or none, and an arrow. -/
def startsMethodSignature (s : List Char) : Bool :=
  match s with
  | '(' :: rest => anyAfter ')' (fun s => startsArrow s || startsBlockAndArrow s) rest
  | _ => false

/-- A method type after a hash sign and white space. -/
def isBareSignature (s : List Char) : Bool :=
  ((Text.after? ['#'] s).bind afterSpace?).any startsMethodSignature

/-- A method type after a hash sign, white space and a colon. -/
def isDetachedAssertion (s : List Char) : Bool :=
  match (Text.after? ['#'] s).bind afterSpace? with
  | some (':' :: rest) => startsMethodSignature (Text.trimLeft rest)
  | _ => false

/-- The marker inside an assertion. -/
def isMarkedAssertion (s : List Char) : Bool :=
  let rest := do
    let rest ← Text.after? ['#', ':'] s
    let rest ← afterSpace? rest
    let rest ← Text.after? "@rbs".toList rest
    afterSpace? rest
  rest.isSome

/-- The marker without its at sign, in front of what may follow a marker. -/
def isUnmarked (s : List Char) : Bool :=
  let rest := do
    let rest ← Text.after? ['#'] s
    let rest ← Text.after? "rbs".toList (Text.trimLeft rest)
    afterSpace? rest
  rest.any fun rest =>
    keywords.any (fun keyword => keyword.isPrefixOf rest) ||
    ((rest.takeWhile fun c => !isSpace c).drop 1).contains ':' ||
    ((Text.after? ['%', 'a', '\x7b'] rest).any fun inside => inside.contains '\x7d') ||
    startsMethodSignature rest

/-- Whether a comment looks like a note and is none. -/
def isInvalidNote (s : List Char) : Bool :=
  isBareSignature s || isDetachedAssertion s || isMarkedAssertion s || isUnmarked s

end TypeNotes.Shape
