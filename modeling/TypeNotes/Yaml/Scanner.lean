import TypeNotes.Yaml.Token

/-!
# From YAML text to tokens

The scanner goes through a text once. It keeps the columns of the open blocks, how many flow
brackets are open, and for each of these levels the place where a key may have started. When a
colon shows that there was a key, the tokens that say so are put in at that place. A key that is
not in brackets stays on one line, and no key is longer than 1024 characters.

Anchors, aliases, tags and directives are not read.
-/

namespace TypeNotes.Yaml

/-- A place where a key may have started. -/
structure PendingKey where
  /-- How many tokens come before the key. -/
  tokens : Nat
  /-- Whether nothing else than a key can have started there. -/
  required : Bool
  index : Nat
  line : Nat
  column : Nat

/-- The state of the scanner. -/
structure Scanner where
  place : Place
  tokens : List Token
  /-- The column of the innermost block. -/
  indent : Int
  /-- The columns of the blocks around it, from the inside out. -/
  indents : List Int
  /-- Whether a key may start here. -/
  allowKey : Bool
  /-- The pending keys of the open flow brackets, from the inside out, and of the block around
  them. -/
  keys : List (Option PendingKey)

/-- A step of the scanner; it fails where the text is not YAML. -/
abbrev Scan (α : Type) : Type := StateT Scanner Option α

namespace Scan

/-! ### Looking and moving -/

/-- What has not been scanned yet. -/
def rest : Scan (List Char) := do return (← get).place.rest

/-- The next character. -/
def peek : Scan (Option Char) := do return (← rest).head?

/-- Whether the next character is of a class. -/
def nextIs (p : Char → Bool) : Scan Bool := do return (← peek).any p

/-- Passes over some characters. -/
def skip (count : Nat) : Scan Unit :=
  modify fun s => { s with place := s.place.advance count }

/-- Takes the characters of a class that stand next. -/
def takeWhile (p : Char → Bool) : Scan (List Char) := do
  let run := (← rest).takeWhile p
  skip run.length
  return run

/-- Takes a line end, if one stands next; the common ones are all taken for a line feed. -/
def takeBreak : Scan (List Char) := do
  match ← rest with
  | '\r' :: '\n' :: _ =>
    skip 2
    return ['\n']
  | c :: _ =>
    if isBreak c then
      skip 1
      return if c == '\u2028' || c == '\u2029' then [c] else ['\n']
    else return []
  | [] => return []

/-- The column of the next character. -/
def column : Scan Nat := do return (← get).place.column

/-- Whether a flow bracket is open. -/
def inFlow : Scan Bool := do return 1 < (← get).keys.length

/-- Says whether a key may start at the next token. -/
def setAllowKey (b : Bool) : Scan Unit := modify fun s => { s with allowKey := b }

/-- Adds a token. -/
def emit (t : Token) : Scan Unit := modify fun s => { s with tokens := s.tokens ++ [t] }

/-- Puts a token in after so many others. -/
def emitAt (count : Nat) (t : Token) : Scan Unit :=
  modify fun s => { s with tokens := s.tokens.take count ++ t :: s.tokens.drop count }

/-- A marker between documents: three dashes or three dots, and a separator. -/
def isDocumentMarker (s : List Char) : Bool :=
  (s.take 3 == "---".toList || s.take 3 == "...".toList) && atSeparator (s.drop 3)

/-! ### Pending keys -/

/-- Sets the pending key of the innermost level. -/
def setKey (key : Option PendingKey) : Scan Unit :=
  modify fun s => { s with keys := key :: s.keys.drop 1 }

/-- Gives the pending key up; one that is required cannot be given up. -/
def dropKey : Scan Unit := do
  match (← get).keys.head?.join with
  | some key => if key.required then failure else setKey none
  | none => return ()

/-- The next token may turn out to be a key. -/
def saveKey : Scan Unit := do
  let s ← get
  if s.allowKey then
    let required := !(← inFlow) && s.indent == (s.place.column : Int)
    dropKey
    setKey (some ⟨s.tokens.length, required, s.place.index, s.place.line, s.place.column⟩)

/-- A pending key, unless it is on an earlier line or too far back. -/
def keepKey (p : Place) (key : Option PendingKey) : Option (Option PendingKey) :=
  match key with
  | none => some none
  | some k =>
    if k.line == p.line && p.index - k.index ≤ 1024 then some (some k)
    else if k.required then none else some none

/-- Gives all keys up that have become too long. -/
def dropStaleKeys : Scan Unit := do
  let s ← get
  let keys ← s.keys.mapM fun key => (keepKey s.place key : Option (Option PendingKey))
  modify fun s => { s with keys := keys }

/-! ### Indentation -/

/-- How many blocks end in front of a column, and the columns of those that stay open. -/
def closeBlocks (column : Int) : Int → List Int → Nat × Int × List Int
  | indent, [] => (0, indent, [])
  | indent, outer :: rest =>
    if column < indent then
      let (count, stay) := closeBlocks column outer rest
      (count + 1, stay)
    else (0, indent, outer :: rest)

/-- Ends the blocks that are indented deeper than a column. -/
def unwind (column : Int) : Scan Unit := do
  if ← inFlow then return ()
  let s ← get
  let (count, indent, indents) := closeBlocks column s.indent s.indents
  set { s with
    indent := indent
    indents := indents
    tokens := s.tokens ++ List.replicate count Token.blockEnd }

/-- Opens a block in a column, if it is deeper than the block around it. -/
def openBlock (column : Nat) : Scan Bool := do
  let s ← get
  if s.indent < (column : Int) then
    set { s with indent := (column : Int), indents := s.indent :: s.indents }
    return true
  else return false

/-! ### Plain texts -/

/-- The part of a plain text up to a separator or a mark that ends it. -/
def plainRun (flow : Bool) : List Char → List Char
  | [] => []
  | c :: rest =>
    let endsKey := c == ':' &&
      (atSeparator rest || (flow && rest.head?.any fun d => ",[]\x7b\x7d".toList.contains d))
    if isSeparator c || endsKey || (flow && ",?[]\x7b\x7d".toList.contains c) then []
    else c :: plainRun flow rest

/-- The empty lines inside of a plain text; nothing if a document ends there. -/
def plainBreaks : Nat → List Char → Scan (Option (List Char))
  | 0, found => return some found
  | fuel + 1, found => do
    match ← peek with
    | some ' ' =>
      skip 1
      plainBreaks fuel found
    | some c =>
      if isBreak c then
        let line ← takeBreak
        if isDocumentMarker (← rest) then return none
        else plainBreaks fuel (found ++ line)
      else return some found
    | none => return some found

/-- Line ends inside of a text: a single one is a blank, and of several the first is left out. -/
def fold (first more : List Char) : List Char :=
  if first != ['\n'] then first ++ more else if more.isEmpty then [' '] else more

/-- What stands between two parts of a plain text. -/
def plainSpaces : Scan (List Char) := do
  let blanks ← takeWhile (· == ' ')
  if ← nextIs isBreak then
    let first ← takeBreak
    setAllowKey true
    if isDocumentMarker (← rest) then return []
    match ← plainBreaks ((← rest).length + 1) [] with
    | none => return []
    | some more => return fold first more
  else return blanks

/-- The rest of a plain text, after the text `found` and the space behind it. -/
def plainRest (indent : Int) : Nat → List Char → List Char → Scan (List Char)
  | 0, found, _ => return found
  | fuel + 1, found, spaces => do
    if ← nextIs (· == '#') then return found
    let flow ← inFlow
    let run := plainRun flow (← rest)
    if run.isEmpty then return found
    setAllowKey false
    skip run.length
    let found := found ++ spaces ++ run
    let spaces ← plainSpaces
    if spaces.isEmpty || (← nextIs (· == '#')) || (!flow && ((← column) : Int) < indent) then
      return found
    plainRest indent fuel found spaces

/-- A plain text. -/
def plain : Scan Unit := do
  saveKey
  setAllowKey false
  let s ← get
  emit (.scalar (← plainRest (s.indent + 1) (s.place.rest.length + 1) [] []) true)

/-! ### Quoted texts -/

/-- The characters that are written with a backslash and one letter. -/
def escapes : List (Char × Char) :=
  [('0', '\x00'), ('a', '\x07'), ('b', '\x08'), ('t', '\t'), ('\t', '\t'), ('n', '\n'),
   ('v', '\x0b'), ('f', '\x0c'), ('r', '\r'), ('e', '\x1b'), (' ', ' '), ('"', '"'),
   ('\\', '\\'), ('/', '/'), ('N', '\x85'), ('_', '\xa0'), ('L', '\u2028'), ('P', '\u2029')]

/-- How many hexadecimal digits follow a backslash and one of these letters. -/
def escapeWidths : List (Char × Nat) := [('x', 2), ('u', 4), ('U', 8)]

/-- The value of hexadecimal digits. -/
def hexValue? : List Char → Option Nat :=
  List.foldl (fun acc c => do
    let n ← acc
    let digit ←
      if c.isDigit then some (c.toNat - 48)
      else if 'a' ≤ c && c ≤ 'f' then some (c.toNat - 87)
      else if 'A' ≤ c && c ≤ 'F' then some (c.toNat - 55)
      else none
    return n * 16 + digit) (some 0)

/-- The empty lines inside of a quoted text, where no document may end. -/
def quotedBreaks : Nat → List Char → Scan (List Char)
  | 0, found => return found
  | fuel + 1, found => do
    if isDocumentMarker (← rest) then failure
    let _ ← takeWhile fun c => c == ' ' || c == '\t'
    if ← nextIs isBreak then
      let line ← takeBreak
      quotedBreaks fuel (found ++ line)
    else return found

/-- What a backslash in a quoted text stands for. -/
def escape : Scan (List Char) := do
  skip 1
  let some c ← peek | failure
  if let some meaning := escapes.lookup c then
    skip 1
    return [meaning]
  else if let some width := escapeWidths.lookup c then
    skip 1
    let digits := (← rest).take width
    if digits.length < width then failure
    let some code := hexValue? digits | failure
    skip width
    return [Char.ofNat code]
  else if isBreak c then
    let _ ← takeBreak
    quotedBreaks ((← rest).length + 1) []
  else failure

/-- The part of a quoted text up to a separator or the closing mark. -/
def quotedRun (double : Bool) : Nat → List Char → Scan (List Char)
  | 0, found => return found
  | fuel + 1, found => do
    let run ← takeWhile fun c => !(c == '\'' || c == '"' || c == '\\' || isSeparator c)
    let found := found ++ run
    match ← rest with
    | '\'' :: '\'' :: _ =>
      if double then
        skip 1
        quotedRun double fuel (found ++ ['\''])
      else
        skip 2
        quotedRun double fuel (found ++ ['\''])
    | '\'' :: _ =>
      if double then
        skip 1
        quotedRun double fuel (found ++ ['\''])
      else return found
    | '"' :: _ =>
      if double then return found
      else
        skip 1
        quotedRun double fuel (found ++ ['"'])
    | '\\' :: _ =>
      if double then
        let meaning ← escape
        quotedRun double fuel (found ++ meaning)
      else
        skip 1
        quotedRun double fuel (found ++ ['\\'])
    | _ => return found

/-- What stands between two parts of a quoted text. -/
def quotedSpaces : Scan (List Char) := do
  let blanks ← takeWhile fun c => c == ' ' || c == '\t'
  match ← peek with
  | none => failure
  | some c =>
    if isBreak c then
      let first ← takeBreak
      let more ← quotedBreaks ((← rest).length + 1) []
      return fold first more
    else return blanks

/-- The rest of a quoted text up to its closing mark. -/
def quotedRest (mark : Char) : Nat → List Char → Scan (List Char)
  | 0, _ => failure
  | fuel + 1, found => do
    if ← nextIs (· == mark) then
      skip 1
      return found
    let spaces ← quotedSpaces
    let run ← quotedRun (mark == '"') ((← rest).length + 1) []
    quotedRest mark fuel (found ++ spaces ++ run)

/-- A quoted text. -/
def quoted (mark : Char) : Scan Unit := do
  saveKey
  setAllowKey false
  skip 1
  let fuel := (← rest).length + 1
  let first ← quotedRun (mark == '"') fuel []
  emit (.scalar (← quotedRest mark fuel first) false)

/-! ### Block texts -/

/-- The empty lines of a block text, and its indentation as far as they tell. -/
def blockLead : Nat → List Char → Nat → Scan (List Char × Nat)
  | 0, found, deepest => return (found, deepest)
  | fuel + 1, found, deepest => do
    match ← peek with
    | some ' ' =>
      skip 1
      blockLead fuel found (max deepest (← column))
    | some c =>
      if isBreak c then
        let line ← takeBreak
        blockLead fuel (found ++ line) deepest
      else return (found, deepest)
    | none => return (found, deepest)

/-- The blanks in front of a line of a block text, as far as its indentation goes. -/
def blockIndent (indent : Nat) : Nat → Scan Unit
  | 0 => return ()
  | fuel + 1 => do
    if (← column) < indent && (← nextIs (· == ' ')) then
      skip 1
      blockIndent indent fuel

/-- Empty lines inside of a block text. -/
def blockBreaks (indent : Nat) : Nat → List Char → Scan (List Char)
  | 0, found => return found
  | fuel + 1, found => do
    blockIndent indent (fuel + 1)
    if ← nextIs isBreak then
      let line ← takeBreak
      blockBreaks indent fuel (found ++ line)
    else return found

/-- Whether a line of a block text starts in this column. -/
def inBlock (indent : Nat) : Scan Bool := do
  return (← column) == indent && (← peek).isSome

/-- The lines of a block text, its last line end, and the empty lines after it. -/
def blockLines (folded : Bool) (indent : Nat) :
    Nat → List Char → List Char → Scan (List Char × List Char × List Char)
  | 0, found, breaks => return (found, [], breaks)
  | fuel + 1, found, breaks => do
    let indented ← nextIs fun c => c == ' ' || c == '\t'
    let line ← takeWhile fun c => !isBreak c
    let found := found ++ breaks ++ line
    let lineEnd ← takeBreak
    let breaks ← blockBreaks indent ((← rest).length + 1) []
    if ← inBlock indent then
      let nextIndented ← nextIs fun c => c == ' ' || c == '\t'
      let between :=
        if folded && lineEnd == ['\n'] && !indented && !nextIndented then
          if breaks.isEmpty then [' '] else []
        else lineEnd
      blockLines folded indent fuel (found ++ between) breaks
    else return (found, lineEnd, breaks)

/-- How the end of a block text is treated, and how deep it is indented, if that is given. -/
def blockHeader : Scan (Option Bool × Option Nat) := do
  let chomping : Scan (Option Bool) := do
    match ← peek with
    | some '+' =>
      skip 1
      return some true
    | some '-' =>
      skip 1
      return some false
    | _ => return none
  let depth : Scan (Option Nat) := do
    match ← peek with
    | some c =>
      if c == '0' then failure
      else if c.isDigit then
        skip 1
        return some (c.toNat - 48)
      else return none
    | none => return none
  match ← chomping with
  | some keep => return (some keep, ← depth)
  | none =>
    match ← depth with
    | some n => return (← chomping, some n)
    | none => return (none, none)

/-- A block text, in which line ends are kept or folded. -/
def blockText (folded : Bool) : Scan Unit := do
  setAllowKey true
  dropKey
  skip 1
  let (chomping, depth) ← blockHeader
  if !((← peek).all fun c => c == ' ' || isBreak c) then failure
  let _ ← takeWhile (· == ' ')
  if ← nextIs (· == '#') then let _ ← takeWhile fun c => !isBreak c
  if !((← peek).all isBreak) then failure
  let _ ← takeBreak
  let least := (max ((← get).indent + 1) 1).toNat
  let fuel := (← rest).length + 1
  let (breaks, indent) ← match depth with
    | none => do
      let (breaks, deepest) ← blockLead fuel [] 0
      pure (breaks, max least deepest)
    | some n => do
      let indent := least + n - 1
      let breaks ← blockBreaks indent fuel []
      pure (breaks, indent)
  let (text, lineEnd, breaks) ←
    if ← inBlock indent then blockLines folded indent fuel [] breaks else pure ([], [], breaks)
  let text := if chomping == some false then text else text ++ lineEnd
  let text := if chomping == some true then text ++ breaks else text
  emit (.scalar text false)

/-! ### Tokens -/

/-- Passes over blanks, comments and line ends. After a line end a key may start. -/
def toNextToken : Nat → Scan Unit
  | 0 => return ()
  | fuel + 1 => do
    let _ ← takeWhile (· == ' ')
    if ← nextIs (· == '#') then let _ ← takeWhile fun c => !isBreak c
    if (← takeBreak).isEmpty then return ()
    if !(← inFlow) then setAllowKey true
    toNextToken fuel

/-- A marker between documents. -/
def documentMarker (t : Token) : Scan Unit := do
  unwind (-1)
  dropKey
  setAllowKey false
  skip 3
  emit t

/-- The opening bracket of a flow sequence or mapping. -/
def openFlow (t : Token) : Scan Unit := do
  saveKey
  modify fun s => { s with keys := none :: s.keys }
  setAllowKey true
  skip 1
  emit t

/-- The closing bracket of a flow sequence or mapping. -/
def closeFlow (t : Token) : Scan Unit := do
  dropKey
  if !(← inFlow) then failure
  modify fun s => { s with keys := s.keys.drop 1 }
  setAllowKey false
  skip 1
  emit t

/-- The comma between items. -/
def comma : Scan Unit := do
  setAllowKey true
  dropKey
  skip 1
  emit .comma

/-- The dash in front of an item. -/
def dash : Scan Unit := do
  if !(← inFlow) then
    if !(← get).allowKey then failure
    if ← openBlock (← column) then emit .blockSequence
  setAllowKey true
  dropKey
  skip 1
  emit .dash

/-- The question mark in front of a key. -/
def explicitKey : Scan Unit := do
  if !(← inFlow) then
    if !(← get).allowKey then failure
    if ← openBlock (← column) then emit .blockMapping
  setAllowKey !(← inFlow)
  dropKey
  skip 1
  emit .key

/-- The colon behind a key, which says that there was one. -/
def colon : Scan Unit := do
  match (← get).keys.head?.join with
  | some key =>
    setKey none
    emitAt key.tokens .key
    if !(← inFlow) then
      if ← openBlock key.column then emitAt key.tokens .blockMapping
    setAllowKey false
  | none =>
    if !(← inFlow) then
      if !(← get).allowKey then failure
      if ← openBlock (← column) then emit .blockMapping
    setAllowKey !(← inFlow)
    dropKey
  skip 1
  emit .value

/-- Characters that start no plain text, unless one of the marks among them is glued to a word. -/
def indicators : List Char := "-?:,[]\x7b\x7d#&*!|>'\"%@`".toList

/-- Whether a plain text starts here. -/
def startsPlain (flow : Bool) (c : Char) (rest : List Char) : Bool :=
  !(isSeparator c || indicators.contains c) ||
    (!atSeparator rest && (c == '-' || (!flow && (c == '?' || c == ':'))))

/-- Scans the token that the character `c` starts. -/
def token (c : Char) (rest : List Char) : Scan Unit := do
  let flow ← inFlow
  let atLineStart := (← column) == 0
  if atLineStart && c == '%' then failure
  if atLineStart && isDocumentMarker (c :: rest) then
    documentMarker (if c == '-' then .documentStart else .documentEnd)
  else match c with
    | '[' => openFlow .openSequence
    | '{' => openFlow .openMapping
    | ']' => closeFlow .closeSequence
    | '}' => closeFlow .closeMapping
    | ',' => comma
    | _ =>
      if c == '-' && atSeparator rest then dash
      else if c == '?' && (flow || atSeparator rest) then explicitKey
      else if c == ':' && (flow || atSeparator rest) then colon
      else if c == '|' && !flow then blockText false
      else if c == '>' && !flow then blockText true
      else if c == '\'' || c == '"' then quoted c
      else if startsPlain flow c rest then plain
      else failure

/-- Scans all tokens. -/
def all : Nat → Scan Unit
  | 0 => failure
  | fuel + 1 => do
    toNextToken ((← rest).length + 1)
    dropStaleKeys
    unwind (← column)
    match ← rest with
    | [] =>
      unwind (-1)
      dropKey
    | c :: more =>
      token c more
      all fuel

end Scan

/-- The tokens of a YAML text. A byte order mark at its start is passed over. -/
def tokens? (text : List Char) : Option (List Token) := do
  if !text.all isAllowed then failure
  let start : Place := ⟨text, 0, 0, 0⟩
  let place := if text.head? == some '\uFEFF' then start.next else start
  let (_, scanner) ← (Scan.all (text.length + 1)).run ⟨place, [], -1, [], true, [none]⟩
  return scanner.tokens

end TypeNotes.Yaml
