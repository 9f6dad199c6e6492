import TypeNotes.Signature.Grammar

/-!
# Cursors: reading tokens on demand

A `Cursor` stands in a signature. It reads a token only when the token is asked for, and keeps the
tokens it has looked at but not taken. An error in the bytes shows when the reading reaches it, and
shows again whenever it is reached again.
-/

namespace TypeNotes.Signature

/-- A place in a signature: the tokens looked at and not taken, and the bytes after them. -/
structure Cursor where
  data : List UInt8
  /-- Tokens looked at and not taken, in order. -/
  buffer : List Token
  /-- Where the bytes not read yet start. -/
  offset : Nat
  /-- The bytes not read yet. -/
  rest : List UInt8
  /-- Where the last token taken ended. -/
  lastEnd : Nat

namespace Cursor

/-- The start of a signature. -/
def ofBytes (data : List UInt8) : Cursor := ⟨data, [], 0, data, 0⟩

/-- The start of a signature given as text. -/
def ofText (text : List Char) : Cursor := ofBytes (Utf8.encode text)

/-- Whether the end of input has been looked at. -/
def sawEnd (c : Cursor) : Bool := c.buffer.getLast?.any Token.isEnd

/-- Passes over the gap in front of the bytes not read yet. -/
def skipGap (c : Cursor) : Cursor :=
  let (gap, rest) := splitGap false c.rest
  { c with offset := c.offset + gap.length, rest := rest }

/-- Reads up to `count` further tokens into the buffer, none after the end of input. What was read
before an error stays in the buffer, and the gap in front of the error has been passed. -/
def fill : Nat → Cursor → Except Error Unit × Cursor
  | 0, c => (.ok (), c)
  | count + 1, c =>
    if c.sawEnd then (.ok (), c)
    else match Token.read c.offset c.rest with
      | .error e => (.error e, c.skipGap)
      | .ok (t, rest) =>
        fill count { c with buffer := c.buffer ++ [t], offset := t.stop, rest := rest }

/-- The token `ahead` places after the next; past the end of input it is the end of input. -/
def peek (ahead : Nat) (c : Cursor) : Except Error Token × Cursor :=
  match fill (ahead + 1 - c.buffer.length) c with
  | (.error e, c) => (.error e, c)
  | (.ok (), c) =>
    (.ok ((c.buffer[ahead]?.or c.buffer.getLast?).getD (Token.eof c.offset)), c)

/-- Takes the next token; the end of input stays in place. -/
def advance (c : Cursor) : Except Error Token × Cursor :=
  match peek 0 c with
  | (.error e, c) => (.error e, c)
  | (.ok t, c) =>
    if t.isEnd then (.ok t, c)
    else (.ok t, { c with buffer := c.buffer.drop 1, lastEnd := t.stop })

/-- The text from a place to the end of the last token taken. -/
def textSince (start : Nat) (c : Cursor) : String :=
  Utf8.text ((c.data.take c.lastEnd).drop start)

instance : Supply Cursor where
  peek := peek
  advance := advance
  lastEnd := lastEnd
  textSince := textSince

/-- Runs a script from here. -/
def run {α : Type} (script : Script α) (c : Cursor) : Except Error α × Cursor :=
  script.run (Phrase.perform (budget c.data.length)) c

end Cursor

/-- Runs a script on a signature, for its answer alone. -/
def Script.answer {α : Type} (script : Script α) (data : List UInt8) : Except Error α :=
  ((Cursor.ofBytes data).run script).1

end TypeNotes.Signature
