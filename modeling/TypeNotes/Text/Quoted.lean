import TypeNotes.Unicode.Printable

/-!
# Quotations

A text is quoted so that it shows on one line and every character in it can be told: printable
characters stand for themselves, a backslash and the quotation mark are escaped, and anything else
is written as a code. Single quotation marks are used unless the text holds one and no double one.
-/

namespace TypeNotes.Text

/-- The last `width` hexadecimal digits of a number, in lower case. -/
def hexDigits : Nat → Nat → List Char
  | 0, _ => []
  | width + 1, n => hexDigits width (n / 16) ++ [Nat.digitChar (n % 16)]

/-- A character inside a quotation with the mark `mark`. -/
def escape (mark c : Char) : List Char :=
  if c == mark || c == '\\' then ['\\', c]
  else if c == '\n' then ['\\', 'n']
  else if c == '\r' then ['\\', 'r']
  else if c == '\t' then ['\\', 't']
  else if Unicode.isPrintable c then [c]
  else if c.toNat < 0x100 then '\\' :: 'x' :: hexDigits 2 c.toNat
  else if c.toNat < 0x10000 then '\\' :: 'u' :: hexDigits 4 c.toNat
  else '\\' :: 'U' :: hexDigits 8 c.toNat

/-- The quotation mark for a text. -/
def quotationMark (text : List Char) : Char :=
  if text.contains '\'' && !text.contains '"' then '"' else '\''

/-- A text between quotation marks. -/
def quoted (text : List Char) : List Char :=
  let mark := quotationMark text
  mark :: text.flatMap (escape mark) ++ [mark]

/-- A string between quotation marks. -/
def quote (s : String) : String :=
  String.ofList (quoted s.toList)

end TypeNotes.Text
