/-!
# YAML tokens and places

The tokens of a YAML text, and the place of a reader in it. Besides the marks that are written in
the text there are tokens for what indentation means: where a block sequence or mapping starts and
where it ends, and where the key of a mapping starts.
-/

namespace TypeNotes.Yaml

/-- A token of a YAML text. -/
inductive Token
  | documentStart
  | documentEnd
  | blockSequence
  | blockMapping
  | blockEnd
  | openSequence
  | closeSequence
  | openMapping
  | closeMapping
  /-- A dash in front of an item. -/
  | dash
  | comma
  /-- What follows is a key. -/
  | key
  /-- What follows is the value for a key. -/
  | value
  /-- A text; a plain one is not quoted and may stand for something else than a text. -/
  | scalar (text : List Char) (plain : Bool)
  deriving DecidableEq, Repr

/-! ### Characters -/

/-- Whether a character may stand in a YAML text at all. -/
def isAllowed (c : Char) : Bool :=
  let n := c.toNat
  n == 9 || n == 10 || n == 13 || (0x20 ≤ n && n ≤ 0x7E) || n == 0x85 ||
    (0xA0 ≤ n && n ≤ 0xFFFD) || 0x10000 ≤ n

/-- Characters that end a line. -/
def isBreak (c : Char) : Bool :=
  c == '\n' || c == '\r' || c == '\x85' || c == '\u2028' || c == '\u2029'

/-- Characters between words: blanks, tabs and line ends. -/
def isSeparator (c : Char) : Bool := c == ' ' || c == '\t' || isBreak c

/-- Whether a separator or the end of the text stands here. -/
def atSeparator (s : List Char) : Bool := s.head?.all isSeparator

/-! ### Places -/

/-- A place in a text: what follows, and how far it is from the start. -/
structure Place where
  rest : List Char
  index : Nat
  line : Nat
  column : Nat

/-- The place one character further on. A byte order mark takes no column. -/
def Place.next (p : Place) : Place :=
  match p.rest with
  | [] => p
  | c :: rest =>
    if isBreak c && !(c == '\r' && rest.head? == some '\n') then ⟨rest, p.index + 1, p.line + 1, 0⟩
    else ⟨rest, p.index + 1, p.line, if c == '\uFEFF' then p.column else p.column + 1⟩

/-- The place some characters further on. -/
def Place.advance : Nat → Place → Place
  | 0, p => p
  | n + 1, p => advance n p.next

end TypeNotes.Yaml
