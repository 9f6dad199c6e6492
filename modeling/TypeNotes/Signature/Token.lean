import TypeNotes.Signature.Pattern
import TypeNotes.Text.Quoted
import TypeNotes.Utf8

/-!
# Tokens of a signature

A signature is a byte string. Reading it gives tokens with *gaps* between them; a gap is made of
blanks and of comments that run from `#` to the end of their line. `Token.read` delivers the next
token and the bytes after it, or the error that stands in its place. Positions count bytes from the
start of the signature.
-/

namespace TypeNotes.Signature

/-! ### Kinds -/

/-- The words that are not free to be names. -/
def keywords : List String :=
  ["alias", "attr_accessor", "attr_reader", "attr_writer", "bool", "boolish", "bot", "class",
   "def", "end", "extend", "false", "in", "include", "instance", "interface", "module", "nil",
   "out", "prepend", "private", "public", "self", "singleton", "top", "true", "type",
   "unchecked", "untyped", "use", "void"]

/-- The kinds of tokens. -/
inductive Kind
  /-- A tag such as `%a{pure}`. -/
  | tag
  /-- An operator of several characters that can name a method. -/
  | operator
  /-- A lower-case name with a colon behind it. -/
  | lowerKey
  /-- An upper-case name with a colon behind it. -/
  | upperKey
  | symbol
  | instanceVariable
  | globalVariable
  | interfaceName
  | upperName
  | lowerName
  | integer
  | string
  | endOfInput
  /-- One of the reserved words. -/
  | keyword (word : String)
  /-- A punctuation mark. -/
  | mark (text : String)
  deriving DecidableEq, Repr

namespace Kind

/-- The kinds that have a name of their own, not that of their text. -/
def named : List (Kind × String) :=
  [(tag, "ANNOTATION"), (operator, "OP"), (lowerKey, "LKEYWORD"), (upperKey, "UKEYWORD"),
   (symbol, "SYMBOL"), (instanceVariable, "IVAR"), (globalVariable, "GLOBAL"),
   (interfaceName, "INTERFACE"), (upperName, "UIDENT"), (lowerName, "LIDENT"),
   (integer, "INTEGER"), (string, "STRING"), (endOfInput, "EOF")]

/-- The name of a kind. -/
def name : Kind → String
  | keyword word => word
  | mark text => text
  | kind => (named.lookup kind).getD ""

/-- The kind with a name. -/
def ofName (s : String) : Kind :=
  match named.find? (·.2 == s) with
  | some (kind, _) => kind
  | none => if keywords.contains s then keyword s else mark s

/-- The kind of a lower-case word. -/
def ofWord (s : String) : Kind :=
  if keywords.contains s then keyword s else lowerName

/-- The keywords that are types by themselves. -/
def baseTypes : List String :=
  ["bool", "boolish", "bot", "class", "instance", "nil", "self", "top", "untyped", "void"]

/-- Whether a token of this kind is a base type. -/
def isBaseType : Kind → Bool
  | keyword word => baseTypes.contains word
  | _ => false

/-- Whether a token of this kind is a literal. -/
def isLiteral : Kind → Bool
  | integer | string | symbol => true
  | keyword word => word == "true" || word == "false"
  | _ => false

/-- Whether a token of this kind can end the name of a type. -/
def isName : Kind → Bool
  | upperName | lowerName | interfaceName => true
  | _ => false

/-- Whether a token of this kind is a key of a keyword argument or of a record. -/
def isKey : Kind → Bool
  | lowerKey | upperKey => true
  | _ => false

/-- Whether a token of this kind is a keyword. -/
def isKeyword : Kind → Bool
  | keyword _ => true
  | _ => false

/-- Whether a token of this kind is the name of a method by itself. -/
def isOperatorName : Kind → Bool
  | operator => true
  | mark text =>
    ["+", "-", "*", "/", "%", "<", ">", "!", "~", "^", "&", "|", "**"].contains text
  | _ => false

end Kind

/-! ### Spelling -/

/-- How one group of tokens is spelled, and the kind that a lexeme of the group has. -/
structure Spelling where
  kind : String → Kind
  pattern : Pattern

namespace Spelling

open Pattern

/-- A mark of several characters. -/
def ofMark (s : String) : Spelling := ⟨.mark, .text s⟩

/-- Tags in each of the five styles of brackets. -/
def tag : Spelling where
  kind _ := .tag
  pattern := text "%a" >>
    ((text "\x7b" >> upTo '}') <|> (text "(" >> upTo ')') <|> (text "[" >> upTo ']') <|>
      (text "<" >> upTo '>') <|> (text "|" >> upTo '|'))

/-- Operators of several characters; those with `@` are the unary ones. -/
def operator : Spelling where
  kind _ := .operator
  pattern := text "<=>" <|> text "===" <|> text "==" <|> text "=~" <|> text "!=" <|> text "!~" <|>
    text "<=" <|> text ">=" <|> text "<<" <|> text ">>" <|> (oneOf "+-!" >> text "@")

/-- A colon that is not the first half of a double one. -/
def colon : Pattern := text ":" >> notBefore (byte ':')

def lowerKey : Spelling where
  kind _ := .lowerKey
  pattern := name isLowerStart >> optional (oneOf "?!") >> colon

def upperKey : Spelling where
  kind _ := .upperKey
  pattern := name isUpper >> colon

def symbol : Spelling where
  kind _ := .symbol
  pattern := text ":" >> ((name isNameStart >> optional (oneOf "?!=")) <|> quoted)

def instanceVariable : Spelling where
  kind _ := .instanceVariable
  pattern := text "@" >> optional (text "@") >> name isNameStart

def globalVariable : Spelling where
  kind _ := .globalVariable
  pattern := text "$" >> name isNameStart

def interfaceName : Spelling where
  kind _ := .interfaceName
  pattern := text "_" >> name isUpper

def upperName : Spelling where
  kind _ := .upperName
  pattern := name isUpper

/-- Lower-case names, among them the keywords. -/
def lowerName : Spelling where
  kind := .ofWord
  pattern := name isLowerStart

def integer : Spelling where
  kind _ := .integer
  pattern := optional (text "-") >> one isDigit >> many fun b => isDigit b || b == byte '_'

def string : Spelling where
  kind _ := .string
  pattern := quoted

/-- Marks of one character. -/
def mark : Spelling where
  kind := .mark
  pattern := oneOf "()[]\x7b\x7d,|&^?*:<>=.!+-/%~"

/-- All spellings, in the order in which they are tried. -/
def all : List Spelling :=
  [tag, operator, ofMark "->", ofMark "=>", ofMark "::", ofMark "**", ofMark "...", lowerKey,
   upperKey, symbol, instanceVariable, globalVariable, interfaceName, upperName, lowerName,
   integer, string, mark]

end Spelling

/-- Cuts the first lexeme off a byte string that starts with no gap, and says how it is spelled. -/
def splitLexeme (s : List UInt8) : Option (Spelling × List UInt8 × List UInt8) :=
  Spelling.all.findSome? fun spelling => (spelling.pattern.split s).map fun parts =>
    (spelling, parts)

/-- `splitLexeme` gives two parts that make up the byte string, and a lexeme is not empty. -/
theorem splitLexeme_spec {s : List UInt8} {spelling : Spelling} {lexeme rest : List UInt8}
    (h : splitLexeme s = some (spelling, lexeme, rest)) : s = lexeme ++ rest ∧ lexeme ≠ [] := by
  obtain ⟨spelling', hmem, hsplit⟩ := List.exists_of_findSome?_eq_some h
  obtain ⟨parts, hparts, heq⟩ := Option.map_eq_some_iff.1 hsplit
  cases heq
  have hall : Spelling.all.all (·.pattern.takesByte) = true := by decide
  exact ⟨Pattern.eq_append_of_split hparts,
    Pattern.ne_nil_of_split (List.all_eq_true.1 hall _ hmem) hparts⟩

/-- Cuts the gap off the front of a byte string. Inside a comment every byte belongs to the gap up
to the line end, which is a blank itself. -/
def splitGap (inComment : Bool) : List UInt8 → List UInt8 × List UInt8
  | [] => ([], [])
  | b :: rest =>
    if inComment then
      let parts := splitGap (b != byte '\n') rest
      (b :: parts.1, parts.2)
    else if isBlank b || b == byte '#' then
      let parts := splitGap (b == byte '#') rest
      (b :: parts.1, parts.2)
    else ([], b :: rest)

/-- `splitGap` gives two parts that make up the byte string. -/
theorem splitGap_append (inComment : Bool) (s : List UInt8) :
    (splitGap inComment s).1 ++ (splitGap inComment s).2 = s := by
  induction s generalizing inComment with
  | nil => rfl
  | cons b rest ih => grind [splitGap]

/-- Behind a gap of `splitGap` there is no further one. -/
theorem splitGap_splitGap (inComment : Bool) (s : List UInt8) :
    splitGap false (splitGap inComment s).2 = ([], (splitGap inComment s).2) := by
  induction s generalizing inComment with
  | nil => rfl
  | cons b rest ih => grind [splitGap]

/-! ### Errors -/

/-- What is wrong at a place of a signature. -/
inductive Cause
  /-- The signature ends where something else has to stand. -/
  | unexpectedEnd (expected : String)
  /-- A token stands where something else has to. -/
  | unexpectedToken (found expected : String)
  /-- A quotation mark that starts no string. -/
  | unterminatedString
  /-- A character that starts no token. -/
  | unexpectedCharacter (c : Char)
  /-- The budget for nested phrases is used up. -/
  | tooDeep
  deriving DecidableEq, Repr

/-- The words for a cause. -/
def Cause.message : Cause → String
  | unexpectedEnd expected => s!"unexpected end of input, expected {expected}"
  | unexpectedToken found expected => s!"unexpected token `{found}`, expected {expected}"
  | unterminatedString => "unterminated string literal"
  | unexpectedCharacter c => "unexpected character " ++ Text.quote (String.singleton c)
  | tooDeep => "nesting too deep"

/-- An error in a signature: what is wrong, and the bytes at which it shows. -/
structure Error where
  cause : Cause
  offset : Nat
  length : Nat
  deriving DecidableEq, Repr

/-- The words for an error. -/
def Error.message (e : Error) : String := e.cause.message

/-! ### Tokens -/

/-- A token: its kind, its text, and the bytes it takes. -/
structure Token where
  kind : Kind
  text : String
  start : Nat
  stop : Nat
  deriving DecidableEq, Repr

namespace Token

/-- The token that stands for the end of the signature. -/
def eof (offset : Nat) : Token := ⟨.endOfInput, "", offset, offset⟩

/-- Whether this is the end of the signature. -/
def isEnd (t : Token) : Bool := t.kind == .endOfInput

/-- The error that this token is when something else is expected. -/
def unexpected (t : Token) (expected : String) : Error :=
  if t.isEnd then ⟨.unexpectedEnd expected, t.start, 0⟩
  else ⟨.unexpectedToken t.text expected, t.start, t.stop - t.start⟩

/-- The first character of a non-empty byte string. -/
def firstCharacter (b : UInt8) (rest : List UInt8) : Char :=
  match (Utf8.readOne b rest).item with
  | .ok c => c
  | .error _ => Utf8.replacement

/-- Reads the token after the gap at the front of `s`, which is `offset` bytes into the
signature. -/
def read (offset : Nat) (s : List UInt8) : Except Error (Token × List UInt8) :=
  let (gap, s) := splitGap false s
  let start := offset + gap.length
  match s with
  | [] => .ok (eof start, [])
  | b :: rest =>
    match splitLexeme (b :: rest) with
    | some (spelling, lexeme, rest) =>
      let text := Utf8.text lexeme
      .ok (⟨spelling.kind text, text, start, start + lexeme.length⟩, rest)
    | none =>
      if b == byte '"' || b == byte '\'' then
        .error ⟨.unterminatedString, start, rest.length + 1⟩
      else .error ⟨.unexpectedCharacter (firstCharacter b rest), start, 1⟩

/-- The gap in front of a token may have been passed before. -/
theorem read_splitGap (offset : Nat) (s : List UInt8) :
    read (offset + (splitGap false s).1.length) (splitGap false s).2 = read offset s := by
  rw [read, read, splitGap_splitGap]
  rfl

/-- Every token but the end of input takes at least one byte. -/
theorem length_rest_lt_of_read {offset : Nat} {s rest : List UInt8} {t : Token}
    (h : read offset s = .ok (t, rest)) (ht : t.isEnd = false) : rest.length < s.length := by
  have hgap := congrArg List.length (splitGap_append false s)
  simp only [List.length_append] at hgap
  unfold read at h
  split at h
  rename_i gap tail hsplit
  simp only [hsplit] at hgap
  split at h
  · cases h
    simp [isEnd, eof] at ht
  · split at h
    · rename_i hlexeme
      obtain ⟨heq, hne⟩ := splitLexeme_spec hlexeme
      have := congrArg List.length heq
      have := List.length_pos_iff.2 hne
      cases h
      simp only [List.length_append] at *
      omega
    · split at h <;> cases h

end Token

end TypeNotes.Signature
