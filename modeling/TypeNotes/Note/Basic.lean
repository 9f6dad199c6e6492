import TypeNotes.Note.Heading
import TypeNotes.Signature.Cursor

/-!
# Notes

A note is what an entry says about types: that a parameter has a type, that a method overrides
another, that a module is mixed into classes of a kind, and so on. Reading an entry never fails. A
note with a type that cannot be read carries the error, with its place in the file.

What may follow the signature of a note depends on its form. Notes that start with a name and a
colon allow any text there; all others allow only a remark after two dashes.
-/

namespace TypeNotes

open Ruby Signature

/-! ### The forms of notes -/

/-- A name with a type: the name, the byte of the file at which it starts, and the type, if it
could be read. -/
structure NamedType where
  name : List Char
  offset : Nat
  type : Option String
  deriving DecidableEq, Repr

/-- What a note says. -/
inductive Content
  | parameter (named : NamedType)
  | objectVariable (named : NamedType)
  | block (named : NamedType)
  | result (named : NamedType)
  | override
  | skip
  | inherits (superclass : Option String)
  | uses (clauses : List String)
  | moduleSelf (types : List String)
  | generic (parameter : Option TypeParameter)
  | moduleHead (head : Option String)
  | classHead (head : Option String)
  | tags (tags : List String)
  | methodType (tags types : List String)
  | embedded (declarations : Nat)
  | methodAssertion (type : String)
  | typeAssertion (type : String)
  | application (types : List String)
  /-- An assertion that is neither a method type nor a type. -/
  | unreadable
  deriving DecidableEq, Repr

/-- A note: the comments it is taken from, the text of its signature, the error in it if there is
one, and what it says. -/
structure Note where
  first : Comment
  more : List Comment
  signature : List Char
  error : Option Error
  content : Content
  deriving DecidableEq, Repr

namespace Note

/-- The comments that a note is taken from. -/
def comments (n : Note) : List Comment := n.first :: n.more

/-- The last comment that a note is taken from. -/
def last (n : Note) : Comment := n.more.getLastD n.first

/-- The name and type of a note that has them. -/
def named? (n : Note) : Option NamedType :=
  match n.content with
  | .parameter named | .objectVariable named | .block named | .result named => some named
  | _ => none

end Note

/-! ### Reading signatures -/

/-- Accepts what follows a signature: nothing, a remark after two dashes, or any tokens if
`lenient`. -/
def acceptTrailing (lenient : Bool) (c : Cursor) : Except Error Unit :=
  match (Cursor.peek 0 c).1 with
  | .error e => .error e
  | .ok t =>
    if t.isEnd || lenient then .ok ()
    else if t.kind == .mark "-" && (c.data.drop t.start).take 2 == [byte '-', byte '-'] then .ok ()
    else .error (t.unexpected "end of input")

/-- Reads a text as one signature, with what may follow it. -/
def readSignature {α : Type} (script : Script α) (lenient : Bool) (text : List Char) :
    Except Error α :=
  match (Cursor.ofText text).run script with
  | (.error e, _) => .error e
  | (.ok a, c) => (acceptTrailing lenient c).map fun _ => a

/-- The answer, if there is one. -/
def answer? {α : Type} : Except Error α → Option α
  | .ok a => some a
  | .error _ => none

/-- The error, if there is one. -/
def error? {α : Type} : Except Error α → Option Error
  | .ok _ => none
  | .error e => some e

namespace Entry

/-- The note of an entry. -/
def note (e : Entry) (signature : List Char) (error : Option Error) (content : Content) : Note :=
  ⟨e.first.comment, e.more.map (·.comment), signature, error.map e.relocate, content⟩

/-- The note of a name, whose type is read from the text after the heading. -/
def namedNote (e : Entry) (h : Heading) (script : Script String)
    (content : NamedType → Content) : Note :=
  let outcome := readSignature script true (e.blankedTo h.stop)
  e.note (Text.trim (e.text.drop h.stop)) (error? outcome)
    (content ⟨h.name, e.fileOffsetOfCharacter h.start, answer? outcome⟩)

/-- The note of a keyword, whose argument is read from the text after it. -/
def keywordNote {α : Type} (e : Entry) (h : Heading) (script : Script α)
    (content : Option α → Content) : Note :=
  let outcome := readSignature script false (e.blankedTo h.stop)
  e.note (Text.trim (e.text.drop h.stop)) (error? outcome) (content (answer? outcome))

/-- What the name of a parameter's note is about: the result, if it is `return`. -/
def contentOfName (named : NamedType) : Content :=
  if named.name == "return".toList then .result named else .parameter named

/-- Reads a name with a colon: a variable, a block, a splat, or any other parameter. -/
def readNamed? (e : Entry) : Option Note :=
  let s := e.text
  let asVariable := (Heading.withColon? variableName s).map
    (e.namedNote · Grammar.type .objectVariable)
  let asBlock := (Heading.withColon? blockName s).map
    (e.namedNote · Grammar.blockSignature .block)
  let asSplat := (Heading.withColon? splatName s).map
    (e.namedNote · Grammar.type .parameter)
  let asParameter := (Heading.withColon? parameterName s).map
    (e.namedNote · Grammar.type contentOfName)
  asVariable <|> asBlock <|> asSplat <|> asParameter

/-- Reads a word that says all there is to say. -/
def readLone? (e : Entry) : Option Note :=
  let signature := Text.trim e.text
  if isLoneWord "override" e.text then some (e.note signature none .override)
  else if isLoneWord "skip" e.text then some (e.note signature none .skip)
  else none

/-- Reads a keyword and its argument. -/
def readKeyword? (e : Entry) : Option Note :=
  let h := Heading.firstWord e.text
  match String.ofList h.name with
  | "inherits" => some (e.keywordNote h Grammar.classReference .inherits)
  | "use" => some (e.keywordNote h Grammar.useClauses fun l => .uses (l.getD []))
  | "module-self" => some (e.keywordNote h Grammar.selfTypes fun l => .moduleSelf (l.getD []))
  | "generic" => some (e.keywordNote h (Grammar.typeParameter true) .generic)
  | "module" => some (e.keywordNote h Grammar.moduleHead .moduleHead)
  | "class" => some (e.keywordNote h Grammar.classHead .classHead)
  | _ => none

/-- Tags, and the method types after them if anything follows. -/
def taggedMethodTypes : Script (List String × Option (List String)) := do
  let tags ← Script.call .tags
  if ← Script.atEnd then return (tags, none)
  else
    let types ← Script.call .methodTypes
    return (tags, some types)

/-- Reads tags alone or method types. -/
def readMethodType? (e : Entry) : Option Note :=
  if startsMethodType e.text then
    let signature := Text.trim e.text
    some (match readSignature taggedMethodTypes false e.text with
      | .error error => e.note signature (some error) (.methodType [] [])
      | .ok (tags, none) => e.note signature none (.tags tags)
      | .ok (tags, some types) => e.note signature none (.methodType tags types))
  else none

/-- Reads a name without a colon; no type is read after it. -/
def readBare? (e : Entry) : Option Note :=
  (Heading.bare? e.text).map fun h =>
    e.note (Text.trim (e.text.drop h.stop)) none
      (contentOfName ⟨h.name, e.fileOffsetOfCharacter h.start, none⟩)

/-- Reads an entry after the marker `@rbs`; text of no known form is no note. -/
def readMarked? (e : Entry) : Option Note :=
  e.readNamed? <|> e.readLone? <|> e.readKeyword? <|> e.readMethodType? <|> e.readBare?

/-- Reads an assertion: a method type, or else a type. If it is neither, the error that lies
further on is kept, and that of the method type if they lie at the same place. -/
def readAssertion (e : Entry) : Note :=
  let signature := Text.trim e.text
  match readSignature Grammar.methodType false e.text with
  | .ok type => e.note signature none (.methodAssertion type)
  | .error methodError =>
    match readSignature Grammar.type false e.text with
    | .ok type => e.note signature none (.typeAssertion type)
    | .error typeError =>
      let error :=
        if (e.relocate typeError).offset ≤ (e.relocate methodError).offset then methodError
        else typeError
      e.note signature (some error) .unreadable

/-- Reads an entry. -/
def read? (e : Entry) : Option Note :=
  match e.kind with
  | .marked => e.readMarked?
  | .embedded =>
    let outcome := readSignature Grammar.declarations false e.text
    some (e.note (Text.trim e.text) (error? outcome) (.embedded ((answer? outcome).getD 0)))
  | .assertion => some e.readAssertion
  | .application =>
    let outcome := readSignature Grammar.typeList false e.text
    some (e.note (Text.trim e.text) (error? outcome) (.application ((answer? outcome).getD [])))

end Entry

/-! ### Notes of a file -/

/-- The notes in a block of comments. -/
def CommentBlock.notes (b : CommentBlock) : List Note := b.entries.filterMap Entry.read?

/-- The notes of a block that have an error. -/
def CommentBlock.faultyNotes (b : CommentBlock) : List Note := b.notes.filter (·.error.isSome)

/-- The blocks of comments of a file. -/
def Ruby.Source.blocks (s : Source) : List CommentBlock := CommentBlock.group s.comments

/-- The block that ends directly above a line. -/
def leadingBlock? (blocks : List CommentBlock) (line : Nat) : Option CommentBlock :=
  blocks.find? fun b => b.isLeading && b.lastLine + 1 == line

end TypeNotes
