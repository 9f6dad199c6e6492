import TypeNotes.Yaml.Scalar
import TypeNotes.Yaml.Scanner

/-!
# From YAML tokens to values

A text holds one document, which may be empty. What is left out in a document stands for nothing:
the value of a key, a key in front of a value, an item after its dash. A list or mapping cannot be
a key.
-/

namespace TypeNotes.Yaml

/-- Whether the tokens start with one of these. -/
def startsWith (marks : List Token) (tokens : List Token) : Bool := tokens.head?.any marks.contains

/-- Puts a field in front of others, if its key can be one. -/
def consField? (key value : Value) (more : List (Value × Value)) : Option (List (Value × Value)) :=
  if key.isKey then some ((key, value) :: more) else none

mutual

/-- Reads a value. Block collections are read only outside of brackets, and a sequence without
indentation of its own only below a key. -/
def node (fuel : Nat) (block indentless : Bool) (tokens : List Token) :
    Option (Value × List Token) :=
  match fuel with
  | 0 => none
  | fuel + 1 =>
    match tokens with
    | .scalar text plain :: rest =>
      (if plain then resolve? text else some (.str (String.ofList text))).map (·, rest)
    | .openSequence :: rest => (flowItems fuel true rest).map fun (l, rest) => (.list l, rest)
    | .openMapping :: rest =>
      (flowFields fuel true rest).map fun (l, rest) => (.ofFields l, rest)
    | .blockSequence :: rest =>
      if block then (blockItems fuel rest).map fun (l, rest) => (.list l, rest) else none
    | .blockMapping :: rest =>
      if block then (blockFields fuel rest).map fun (l, rest) => (.ofFields l, rest) else none
    | .dash :: _ =>
      if indentless then (indentlessItems fuel tokens).map fun (l, rest) => (.list l, rest)
      else none
    | _ => none

/-- Reads a value, or nothing in front of some tokens. -/
def nodeUnless (fuel : Nat) (marks : List Token) (block indentless : Bool) (tokens : List Token) :
    Option (Value × List Token) :=
  match fuel with
  | 0 => none
  | fuel + 1 =>
    if startsWith marks tokens then some (.null, tokens) else node fuel block indentless tokens

/-- Reads the items of a block sequence, to its end. -/
def blockItems (fuel : Nat) (tokens : List Token) : Option (List Value × List Token) :=
  match fuel with
  | 0 => none
  | fuel + 1 =>
    match tokens with
    | .dash :: rest => do
      let (first, rest) ← nodeUnless fuel [.dash, .blockEnd] true false rest
      let (more, rest) ← blockItems fuel rest
      return (first :: more, rest)
    | .blockEnd :: rest => some ([], rest)
    | _ => none

/-- Reads the items of a sequence that is indented like the mapping around it. -/
def indentlessItems (fuel : Nat) (tokens : List Token) : Option (List Value × List Token) :=
  match fuel with
  | 0 => none
  | fuel + 1 =>
    match tokens with
    | .dash :: rest => do
      let (first, rest) ← nodeUnless fuel [.dash, .key, .value, .blockEnd] true false rest
      let (more, rest) ← indentlessItems fuel rest
      return (first :: more, rest)
    | _ => some ([], tokens)

/-- Reads the fields of a block mapping, to its end. -/
def blockFields (fuel : Nat) (tokens : List Token) :
    Option (List (Value × Value) × List Token) :=
  match fuel with
  | 0 => none
  | fuel + 1 =>
    match tokens with
    | .key :: rest => do
      let (key, rest) ← nodeUnless fuel [.key, .value, .blockEnd] true true rest
      let (value, rest) ← match rest with
        | .value :: rest => nodeUnless fuel [.key, .value, .blockEnd] true true rest
        | _ => some (.null, rest)
      let (more, rest) ← blockFields fuel rest
      return (← consField? key value more, rest)
    | .blockEnd :: rest => some ([], rest)
    | _ => none

/-- Reads the items of a flow sequence, to its closing bracket. An item may be a single field. -/
def flowItems (fuel : Nat) (first : Bool) (tokens : List Token) :
    Option (List Value × List Token) :=
  match fuel with
  | 0 => none
  | fuel + 1 => do
    let tokens ← match tokens with
      | .comma :: rest => if first then none else some rest
      | .closeSequence :: _ => some tokens
      | _ => if first then some tokens else none
    match tokens with
    | .closeSequence :: rest => return ([], rest)
    | .key :: rest =>
      let (key, rest) ← nodeUnless fuel [.value, .comma, .closeSequence] false false rest
      let (value, rest) ← match rest with
        | .value :: rest => nodeUnless fuel [.comma, .closeSequence] false false rest
        | _ => some (.null, rest)
      let field ← consField? key value []
      let (more, rest) ← flowItems fuel false rest
      return (.map field :: more, rest)
    | _ =>
      let (item, rest) ← node fuel false false tokens
      let (more, rest) ← flowItems fuel false rest
      return (item :: more, rest)

/-- Reads the fields of a flow mapping, to its closing bracket. A key may stand alone. -/
def flowFields (fuel : Nat) (first : Bool) (tokens : List Token) :
    Option (List (Value × Value) × List Token) :=
  match fuel with
  | 0 => none
  | fuel + 1 => do
    let tokens ← match tokens with
      | .comma :: rest => if first then none else some rest
      | .closeMapping :: _ => some tokens
      | _ => if first then some tokens else none
    match tokens with
    | .closeMapping :: rest => return ([], rest)
    | .key :: rest =>
      let (key, rest) ← nodeUnless fuel [.value, .comma, .closeMapping] false false rest
      let (value, rest) ← match rest with
        | .value :: rest => nodeUnless fuel [.comma, .closeMapping] false false rest
        | _ => some (.null, rest)
      let (more, rest) ← flowFields fuel false rest
      return (← consField? key value more, rest)
    | _ =>
      let (key, rest) ← node fuel false false tokens
      let (more, rest) ← flowFields fuel false rest
      return (← consField? key .null more, rest)

end

/-- Reads the one document of a text. -/
def document? (tokens : List Token) : Option Value := do
  let fuel := 3 * tokens.length + 3
  let (value, rest) ← match tokens with
    | [] => some (.null, [])
    | .documentStart :: rest =>
      if rest.isEmpty || startsWith [.documentStart, .documentEnd] rest then some (.null, rest)
      else node fuel true false rest
    | _ => node fuel true false tokens
  if (rest.dropWhile (· == .documentEnd)).isEmpty then some value else none

/-- The value of a YAML text. -/
def parse? (text : List Char) : Option Value := (tokens? text).bind document?

end TypeNotes.Yaml
