import TypeNotes.Ruby.Frame

/-!
# Method parameters

The parameter list of a method is split at its top-level commas, and each part is classified by its
shape. A destructuring pattern in parentheses contributes the names in it, in order, as required
parameters. Parts of no known shape are passed over.
-/

namespace TypeNotes.Ruby

open Unicode

/-- A parameter of a method. The names of a splat, a double splat and a block may be left out. -/
inductive Parameter
  | required (name : List Char)
  | optional (name : List Char)
  | rest (name : Option (List Char))
  | keyword (name : List Char)
  | optionalKeyword (name : List Char)
  | keywordRest (name : Option (List Char))
  | block (name : Option (List Char))
  /-- Three dots: all arguments of the call, handed on. -/
  | forward
  deriving DecidableEq, Repr

namespace Parameter

/-- The name of a parameter, if it has one; three dots are their own name. -/
def name? : Parameter → Option (List Char)
  | required name | optional name | keyword name | optionalKeyword name => some name
  | rest name | keywordRest name | block name => name
  | forward => some ['.', '.', '.']

/-- The word for the kind of a parameter. -/
def kindName : Parameter → String
  | required _ => "required"
  | optional _ => "optional"
  | rest _ => "rest"
  | keyword _ => "keyword"
  | optionalKeyword _ => "optional_keyword"
  | keywordRest _ => "keyword_rest"
  | block _ => "block"
  | forward => "forward"

/-- The names by which a note may refer to a parameter. -/
def matchableNames : Parameter → List (List Char)
  | rest (some name) => ['*' :: name, ['*']]
  | rest none => [['*']]
  | keywordRest (some name) => ['*' :: '*' :: name, ['*', '*']]
  | keywordRest none => [['*', '*']]
  | block (some name) => [['&'], '&' :: name]
  | block none => [['&'], "&block".toList]
  | forward => [['*'], ['*', '*'], ['&']]
  | required name | optional name | keyword name | optionalKeyword name => [name]

/-- The name that a parameter inside a destructuring pattern binds. -/
def boundName? : Parameter → Option (List Char)
  | forward => none
  | p => p.name?

end Parameter

/-! ### Splitting at commas -/

/-- Splits a text at the commas outside of all brackets, `depth` brackets being open at its start;
a bracket closed too much counts against the next one opened. -/
def splitTopLevel (depth : Int) : List Char → List (List Char)
  | [] => [[]]
  | c :: rest =>
    let depth :=
      if c == '(' || c == '[' || c == '\x7b' then depth + 1
      else if c == ')' || c == ']' || c == '\x7d' then depth - 1
      else depth
    if c == ',' && depth == 0 then [] :: splitTopLevel depth rest
    else match splitTopLevel depth rest with
      | [] => [[c]]
      | part :: more => (c :: part) :: more

/-- The parts of a parameter list, with white space squeezed. -/
def parameterParts (s : List Char) : List (List Char) :=
  (splitTopLevel 0 (Text.squeeze s)).map Text.trim

theorem length_le_of_mem_splitTopLevel {depth : Int} {s part : List Char}
    (h : part ∈ splitTopLevel depth s) : part.length ≤ s.length := by
  induction s generalizing depth part with
  | nil => simp_all [splitTopLevel]
  | cons c rest ih =>
    simp only [splitTopLevel] at h
    generalize (if c == '(' || c == '[' || c == '\x7b' then depth + 1
      else if c == ')' || c == ']' || c == '\x7d' then depth - 1 else depth) = d at h
    split at h
    · rcases List.mem_cons.1 h with rfl | h
      · simp
      · have := ih h
        simp only [List.length_cons]
        omega
    · split at h
      · simp_all
      · rename_i head more heq
        rcases List.mem_cons.1 h with rfl | h
        · have := ih (heq ▸ List.mem_cons_self : head ∈ splitTopLevel d rest)
          simpa using this
        · have := ih (heq ▸ List.mem_cons_of_mem _ h)
          simp only [List.length_cons]
          omega

theorem length_le_of_mem_parameterParts {s part : List Char} (h : part ∈ parameterParts s) :
    part.length ≤ s.length := by
  obtain ⟨whole, hwhole, rfl⟩ := List.mem_map.1 h
  exact Nat.le_trans (Text.length_trim_le whole)
    (Nat.le_trans (length_le_of_mem_splitTopLevel hwhole) (Text.length_squeeze_le s))

/-! ### Classification -/

/-- A text, unless it is empty. -/
def nonEmpty? (s : List Char) : Option (List Char) := if s.isEmpty then none else some s

/-- The name at the front of a text, and what follows it after white space. -/
def leadingName? (s : List Char) : Option (List Char × List Char) :=
  match s with
  | [] => none
  | c :: rest =>
    if isNameStart c then some (c :: rest.takeWhile isWord, Text.trimLeft (rest.dropWhile isWord))
    else none

/-- Classifies a part that starts with a name: a single colon makes a keyword, which is optional if
anything follows, an equals sign an optional parameter, and a name alone is a required one. -/
def namedParameter? (part : List Char) : Option Parameter :=
  match leadingName? part with
  | none => none
  | some (_, ':' :: ':' :: _) => none
  | some (name, ':' :: default) =>
    some (if Text.isBlank default then .keyword name else .optionalKeyword name)
  | some (name, '=' :: _) => some (.optional name)
  | some (name, []) => if part == name then some (.required name) else none
  | some _ => none

/-- The shapes of parts that do not contain other parameters. -/
def simpleParameter? (part : List Char) : Option Parameter :=
  if part == ['.', '.', '.'] then some .forward
  else match part with
    | '&' :: name => some (.block (nonEmpty? (Text.trim name)))
    | '*' :: '*' :: name =>
      let name := Text.trim name
      if name == "nil".toList then none else some (.keywordRest (nonEmpty? name))
    | '*' :: name => some (.rest (nonEmpty? (Text.trim name)))
    | _ => namedParameter? part

/-- The inside of a part in parentheses. -/
def destructured? (part : List Char) : Option (List Char) :=
  match part with
  | '(' :: inside => if inside.getLast? == some ')' then some inside.dropLast else none
  | _ => none

theorem length_lt_of_destructured? {part inside : List Char}
    (h : destructured? part = some inside) : inside.length < part.length := by
  unfold destructured? at h
  split at h
  · split at h
    · cases h
      simp only [List.length_dropLast, List.length_cons]
      omega
    · cases h
  · cases h

/-- The parameters of a method, from the text between its parentheses. -/
def parseParameters (s : List Char) : List Parameter :=
  (parameterParts s).attach.flatMap fun ⟨part, _hpart⟩ =>
    match _hinside : destructured? part with
    | some inside => ((parseParameters inside).filterMap Parameter.boundName?).map .required
    | none => (simpleParameter? part).toList
termination_by s.length
decreasing_by
  exact Nat.lt_of_lt_of_le (length_lt_of_destructured? _hinside)
    (length_le_of_mem_parameterParts _hpart)

end TypeNotes.Ruby
