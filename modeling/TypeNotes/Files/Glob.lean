import TypeNotes.Files.Tree
import TypeNotes.Text.Basic

/-!
# Globs

A glob is a path in which components may be patterns: a star stands for any characters, a question
mark for one, and brackets for one out of a set. A component that is two stars stands for any chain
of directories, also an empty one, and as the last component for everything below. Names that start
with a dot are matched only by patterns that do.
-/

namespace TypeNotes.Glob

/-! ### Patterns for names -/

/-- A set of characters in brackets. The parts stand between the hyphens that make ranges, so a
range goes from the last character of one part to the first of the next. -/
structure CharSet where
  negated : Bool
  parts : List (List Char)
  deriving DecidableEq, Repr

/-- An item of a pattern. -/
inductive Item
  | anything
  | one
  | exactly (c : Char)
  | among (set : CharSet)
  deriving DecidableEq, Repr

namespace CharSet

/-- Splits what stands in brackets at the hyphens that make ranges, of which the first cannot be
among the first `lead` characters. The character behind such a hyphen ends the range, so a hyphen
right after it makes no other one. -/
def splitRanges : Nat → Nat → List Char → List (List Char)
  | 0, _, s => [s]
  | fuel + 1, lead, s =>
    let before := s.take lead ++ (s.drop lead).takeWhile (· != '-')
    match (s.drop lead).dropWhile (· != '-') with
    | [] => [s]
    | [_] => [before ++ ['-']]
    | _ :: rest => before :: splitRanges fuel 2 rest

/-- Leaves ranges out that go from a character to an earlier one, the last ones first. -/
def dropEmptyRanges : List (List Char) → List (List Char)
  | [] => []
  | part :: rest =>
    match dropEmptyRanges rest with
    | [] => [part]
    | next :: more =>
      match part.getLast?, next.head? with
      | some a, some b => if b < a then (part.dropLast ++ next.drop 1) :: more
          else part :: next :: more
      | _, _ => part :: next :: more

/-- The set that stands in brackets. Ranges are told apart first, and empty ones left out. If an
exclamation mark is then at the start it negates what follows it, where a hyphen at the start makes
no range. -/
def ofText (s : List Char) : CharSet :=
  let lead := if s.head? == some '!' then 2 else 1
  match dropEmptyRanges (splitRanges s.length lead s) with
  | ['!'] :: next :: more => ⟨true, ('-' :: next) :: more⟩
  | ('!' :: part) :: more => ⟨true, part :: more⟩
  | parts => ⟨false, parts⟩

/-- Whether a character is between the ends of two parts that follow each other. -/
def inRange (c : Char) (a b : List Char) : Bool :=
  match a.getLast?, b.head? with
  | some low, some high => low ≤ c && c ≤ high
  | _, _ => false

/-- Whether a character is in the set. -/
def contains (set : CharSet) (c : Char) : Bool :=
  let inPart := set.parts.any fun part => part.contains c
  let between := (set.parts.zip (set.parts.drop 1)).any fun (a, b) => inRange c a b
  (inPart || between) != set.negated

end CharSet

/-- Splits at the bracket that closes a set. A closing bracket at the start of the set, also after
an exclamation mark, belongs to it. -/
def splitSet? (s : List Char) : Option (List Char × List Char) :=
  let mark := s.take 1 |>.filter (· == '!')
  let first := (s.drop mark.length).take 1 |>.filter (· == ']')
  let lead := mark ++ first
  let tail := s.drop lead.length
  match tail.dropWhile (· != ']') with
  | [] => none
  | _ :: rest => some (lead ++ tail.takeWhile (· != ']'), rest)

theorem length_lt_of_splitSet? {s inside rest : List Char} (h : splitSet? s = some (inside, rest)) :
    rest.length < s.length := by
  unfold splitSet? at h
  simp only at h
  split at h
  · cases h
  · rename_i heq
    cases h
    have h₁ := congrArg List.length heq
    have h₂ := Text.length_dropWhile_le (· != ']') (s.drop ((s.take 1).filter (· == '!') ++
      ((s.drop ((s.take 1).filter (· == '!')).length).take 1).filter (· == ']')).length)
    simp only [List.length_cons, List.length_drop] at h₁ h₂
    omega

/-- The items of a pattern. A bracket that is not closed stands for itself. -/
def items (pattern : List Char) : List Item :=
  match pattern with
  | [] => []
  | '*' :: rest => .anything :: items rest
  | '?' :: rest => .one :: items rest
  | '[' :: rest =>
    match _hset : splitSet? rest with
    | some (inside, rest) => .among (.ofText inside) :: items rest
    | none => .exactly '[' :: items rest
  | c :: rest => .exactly c :: items rest
termination_by pattern.length
decreasing_by
  all_goals simp only [List.length_cons]
  all_goals first
    | omega
    | exact Nat.lt_succ_of_lt (length_lt_of_splitSet? _hset)

/-- Whether a name is spelled by items. -/
def isMatch : List Item → List Char → Bool
  | [], [] => true
  | [], _ :: _ => false
  | .anything :: rest, [] => isMatch rest []
  | .anything :: rest, c :: s => isMatch rest (c :: s) || isMatch (.anything :: rest) s
  | .one :: rest, _ :: s => isMatch rest s
  | .exactly d :: rest, c :: s => c == d && isMatch rest s
  | .among set :: rest, c :: s => set.contains c && isMatch rest s
  | _ :: _, [] => false
termination_by items s => (items.length, s.length)

/-- Whether a name starts with a dot. -/
def isHidden (name : List Char) : Bool := name.head? == some '.'

/-- Whether a text has a character with a meaning in patterns. -/
def hasMagic (s : List Char) : Bool := s.any fun c => c == '*' || c == '?' || c == '['

/-- The part of a pattern in front of its first component that is a glob. -/
def literalPart (pattern : List Char) : List Char :=
  Path.ofComponents ((Path.components pattern).takeWhile fun part => !hasMagic part)

/-- Whether a glob asks for the entries of a directory whose path holds a NUL, which no path may. -/
def asksForNul (pattern : List Char) : Bool :=
  hasMagic pattern && (literalPart pattern).contains '\x00'

/-- The component for any chain of directories. -/
def recursiveMark : List Char := ['*', '*']

/-! ### Entries of one directory -/

/-- The names in a directory that a pattern spells. -/
def matchingNames (entries : List (List Char × FileTree)) (pattern : List Char)
    (onlyDirectories : Bool) : List (List Char) :=
  let items := items pattern
  (entries.filter fun (name, tree) =>
    (!onlyDirectories || tree.isDirectory) && (isHidden pattern || !isHidden name) &&
      isMatch items name).map (·.1)

mutual

/-- The paths below a directory that go through no hidden name. -/
def below (onlyDirectories : Bool) : FileTree → List (List Char)
  | .file _ => []
  | .directory entries => belowEntries onlyDirectories entries

/-- The paths of entries, and below them. -/
def belowEntries (onlyDirectories : Bool) : List (List Char × FileTree) → List (List Char)
  | [] => []
  | (name, tree) :: rest =>
    (if isHidden name || (onlyDirectories && !tree.isDirectory) then []
      else name :: (below onlyDirectories tree).map (Path.join name)) ++
    belowEntries onlyDirectories rest

end

/-! ### Expansion -/

/-- What stands before the last slash of a path, and what behind it. -/
def splitLast (path : List Char) : List Char × List Char :=
  (Path.directory path, Path.baseName path)

/-- The names in a directory that the last component of a glob stands for. -/
def namesIn (fs : FileSystem) (directory component : List Char) (onlyDirectories : Bool) :
    List (List Char) :=
  if component == recursiveMark then
    (if directory.isEmpty || fs.isDirectory directory then [[]] else []) ++
      belowEntries onlyDirectories (fs.entriesAt directory)
  else if hasMagic component then
    matchingNames (fs.entriesAt directory) component onlyDirectories
  else if component.isEmpty then
    if fs.isDirectory directory then [[]] else []
  else if fs.contains (Path.join directory component) then [component] else []

/-- The paths that a glob stands for. -/
def expandWith (fs : FileSystem) : Nat → Bool → List Char → List (List Char)
  | 0, _, _ => []
  | fuel + 1, onlyDirectories, pattern =>
    let (directory, component) := splitLast pattern
    if !hasMagic pattern then
      let found := if component.isEmpty then fs.isDirectory directory else fs.contains pattern
      if found then [pattern] else []
    else if directory.isEmpty then namesIn fs [] component onlyDirectories
    else
      let directories :=
        if hasMagic directory then expandWith fs fuel true directory else [directory]
      directories.flatMap fun directory =>
        (namesIn fs directory component onlyDirectories).map (Path.join directory)

/-- The paths that a glob stands for, in order. The working directory itself is not among them. -/
def expand (fs : FileSystem) (pattern : List Char) : List (List Char) :=
  let found := expandWith fs (pattern.length + 1) false pattern
  let found := if pattern.take 2 == recursiveMark && found.head? == some [] then found.drop 1
    else found
  found.mergeSort Text.le

end TypeNotes.Glob
