/-!
# Paths

Paths are texts with slashes between their components. A path that starts with a slash is absolute;
exactly two slashes at its start are kept apart from one. The normal form of a path has no empty
component, none that is a single dot, and two dots only where there is nothing to go up from.
-/

namespace TypeNotes.Path

/-- The parts of a path between its slashes. -/
def components (path : List Char) : List (List Char) :=
  match path with
  | [] => [[]]
  | c :: rest =>
    if c == '/' then [] :: components rest
    else match components rest with
      | [] => [[c]]
      | part :: more => (c :: part) :: more

/-- Components with slashes between them. -/
def ofComponents : List (List Char) → List Char
  | [] => []
  | [part] => part
  | part :: more => part ++ '/' :: ofComponents more

/-- Whether a path is absolute. -/
def isAbsolute (path : List Char) : Bool := path.head? == some '/'

/-- The slashes at the start of a path that its normal form keeps: none, one, or exactly two. -/
def rootSlashes (path : List Char) : List Char :=
  match path.takeWhile (· == '/') with
  | [] => []
  | ['/', '/'] => ['/', '/']
  | _ => ['/']

/-- A path below a directory; an absolute path stands for itself. -/
def join (directory path : List Char) : List Char :=
  if isAbsolute path then path
  else if directory.isEmpty || directory.getLast? == some '/' then directory ++ path
  else directory ++ '/' :: path

/-- One step of normalisation, on the components kept so far, the last one first. -/
def pushComponent (absolute : Bool) (kept : List (List Char)) (part : List Char) :
    List (List Char) :=
  if part.isEmpty || part == ['.'] then kept
  else if part == ['.', '.'] then
    match kept with
    | [] => if absolute then [] else [part]
    | last :: rest => if last == ['.', '.'] then part :: kept else rest
  else part :: kept

/-- The normal form of a path. -/
def normalize (path : List Char) : List Char :=
  let kept := (components path).foldl (pushComponent (isAbsolute path)) []
  match rootSlashes path ++ ofComponents kept.reverse with
  | [] => ['.']
  | result => result

/-- The normal form of a path that is taken to be below a directory. -/
def absolute (directory path : List Char) : List Char := normalize (join directory path)

/-- The directory that a path is in: what stands before its last slash, without slashes at the end
unless there is nothing else. -/
def directory (path : List Char) : List Char :=
  let head := (path.reverse.dropWhile (· != '/')).reverse
  if head.all (· == '/') then head else (head.reverse.dropWhile (· == '/')).reverse

/-- What follows the last slash of a path. -/
def baseName (path : List Char) : List Char := (path.reverse.takeWhile (· != '/')).reverse

end TypeNotes.Path
