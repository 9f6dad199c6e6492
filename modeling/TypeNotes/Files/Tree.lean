import TypeNotes.Files.Path

/-!
# File trees

A file tree is a file with its bytes, or a directory with named entries. A path is followed through
a tree from a working directory, component by component: a dot stays, two dots go up, and a name
goes down. Only directories can be gone through. Links, permissions and limits on the length of names
are left out.
-/

namespace TypeNotes

/-- A file or a directory. -/
inductive FileTree
  | file (bytes : List UInt8)
  | directory (entries : List (List Char × FileTree))

namespace FileTree

/-- An empty directory. -/
def empty : FileTree := directory []

def isDirectory : FileTree → Bool
  | directory _ => true
  | file _ => false

/-- The entries of a directory; a file has none. -/
def entries : FileTree → List (List Char × FileTree)
  | directory entries => entries
  | file _ => []

/-- The entry with a name. -/
def entry? (t : FileTree) (name : List Char) : Option FileTree := t.entries.lookup name

/-- Replaces the entry with a name, or adds it. -/
def setEntry (name : List Char) (t : FileTree) :
    List (List Char × FileTree) → List (List Char × FileTree)
  | [] => [(name, t)]
  | (n, old) :: rest => if n == name then (n, t) :: rest else (n, old) :: setEntry name t rest

/-- Changes what stands at the end of a path of names. Where there is nothing on the way or at the
end, there is an empty directory first. -/
def modify (change : FileTree → FileTree) : FileTree → List (List Char) → FileTree
  | base, [] => change base
  | base, name :: path =>
    directory (setEntry name (modify change ((base.entry? name).getD empty) path) base.entries)

/-- Puts a tree in at the end of a path of names, in place of what is there. -/
def insert (base : FileTree) (path : List (List Char)) (t : FileTree) : FileTree :=
  modify (fun _ => t) base path

/-- Makes the directories of a path of names; those that are there keep their entries. -/
def makeDirectory (base : FileTree) (path : List (List Char)) : FileTree := modify id base path

end FileTree

/-! ### Following paths -/

/-- Why a path leads nowhere. -/
inductive PathFault
  /-- There is no entry of that name. -/
  | notFound
  /-- A file stands where a directory has to. -/
  | notDirectory
  /-- A directory stands where a file has to. -/
  | isDirectory
  deriving DecidableEq, Repr

/-- The number and the words of the system for a fault. -/
def PathFault.message : PathFault → String
  | notFound => "[Errno 2] No such file or directory"
  | notDirectory => "[Errno 20] Not a directory"
  | isDirectory => "[Errno 21] Is a directory"

/-- The name of the exception for a fault. -/
def PathFault.exception : PathFault → String
  | notFound => "FileNotFoundError"
  | notDirectory => "NotADirectoryError"
  | isDirectory => "IsADirectoryError"

/-- A file tree with the directory in which relative paths start. -/
structure FileSystem where
  root : FileTree
  /-- The names on the way from the root to the working directory. -/
  directory : List (List Char)

namespace FileSystem

/-- Follows components from a tree, with the trees above it in `above`, the nearest first. -/
def follow (tree : FileTree) (above : List FileTree) :
    List (List Char) → Except PathFault (FileTree × List FileTree)
  | [] => .ok (tree, above)
  | part :: rest =>
    match tree with
    | .file _ => .error .notDirectory
    | .directory entries =>
      if part.isEmpty || part == ['.'] then follow tree above rest
      else if part == ['.', '.'] then
        match above with
        | [] => follow tree [] rest
        | parent :: higher => follow parent higher rest
      else match entries.lookup part with
        | none => .error .notFound
        | some child => follow child (tree :: above) rest

/-- What a path leads to. -/
def find (fs : FileSystem) (path : List Char) : Except PathFault FileTree :=
  if path.isEmpty then .error .notFound
  else
    let start := if Path.isAbsolute path then .ok (fs.root, [])
      else follow fs.root [] fs.directory
    match start with
    | .error fault => .error fault
    | .ok (tree, above) => (follow tree above (Path.components path)).map (·.1)

/-- Whether a path leads to anything. -/
def contains (fs : FileSystem) (path : List Char) : Bool := (fs.find path).toOption.isSome

/-- Whether a path leads to a directory. -/
def isDirectory (fs : FileSystem) (path : List Char) : Bool :=
  (fs.find path).toOption.any FileTree.isDirectory

/-- The entries of the directory that a path leads to; the empty path is the working directory. -/
def entriesAt (fs : FileSystem) (path : List Char) : List (List Char × FileTree) :=
  let path := if path.isEmpty then ['.'] else path
  ((fs.find path).toOption.map FileTree.entries).getD []

/-- The bytes of the file that a path leads to. -/
def read (fs : FileSystem) (path : List Char) : Except PathFault (List UInt8) :=
  match fs.find path with
  | .error fault => .error fault
  | .ok (.file bytes) => .ok bytes
  | .ok (.directory _) => .error .isDirectory

end FileSystem

end TypeNotes
