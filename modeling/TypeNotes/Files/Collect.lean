import TypeNotes.Files.Glob

/-!
# Collecting Ruby files

Files are named by paths, directories and globs. A directory stands for the Ruby files in it and
below it, without hidden directories: the files of a directory come before those of its
subdirectories, each in order. A path that is not a glob is taken as it is, whatever it leads to. No
file is collected twice.
-/

namespace TypeNotes

/-- Whether a name is that of a Ruby file. -/
def isRubyName (name : List Char) : Bool :=
  [".rb", ".rbi", ".rake", ".gemspec", ".ru"].any (Text.endsWith name)

/-- Named things in the order of their names. -/
def sortByName {α : Type} (l : List (List Char × α)) : List (List Char × α) :=
  l.mergeSort fun a b => Text.le a.1 b.1

mutual

/-- The Ruby files of a directory with this path, and those below it. -/
def rubyFiles (path : List Char) : FileTree → List (List Char)
  | .file _ => []
  | .directory entries =>
    let names := (entries.filter fun (name, tree) => !tree.isDirectory && isRubyName name).map (·.1)
    (names.mergeSort Text.le).map (Path.join path) ++
      (sortByName (rubyFilesBelow path entries)).flatMap (·.2)

/-- The Ruby files below each directory among entries, with the name of the directory. -/
def rubyFilesBelow (path : List Char) :
    List (List Char × FileTree) → List (List Char × List (List Char))
  | [] => []
  | (name, tree) :: rest =>
    (if tree.isDirectory && !Glob.isHidden name then [(name, rubyFiles (Path.join path name) tree)]
      else []) ++ rubyFilesBelow path rest

end

/-- The files that a path stands for. Files found by a glob have to be Ruby files. -/
def filesAt (fs : FileSystem) (isGlob : Bool) (path : List Char) : List (List Char) :=
  match fs.find path with
  | .ok (.directory entries) => rubyFiles path (.directory entries)
  | _ => if isGlob && !isRubyName path then [] else [path]

/-- The files that a pattern stands for. -/
def filesOf (fs : FileSystem) (pattern : List Char) : List (List Char) :=
  if Glob.hasMagic pattern then (Glob.expand fs pattern).flatMap (filesAt fs true)
  else filesAt fs false pattern

/-- The files that patterns stand for, each at its first place. -/
def collectFiles (fs : FileSystem) (patterns : List (List Char)) : List (List Char) :=
  (patterns.flatMap (filesOf fs)).eraseDups

end TypeNotes
