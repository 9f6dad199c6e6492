import TypeNotes.Command

/-!
# The program

Reads what the command line needs from the file system into a file tree, runs the command on it,
and prints what comes out. The log is not printed.
-/

namespace TypeNotes.Main

/-- Reads the names below an absolute path; files are left empty. -/
partial def readNames (path : String) : IO (Option FileTree) := do
  let here := (← IO.currentDir) / path
  if ← here.isDir then
    let mut entries : List (List Char × FileTree) := []
    for entry in ← here.readDir do
      if let some tree ← readNames (path ++ "/" ++ entry.fileName) then
        entries := (entry.fileName.toList, tree) :: entries
    return some (.directory entries)
  else if ← here.pathExists then return some (.file [])
  else return none

/-- The names on the way from the root to an absolute path in normal form. -/
def namesOf (path : List Char) : List (List Char) :=
  (Path.components path).filter fun part => !part.isEmpty

/-- Reads the names below the longest start of a path that there is, and puts them into a tree. -/
partial def addNames (names : List (List Char)) (tree : FileTree) : IO FileTree := do
  match ← readNames ("/" ++ String.ofList (Path.ofComponents names)) with
  | some found => return tree.insert names found
  | none => if names.isEmpty then return tree else addNames names.dropLast tree

/-- Reads the bytes of a file, if it can be read, and puts them into a tree. -/
def addBytes (directory : List Char) (tree : FileTree) (path : List Char) : IO FileTree := do
  let whole := Path.absolute directory path
  try
    let bytes ← IO.FS.readBinFile (String.ofList whole)
    return tree.insert (namesOf whole) (.file bytes.toList)
  catch _ => return tree

/-- Reads everything that a command needs. -/
def readFiles (arguments : List String) : IO FileSystem := do
  let directory := (← IO.currentDir).toString.toList
  let names := namesOf directory
  let base := FileTree.empty.makeDirectory names
  let some parsed := Command.Arguments.ofList? arguments | return ⟨base, names⟩
  let withConfig ← match parsed.config with
    | none => pure base
    | some path => addBytes directory base path.toList
  let config := do
    let path ← parsed.config
    let bytes ← ((FileSystem.mk withConfig names).read path.toList).toOption
    (Config.ofFile Yaml.read directory path.toList bytes).toOption
  let patterns := match parsed.action with
    | .ok (.lint paths) => Command.patterns config paths
    | _ => []
  let mut tree := withConfig
  for pattern in patterns do
    tree ← addNames (namesOf (Path.absolute directory (Glob.literalPart pattern))) tree
  for path in collectFiles ⟨tree, names⟩ patterns do
    tree ← addBytes directory tree path
  if let some path := parsed.config then tree ← addBytes directory tree path.toList
  return ⟨tree, names⟩

end TypeNotes.Main

/-- Runs the command line and ends with its code. -/
def main (arguments : List String) : IO UInt32 := do
  let outcome := TypeNotes.Command.run (← TypeNotes.Main.readFiles arguments) arguments
  (← IO.getStdout).putStr (TypeNotes.Command.Outcome.text outcome.output)
  (← IO.getStderr).putStr
    (TypeNotes.Command.Outcome.text (outcome.errors ++ outcome.uncaught.toList))
  return outcome.exit.toUInt32
