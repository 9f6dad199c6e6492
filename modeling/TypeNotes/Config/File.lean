import TypeNotes.Config.Basic

/-!
# Configuration files

A configuration file is YAML in UTF-8, and the files that it lists are relative to the directory
that it is in. YAML is read by a package, of which nothing is fixed here: what it answers for the
bytes of a file is a parameter (`YamlReader`).
-/

namespace TypeNotes

/-- Why there is no value in a configuration file. -/
inductive ReadFault
  /-- The text is not YAML, for this reason. -/
  | invalid (reason : String)
  /-- Reading ended with an exception of this name, as for bytes that are not UTF-8. -/
  | raised (exception : String)
  deriving DecidableEq, Repr

/-- A reader of YAML: what it answers for a file with these bytes, opened as UTF-8. -/
abbrev YamlReader : Type := List UInt8 → Except ReadFault Value

namespace ReadFault

/-- The fault of a configuration without a value. -/
def toConfigFault : ReadFault → ConfigFault
  | invalid reason => .notYaml reason
  | raised exception => .raised exception

end ReadFault

namespace Config

/-- Reads the configuration file with a path, given the working directory and its bytes. -/
def ofFile (yaml : YamlReader) (directory path : List Char) (bytes : List UInt8) :
    Except ConfigFault Config :=
  match yaml bytes with
  | .error fault => .error fault.toConfigFault
  | .ok value => load (String.ofList (Path.directory (Path.absolute directory path))) value

end Config

end TypeNotes
