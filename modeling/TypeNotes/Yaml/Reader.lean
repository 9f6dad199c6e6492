import TypeNotes.Config.File
import TypeNotes.Utf8
import TypeNotes.Yaml.Document

/-!
# YAML for the runnable program

The program is run with this reader in the place of the package that reads YAML (`YamlReader`). It
reads one document of plain and quoted texts, numbers, truth values, days, lists and mappings.
Anchors, aliases, merge keys, tags, directives and times of day are refused, and no reason is given
for a fault. It is here to run the program, and no result is about it.
-/

namespace TypeNotes

namespace Yaml

/-- The text with every carriage return, alone or in front of a line feed, as a line feed. -/
def unifyLineEnds : List Char → List Char
  | [] => []
  | '\r' :: '\n' :: rest => '\n' :: unifyLineEnds rest
  | '\r' :: rest => '\n' :: unifyLineEnds rest
  | c :: rest => c :: unifyLineEnds rest

/-- Reads a text as a value. -/
def readText (text : List Char) : Except ReadFault Value :=
  match parse? text with
  | none => .error (.invalid "(yaml)")
  | some value => .ok value

/-- Reads the bytes of a file as a value. -/
def read : YamlReader := fun bytes =>
  match Utf8.decode? bytes with
  | .error _ => .error (.raised "UnicodeDecodeError")
  | .ok text => readText (unifyLineEnds text)

end Yaml

/-- Reads a configuration from YAML, with its files relative to a directory. -/
def Config.ofYaml (base : String) (text : List Char) : Except ConfigFault Config :=
  match Yaml.readText text with
  | .error fault => .error fault.toConfigFault
  | .ok value => load base value

end TypeNotes
