import TypeNotes.Config.Value

/-!
# The words of failures

Failures come in four kinds. Each is made from a few values and has words of its own where they say
nothing: a general failure and one of a configuration from a message, one of a source from a path
and a message, and one of a signature from a message, a position and a length.
-/

namespace TypeNotes

/-- The kinds of failures. -/
inductive FailureKind
  | general
  | config
  | source
  | signature
  deriving DecidableEq, Repr

namespace FailureKind

/-- The words for a general failure that says nothing. -/
def noMessage : String := "Exception in rbs-inline-lint"

/-- The text of a message, or other words if there is none. -/
def textOr (default : String) (message : Option Value) : String :=
  match message with
  | none => default
  | some value => if value.isEmpty then default else value.text

/-- The text of a failure made from values; there may be too few or too many of them. -/
def text? : FailureKind → List Value → Option String
  | general, [] => some noMessage
  | general, [message] => some (textOr noMessage message)
  | config, [] => some "config file invalid"
  | config, [message] => some (textOr "config file invalid" message)
  | source, [path] => some (path.text ++ ": unable to read source")
  | source, [path, message] => some (path.text ++ ": " ++ textOr "unable to read source" message)
  | signature, [message, _] | signature, [message, _, _] => some (textOr noMessage message)
  | _, _ => none

end FailureKind

end TypeNotes
