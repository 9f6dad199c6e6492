import TypeNotes.Command.Arguments
import TypeNotes.Yaml.Reader

/-!
# The runnable program

The command line with readers of its own in the place of the packages, so that it can be run. All
results are about `Command.runWith`, for any packages.
-/

namespace TypeNotes.Command

/-- The readers that stand for the packages. -/
def Packages.standIn : Packages := ⟨readArguments, Yaml.read⟩

/-- Runs the command line. -/
def run (fs : FileSystem) (arguments : List String) : Outcome := runWith .standIn fs arguments

end TypeNotes.Command
