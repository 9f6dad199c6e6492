import TypeNotes.Config.File
import TypeNotes.Config.Stub
import TypeNotes.Files.Collect

/-!
# The command line

There are three commands: one checks files and reports violations, one prints the stub of a
configuration, and one lists the rules. A configuration file may be named before the command. What
a command prints, and whether it succeeds, depends on its arguments and on the files it finds, and
on nothing else.

Arguments are taken apart by a package, and YAML is read by another one. Neither is fixed here: a run
has both as parameters (`Packages`).
-/

namespace TypeNotes.Command

/-! ### Outcomes -/

/-- What is logged as a warning. -/
inductive Warning
  /-- A glob stands for nothing. -/
  | matchedNoFiles (pattern : String)
  /-- A file could not be read as a source. -/
  | unableToLint (path error : String)
  deriving DecidableEq, Repr

/-- What a command prints, and the code with which it ends. The log is kept apart from what is
printed, and only its warnings are kept. -/
structure Outcome where
  exit : Nat
  output : List String
  /-- The lines printed as errors. -/
  errors : List String := []
  warnings : List Warning := []
  /-- The name of the exception that ended the run, if one did. -/
  uncaught : Option String := none
  deriving DecidableEq, Repr

/-- The outcome of a run that an exception ends. -/
def Outcome.ended (exception : String) (output : List String) (warnings : List Warning) : Outcome :=
  { exit := 1, output, warnings, uncaught := some exception }

/-- The text of printed lines. -/
def Outcome.text (lines : List String) : String := String.join (lines.map (· ++ "\n"))

/-! ### Arguments -/

/-- What to do. -/
inductive Action
  | lint (paths : List String)
  | stub
  | rules
  deriving DecidableEq, Repr

/-- What a command line asks for: the configuration file, and what to do under it. Where the package
ends the run by itself, as with a help text, its outcome stands in place of an action. -/
structure Arguments where
  config : Option String
  action : Except Outcome Action
  deriving Repr

/-- The packages of a run: functions that it calls and that are not defined by it. -/
structure Packages where
  /-- Takes the arguments of the command line apart. It looks for the configuration file among the
  files, and may end the run before this file is read. -/
  arguments : FileSystem → List String → Except Outcome Arguments
  /-- Reads a configuration file as a value. -/
  yaml : YamlReader

/-! ### Reports -/

/-- What comes of a file: why it could not be read as a source, or its violations. -/
inductive FileReport
  | failed (failure : Ruby.LoadError)
  | linted (violations : List Violation)
  deriving DecidableEq, Repr

namespace FileReport

/-- The lines printed for a file. -/
def lines : FileReport → List String
  | failed failure => ["unable to lint " ++ failure.message]
  | linted violations => violations.map Violation.format

/-- How many violations there are in a file. -/
def count : FileReport → Nat
  | failed _ => 0
  | linted violations => violations.length

/-- The warnings logged for a file. -/
def warnings : FileReport → List Warning
  | failed failure => [.unableToLint failure.path failure.message]
  | linted _ => []

/-- Whether a file could not be read as a source. -/
def isFailed : FileReport → Bool
  | failed _ => true
  | linted _ => false

end FileReport

/-- Reads a file as a source. The system refuses a path that holds a NUL, whatever files there are,
with an exception that is not about files and is not caught. -/
def readSource (fs : FileSystem) (path : List Char) :
    Except String (Except Ruby.LoadError Ruby.Source) :=
  let name := String.ofList path
  if path.contains '\x00' then .error "ValueError"
  else match fs.read path with
    | .error fault => .ok (.error ⟨name, .unreadable (fault.message ++ ": " ++ Text.quote name)⟩)
    | .ok bytes => .ok (Ruby.Source.ofBytes name bytes)

/-- The report on one file, or the exception that ends the run. -/
def reportOn (fs : FileSystem) (rules : RuleSet) (path : List Char) : Except String FileReport :=
  match readSource fs path with
  | .error exception => .error exception
  | .ok (.error failure) => .ok (.failed failure)
  | .ok (.ok source) => .ok (.linted (lint rules source))

/-- The reports on files one after another, up to an exception. -/
def reportsOn (fs : FileSystem) (rules : RuleSet) :
    List (List Char) → List FileReport × Option String
  | [] => ([], none)
  | path :: rest =>
    match reportOn fs rules path with
    | .error exception => ([], some exception)
    | .ok report =>
      let (reports, uncaught) := reportsOn fs rules rest
      (report :: reports, uncaught)

/-- A count and its noun. -/
def counted (n : Nat) (noun : String) : String :=
  toString n ++ " " ++ (if n == 1 then noun else noun ++ "s")

/-- The line that closes a report. -/
def summary (violations files : Nat) : String :=
  counted violations "error" ++ " found in " ++ counted files "file"

/-- Reports on files one after another, and sums up. -/
def lintFiles (fs : FileSystem) (rules : RuleSet) (files : List (List Char)) : Outcome :=
  let (reports, uncaught) := reportsOn fs rules files
  let lines := reports.flatMap (·.lines)
  let warnings := reports.flatMap (·.warnings)
  match uncaught with
  | some exception => .ended exception lines warnings
  | none =>
    let count := reports.foldr (fun report count => report.count + count) 0
    { exit := if reports.any (·.isFailed) || count != 0 then 1 else 0
      output := lines ++ [summary count files.length]
      warnings }

/-! ### Commands -/

/-- The patterns of the files to check: those on the command line, or else those of the
configuration. -/
def patterns (config : Option Config) (paths : List String) : List (List Char) :=
  if paths.isEmpty then ((config.map (·.files)).getD []).map String.toList
  else paths.map String.toList

/-- The warnings logged while files are collected. -/
def collectWarnings (fs : FileSystem) (patterns : List (List Char)) : List Warning :=
  (patterns.filter fun pattern => Glob.hasMagic pattern && (Glob.expand fs pattern).isEmpty).map
    fun pattern => .matchedNoFiles (String.ofList pattern)

/-- Checks the files that patterns stand for. The search for files ends the run at a glob in which
the system is asked for a directory that it refuses. -/
def lintPatterns (fs : FileSystem) (rules : RuleSet) (patterns : List (List Char)) : Outcome :=
  let searched := patterns.takeWhile fun pattern => !Glob.asksForNul pattern
  let warnings := collectWarnings fs searched
  if patterns.any Glob.asksForNul then .ended "ValueError" [] warnings
  else
    let outcome := lintFiles fs rules (collectFiles fs patterns)
    { outcome with warnings := warnings ++ outcome.warnings }

/-- Does what is asked for, under a configuration. -/
def perform (fs : FileSystem) (config : Option Config) : Except Outcome Action → Outcome
  | .error outcome => outcome
  | .ok .stub => { exit := 0, output := [Config.stub] }
  | .ok .rules => { exit := 0, output := Rule.all.map fun r => r.name ++ ": " ++ r.summary }
  | .ok (.lint paths) =>
    match patterns config paths with
    | [] =>
      { exit := 1
        output := ["no files to lint: pass paths or use -c/--config with a 'files' list"] }
    | patterns => lintPatterns fs ((config.map Config.ruleSet).getD .all) patterns

/-- The working directory as a path. -/
def workingDirectory (fs : FileSystem) : List Char := '/' :: Path.ofComponents fs.directory

/-- The line printed before a configuration file is read. -/
def loadingLine (path : String) : String := "Load config file: " ++ path

/-- Runs the command line with some packages. -/
def runWith (packages : Packages) (fs : FileSystem) (arguments : List String) : Outcome :=
  match packages.arguments fs arguments with
  | .error outcome => outcome
  | .ok ⟨none, action⟩ => perform fs none action
  | .ok ⟨some path, action⟩ =>
    match fs.read path.toList with
    | .error fault => .ended fault.exception [loadingLine path] []
    | .ok bytes =>
      match Config.ofFile packages.yaml (workingDirectory fs) path.toList bytes with
      | .error fault =>
        match fault.uncaught? with
        | some exception => .ended exception [loadingLine path] []
        | none => { exit := 1, output := [loadingLine path], errors := [fault.message] }
      | .ok config =>
        let outcome := perform fs (some config) action
        { outcome with output := loadingLine path :: outcome.output }

end TypeNotes.Command
