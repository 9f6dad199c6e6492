import TypeNotes.Command.Basic

/-!
# Arguments for the runnable program

The program is run with this reader of arguments in the place of the package (`Packages.arguments`).
It knows the options and commands of the program and nothing else: whatever the package would
complain about or explain, this reader ends the run with one line. It is here to run the program,
and no result is about it.
-/

namespace TypeNotes.Command

/-- Reads the letters of short options; `rest` are the arguments after them. Answers with the
configuration file named last and the arguments not used. -/
def shortOptions (config : Option String) (rest : List String) :
    List Char → Option (Option String × List String)
  | [] => some (config, rest)
  | 'v' :: letters => shortOptions config rest letters
  | ['c'] =>
    match rest with
    | path :: rest => some (some path, rest)
    | [] => none
  | 'c' :: path => some (some (String.ofList path), rest)
  | _ => none

/-- Reads the options in front of the command. -/
def options : Nat → Option String → List String → Option (Option String × List String)
  | 0, config, arguments => some (config, arguments)
  | fuel + 1, config, arguments =>
    match arguments with
    | [] => some (config, [])
    | argument :: rest =>
      match argument.toList with
      | ['-', '-'] => some (config, rest)
      | '-' :: '-' :: name =>
        if name == "verbose".toList then options fuel config rest
        else match Text.after? "config".toList name, rest with
          | some ('=' :: path), _ => options fuel (some (String.ofList path)) rest
          | some [], path :: rest => options fuel (some path) rest
          | _, _ => none
      | '-' :: c :: letters => do
        let (config, rest) ← shortOptions config rest (c :: letters)
        options fuel config rest
      | _ => some (config, argument :: rest)

/-- Reads paths; after two dashes every argument is one. -/
def paths : List String → Option (List String)
  | [] => some []
  | argument :: rest =>
    match argument.toList with
    | ['-', '-'] => some rest
    | '-' :: _ :: _ => none
    | _ => (paths rest).map (argument :: ·)

/-- Reads the arguments of the command line. -/
def Arguments.ofList? (arguments : List String) : Option Arguments := do
  let (config, rest) ← options arguments.length none arguments
  match rest with
  | "lint" :: rest => return ⟨config, .ok (.lint (← paths rest))⟩
  | ["stub"] => return ⟨config, .ok .stub⟩
  | ["rules"] => return ⟨config, .ok .rules⟩
  | _ => none

/-- The outcome for arguments that make no sense. -/
def usage : Outcome :=
  { exit := 2, output := [], errors := ["Usage: rbs-inline-lint [OPTIONS] COMMAND [ARGS]..."] }

/-- Reads the arguments of the command line; a configuration file has to be there. -/
def readArguments (fs : FileSystem) (arguments : List String) : Except Outcome Arguments :=
  match Arguments.ofList? arguments with
  | none => .error usage
  | some parsed =>
    if parsed.config.all fun path => (fs.read path.toList).toOption.isSome then .ok parsed
    else .error usage

end TypeNotes.Command
