import TypeNotes.Config.Value
import TypeNotes.Files.Path
import TypeNotes.Violation

/-!
# Configurations

A configuration lists files and rules. Files are given relative to a directory and are kept as
absolute paths. Each rule may be given a severity and may be disabled. Loading a value either gives
a configuration or the first fault found in it, files before rules and rules in order. Faults are
reported in words, but for those that end the run (`ConfigFault.uncaught?`).
-/

namespace TypeNotes

/-! ### Faults -/

/-- What is wrong with a configuration. Positions in lists count from zero. -/
inductive ConfigFault
  /-- The text is not YAML, for a reason that its reader gives. -/
  | notYaml (reason : String)
  | notMapping (type : String)
  | filesNotList (type : String)
  | fileNotText (index : Nat) (type : String)
  | noRules
  | rulesNotList (type : String)
  | unnamedRule (index : Nat)
  | unknownRule (index : Nat) (name : String)
  | unknownParameters (index : Nat) (rule : Rule) (names : List String)
  | unknownSeverity (index : Nat) (rule : Rule) (name : String)
  | enabledNotBool (index : Nat) (rule : Rule)
  /-- The name of a rule is of a type that cannot be looked up, such as a list. -/
  | ruleNotScalar (index : Nat)
  /-- The reader of YAML raised an exception of this name, which is not about the text. -/
  | raised (exception : String)
  deriving DecidableEq, Repr

namespace ConfigFault

/-- The start of a message about an entry of the list of rules. -/
def entry (index : Nat) : String := s!"'rules' index {index}: "

/-- The start of a message about the entry for a rule. -/
def entryFor (index : Nat) (rule : Rule) : String :=
  entry index ++ "rule '" ++ rule.name ++ "': "

/-- The exception with which a fault ends the run. All other faults are reported. -/
def uncaught? : ConfigFault → Option String
  | ruleNotScalar _ => some "TypeError"
  | raised exception => some exception
  | _ => none

/-- The words for what is wrong, without the start that all messages share; the name of the
exception where there are none. -/
def reason : ConfigFault → String
  | notYaml reason => reason
  | notMapping type => "expected to read a dictionary, but read a " ++ type
  | filesNotList type => "'files' key: expected a list, got a " ++ type
  | fileNotText index type => s!"'files', index {index}: expected a str, got a " ++ type
  | noRules => "'rules' key: a list of rules is required"
  | rulesNotList type => "'rules' key: expected a list, got a " ++ type
  | unnamedRule index => entry index ++ "unnamed rule (missing 'rule' key)"
  | unknownRule index name => entry index ++ "unknown rule '" ++ name ++ "'"
  | unknownParameters index rule names =>
    entryFor index rule ++ "unknown config params: \x7b" ++ String.intercalate ", " names ++ "\x7d"
  | unknownSeverity index rule name =>
    entryFor index rule ++ "unknown severity '" ++ name ++ "', expected one of " ++
      String.intercalate ", " (Severity.all.map Severity.name)
  | enabledNotBool index rule => entryFor index rule ++ "'enabled' must be a bool"
  | ruleNotScalar _ => "TypeError"
  | raised exception => exception

/-- The words for a fault. Those of one that ends the run are never printed. -/
def message (f : ConfigFault) : String :=
  if f.uncaught?.isSome then f.reason else "config file invalid: " ++ f.reason

end ConfigFault

/-! ### Configurations -/

/-- An entry of the list of rules. -/
structure RuleEntry where
  rule : Rule
  severity : Option Severity
  enabled : Option Bool
  deriving DecidableEq, Repr

/-- Files, and entries for rules. -/
structure Config where
  files : List String
  rules : List RuleEntry
  deriving DecidableEq, Repr

namespace Config

/-! ### Loading -/

/-- The keys that an entry may have beside the name of its rule. -/
def entryKeys : List String := ["severity", "enabled"]

/-- Whether a key of an entry is known. -/
def isEntryKey : Value → Bool
  | .str s => s == "rule" || entryKeys.contains s
  | _ => false

/-- The severity in the field of an entry. -/
def severityOf? : Value → Option Severity
  | .str s => Severity.ofName? s
  | _ => none

/-- The rule that a value names. -/
def ruleOf? : Value → Option Rule
  | .str s => Rule.ofName? s
  | _ => none

/-- Reads the rule of an entry. -/
def loadRule (index : Nat) (fields : List (Value × Value)) : Except ConfigFault Rule :=
  match Value.field? fields "rule" with
  | none => .error (.unnamedRule index)
  | some name =>
    if name.isKey then
      match ruleOf? name with
      | some rule => .ok rule
      | none => .error (.unknownRule index name.text)
    else .error (.ruleNotScalar index)

/-- Accepts the keys of an entry. -/
def acceptKeys (index : Nat) (rule : Rule) (fields : List (Value × Value)) :
    Except ConfigFault Unit :=
  let unknown := fields.filter fun (key, _) => !isEntryKey key
  if unknown.isEmpty then .ok ()
  else .error (.unknownParameters index rule (unknown.map fun (key, _) => key.quoted))

/-- Reads the severity of an entry, if it has one. -/
def loadSeverity (index : Nat) (rule : Rule) (fields : List (Value × Value)) :
    Except ConfigFault (Option Severity) :=
  match Value.field? fields "severity" with
  | none => .ok none
  | some value =>
    match severityOf? value with
    | some severity => .ok (some severity)
    | none => .error (.unknownSeverity index rule value.text)

/-- Reads whether an entry enables its rule, if it says so. -/
def loadEnabled (index : Nat) (rule : Rule) (fields : List (Value × Value)) :
    Except ConfigFault (Option Bool) :=
  match Value.field? fields "enabled" with
  | none => .ok none
  | some (.bool b) => .ok (some b)
  | some _ => .error (.enabledNotBool index rule)

/-- Reads the entry at a position of the list of rules. -/
def loadEntry (index : Nat) : Value → Except ConfigFault RuleEntry
  | .map fields => do
    let rule ← loadRule index fields
    acceptKeys index rule fields
    let severity ← loadSeverity index rule fields
    let enabled ← loadEnabled index rule fields
    return ⟨rule, severity, enabled⟩
  | _ => .error (.unnamedRule index)

/-- Reads entries, the first of which is at a position of the list of rules. -/
def loadEntries (index : Nat) : List Value → Except ConfigFault (List RuleEntry)
  | [] => return []
  | value :: rest => do
    let first ← loadEntry index value
    let more ← loadEntries (index + 1) rest
    return first :: more

/-- Reads names of files, the first of which is at a position of the list of files. -/
def loadFiles (base : String) (index : Nat) : List Value → Except ConfigFault (List String)
  | [] => return []
  | .str file :: rest => do
    let more ← loadFiles base (index + 1) rest
    return String.ofList (Path.absolute base.toList file.toList) :: more
  | value :: _ => throw (.fileNotText index value.typeText)

/-- Reads the files in a value, which may be absent. -/
def loadFileList (base : String) (files : Value) : Except ConfigFault (List String) :=
  if files.isEmpty then .ok []
  else match files with
    | .list items => loadFiles base 0 items
    | other => .error (.filesNotList other.typeText)

/-- Reads the rules in a value, which may not be absent. -/
def loadRuleList (rules : Value) : Except ConfigFault (List RuleEntry) :=
  if rules.isEmpty then .error .noRules
  else match rules with
    | .list items => loadEntries 0 items
    | other => .error (.rulesNotList other.typeText)

/-- Reads a configuration whose files are relative to a directory. -/
def load (base : String) : Value → Except ConfigFault Config
  | .map fields => do
    let files ← loadFileList base ((Value.field? fields "files").getD .null)
    let rules ← loadRuleList ((Value.field? fields "rules").getD .null)
    return ⟨files, rules⟩
  | value => .error (.notMapping value.typeText)

/-! ### The value of a configuration -/

/-- An entry as a value. -/
def valueOfEntry (e : RuleEntry) : Value :=
  .map ([(.str "rule", .str e.rule.name)] ++
    (e.severity.map fun s => (.str "severity", .str s.name)).toList ++
    (e.enabled.map fun b => (.str "enabled", .bool b)).toList)

/-- A configuration as a value. -/
def toValue (c : Config) : Value :=
  .map [(.str "files", .list (c.files.map .str)), (.str "rules", .list (c.rules.map valueOfEntry))]

/-! ### The rules to check -/

/-- Sets the severity of a rule, at its place if it has one, or else at the end. -/
def setSeverity (rule : Rule) (severity : Severity) : RuleSet → RuleSet
  | [] => [(rule, severity)]
  | (r, s) :: rest =>
    if r = rule then (r, severity) :: rest else (r, s) :: setSeverity rule severity rest

/-- The rules that are enabled, in the order of their first enabled entries and with the severities
of their last. -/
def ruleSet (c : Config) : RuleSet :=
  c.rules.foldl (fun rules e =>
    if e.enabled.getD true then setSeverity e.rule (e.severity.getD Severity.default) rules
    else rules) []

end Config

end TypeNotes
