import TypeNotes.Rule.Basic

/-!
# Violations

A violation is an offense as it is reported: with the file, the line and column at which it starts,
the rule, and how severe it is. A report lists violations by line, column, rule and words.
-/

namespace TypeNotes

/-! ### Severities -/

/-- How severe a violation is. -/
inductive Severity
  | info
  | convention
  | warning
  | error
  deriving DecidableEq, Repr

namespace Severity

/-- All severities, from the least to the greatest. -/
def all : List Severity := [info, convention, warning, error]

/-- The word for a severity. -/
def name : Severity → String
  | info => "info"
  | convention => "convention"
  | warning => "warning"
  | error => "error"

/-- The letter for a severity. -/
def code : Severity → String
  | info => "I"
  | convention => "C"
  | warning => "W"
  | error => "E"

/-- The severity with a name. -/
def ofName? (s : String) : Option Severity := all.find? (·.name == s)

/-- The severity of a rule that is given none. -/
def default : Severity := convention

end Severity

/-! ### Violations -/

/-- A reported offense. -/
structure Violation where
  path : String
  line : Nat
  column : Nat
  rule : String
  severity : Severity
  message : String
  deriving DecidableEq, Repr

namespace Violation

/-- The line of a report for a violation. -/
def format (v : Violation) : String :=
  v.path ++ ":" ++ toString v.line ++ ":" ++ toString v.column ++ ": " ++ v.severity.code ++
    ": [" ++ v.rule ++ "] " ++ v.message

/-- Whether a violation is not listed after another. -/
def le (a b : Violation) : Bool :=
  a.line < b.line || (a.line == b.line &&
    (a.column < b.column || (a.column == b.column &&
      (!Text.le b.rule.toList a.rule.toList || (a.rule == b.rule &&
        Text.le a.message.toList b.message.toList)))))

/-- The violation for an offense against a rule. -/
def ofOffense (s : Ruby.Source) (rule : Rule) (severity : Severity) (o : Offense) : Violation :=
  let (line, column) := s.location o.span.start
  ⟨s.path, line, column, rule.name, severity, o.message⟩

end Violation

/-! ### Linting -/

/-- The rules to check, with the severity of each. -/
abbrev RuleSet : Type := List (Rule × Severity)

/-- All rules, with the severity that they have if none is given. -/
def RuleSet.all : RuleSet := Rule.all.map (·, Severity.default)

/-- The violations of rules in a file. -/
def lint (rules : RuleSet) (s : Ruby.Source) : List Violation :=
  (rules.flatMap fun (rule, severity) =>
    (rule.check s).map (Violation.ofOffense s rule severity)).mergeSort Violation.le

end TypeNotes
