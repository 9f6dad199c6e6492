import TypeNotes.Rule.CrossReference
import TypeNotes.Rule.Form
import TypeNotes.Rule.Redundancy
import TypeNotes.Rule.Spacing
import TypeNotes.Rule.Types

/-!
# The rules

There are nine rules. Each has a name, a summary, and a check that finds the offenses against it in
a file. Rules do not depend on each other.
-/

namespace TypeNotes

/-- A rule. -/
inductive Rule
  | invalidComment
  | invalidTypes
  | keywordSeparator
  | parametersSeparator
  | unmatchedNotes
  | embeddedSpacing
  | methodSpacing
  | variableSpacing
  | redundantWithSkip
  deriving DecidableEq, Repr

namespace Rule

/-- All rules, in the order in which they are listed. -/
def all : List Rule :=
  [invalidComment, invalidTypes, keywordSeparator, parametersSeparator, unmatchedNotes,
   embeddedSpacing, methodSpacing, variableSpacing, redundantWithSkip]

/-- The name of a rule. -/
def name : Rule → String
  | invalidComment => "invalid-comment"
  | invalidTypes => "invalid-types"
  | keywordSeparator => "keyword-separator"
  | parametersSeparator => "parameters-separator"
  | unmatchedNotes => "unmatched-annotations"
  | embeddedSpacing => "embedded-rbs-spacing"
  | methodSpacing => "method-comment-spacing"
  | variableSpacing => "variable-comment-spacing"
  | redundantWithSkip => "redundant-annotation-with-skip"

/-- What a rule asks for, in one sentence. -/
def summary : Rule → String
  | invalidComment => "Annotation comments must start with `#:` or `# @rbs`."
  | invalidTypes => "Types written in annotation comments must be valid RBS."
  | keywordSeparator => "Keyword annotations are not separated from their argument with `:`."
  | parametersSeparator => "Parameter annotations separate the name from the type with `:`."
  | unmatchedNotes => "Parameter annotations must name a parameter of the annotated method."
  | embeddedSpacing => "An `@rbs!` comment must be followed by a blank line."
  | methodSpacing => "Method annotations are placed immediately before the method definition."
  | variableSpacing => "Variable `@rbs` comments are followed by a blank line."
  | redundantWithSkip =>
    "Methods marked `@rbs skip` or `@rbs override` carry no other type annotations."

/-- The rule with a name. -/
def ofName? (s : String) : Option Rule := all.find? (·.name == s)

/-- The offenses against a rule in a file. -/
def check : Rule → Ruby.Source → List Offense
  | invalidComment => TypeNotes.invalidComment
  | invalidTypes => TypeNotes.invalidTypes
  | keywordSeparator => TypeNotes.keywordSeparator
  | parametersSeparator => TypeNotes.parametersSeparator
  | unmatchedNotes => TypeNotes.unmatchedNotes
  | embeddedSpacing => TypeNotes.embeddedSpacing
  | methodSpacing => TypeNotes.methodSpacing
  | variableSpacing => TypeNotes.variableSpacing
  | redundantWithSkip => TypeNotes.redundantWithSkip

end Rule

end TypeNotes
