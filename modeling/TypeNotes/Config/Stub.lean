/-!
# The stub of a configuration

A configuration to start from: it lists every rule with its severity, and says what each asks for.
-/

namespace TypeNotes.Config

/-- The lines of the stub. -/
def stubLines : List String :=
  ["# These paths are relative to the directory containing this configuration file.",
   "# Directories are searched for Ruby files, glob patterns are expanded. Paths",
   "# given on the command line take precedence over this list.",
   "files:",
   "    - ./lib",
   "    - ./app/**/*.rb",
   "",
   "rules:",
   "    # this is a list of all rules available, their parameters, and their",
   "    # default values. Comment out a rule (or set enabled: false) to disable it.",
   "    # Every rule accepts a severity of info, convention, warning or error.",
   "",
   "    # Annotation comments must start with `#:` or `# @rbs`",
   "    - rule: \"invalid-comment\"",
   "      severity: convention",
   "",
   "    # Types in annotation comments must be valid RBS",
   "    - rule: \"invalid-types\"",
   "      severity: convention",
   "",
   "    # Do not use `:` after keywords such as module-self, generic or inherits",
   "    - rule: \"keyword-separator\"",
   "      severity: convention",
   "",
   "    # Use `:` between a parameter name and its type",
   "    - rule: \"parameters-separator\"",
   "      severity: convention",
   "",
   "    # Parameter annotations must name a parameter of the method below them",
   "    - rule: \"unmatched-annotations\"",
   "      severity: convention",
   "",
   "    # `@rbs!` comments must be followed by a blank line",
   "    - rule: \"embedded-rbs-spacing\"",
   "      severity: convention",
   "",
   "    # Method annotations must sit directly above the method definition",
   "    - rule: \"method-comment-spacing\"",
   "      severity: convention",
   "",
   "    # `@rbs @ivar`, `@@cvar` and `self.@civar` comments must be followed by a blank line",
   "    - rule: \"variable-comment-spacing\"",
   "      severity: convention",
   "",
   "    # No other type annotations on methods marked `@rbs skip` or `@rbs override`",
   "    - rule: \"redundant-annotation-with-skip\"",
   "      severity: convention"]

/-- The text of the stub. -/
def stub : String := String.intercalate "\n" stubLines

end TypeNotes.Config
