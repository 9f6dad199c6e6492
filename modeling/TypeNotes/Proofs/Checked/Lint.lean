import TypeNotes.Proofs.Checked.Rule
import TypeNotes.Proofs.Config.Document

/-!
# Linting

What is checked in a file, and how severe it is, is told by options: a mapping for each rule that is
to be checked. They come from the value of a configuration. Rules, severities and the fields of
values are looked up by name, which fails if there is none of this name.

**Configurations.** A value that can be loaded has all fields that are looked up. The options made
of it stand for the rules and severities of the configuration (`Resolves`), one entry after another.

**Result.** Nothing fails for any text and any value that can be loaded (`lint_never_fails`).
-/

namespace TypeNotes.Checked

open Ruby

/-! ### Options -/

/-- The fields of a mapping. If two have the same key, the first one counts. -/
abbrev Fields : Type := List (Value × Value)

/-- The options of each rule that is to be checked, by its name. -/
abbrev Options : Type := List (String × Fields)

/-- The value of a field. -/
def field (fields : Fields) (key : String) : Checked Value := orFault .key (Value.field? fields key)

/-- The fields without those that have a key. -/
def dropField (fields : Fields) (key : String) : Fields :=
  fields.filter fun (k, _) => match k with
    | .str s => s != key
    | _ => true

/-- Takes a field out, which has to be there. -/
def removeField (fields : Fields) (key : String) : Checked Fields := do
  let _ ← field fields key
  return dropField fields key

/-- The fields of a value that is a mapping. -/
def fieldsOf : Value → Checked Fields
  | .map fields => .ok fields
  | _ => .error .form

/-- The items of a value that is a list. -/
def itemsOf : Value → Checked (List Value)
  | .list items => .ok items
  | _ => .error .form

/-- The options that a rule has if it is given none. -/
def defaultFields : Fields := [(.str "severity", .str Severity.default.name)]

/-- All rules with the options that they have if they are given none. -/
def defaults : Options := Rule.all.map fun rule => (rule.name, defaultFields)

/-- The options in a mapping by names for a value that is a name of it. -/
def optionsOf (options : Options) : Value → Checked (String × Fields)
  | .str name => do return (name, ← orFault .key (options.lookup name))
  | _ => .error .key

/-- Sets the options of a rule, at its place if it has one, or else at the end. -/
def setOptions (name : String) (fields : Fields) : Options → Options
  | [] => [(name, fields)]
  | (n, f) :: rest =>
    if n = name then (n, fields) :: rest else (n, f) :: setOptions name fields rest

/-- Adds the options in an entry of a configuration, unless its rule is disabled there. -/
def addEntry (options : Options) (entry : Value) : Checked Options := do
  let given ← fieldsOf entry
  let (name, known) ← optionsOf defaults (← field given "rule")
  let fields ← removeField (given ++ known) "rule"
  let enabled := (Value.field? fields "enabled").getD (.bool true)
  if enabled.isEmpty then return options
  else return setOptions name (dropField fields "enabled") options

/-- The options for a configuration, or for none. -/
def ruleOptions : Option Value → Checked Options
  | none => .ok defaults
  | some value => do
    let entries ← itemsOf (← field (← fieldsOf value) "rules")
    entries.foldlM addEntry []

/-! ### Linting -/

/-- The violation for an offense against the rule with a name. -/
def violation (x : Loaded) (name : String) (fields : Fields) (o : Offense) : Checked Violation := do
  let (line, column) ← x.location o.span.start
  let severity ← orFault .key (Config.severityOf? (← field fields "severity"))
  return ⟨x.source.path, line, column, name, severity, o.message⟩

/-- The violations of the rule with a name in a file. -/
def violations (x : Loaded) (option : String × Fields) : Checked (List Violation) := do
  let rule ← orFault .key (Rule.ofName? option.1)
  let offenses ← check x rule
  offenses.mapM (violation x option.1 option.2)

/-- The violations of all rules with options in a file. -/
def lint (x : Loaded) (options : Options) : Checked (List Violation) := do
  return (← gather options (violations x)).mergeSort Violation.le

/-! ### What options stand for -/

/-- The rule and the severity that a name and options stand for. -/
def resolve? (option : String × Fields) : Option (Rule × Severity) := do
  let rule ← Rule.ofName? option.1
  let severity ← (Value.field? option.2 "severity").bind Config.severityOf?
  return (rule, severity)

/-- Options stand for rules and severities. -/
def Resolves (options : Options) (rules : RuleSet) : Prop := options.map resolve? = rules.map some

theorem resolve?_eq_some {option : String × Fields} {rule : Rule} {severity : Severity} :
    resolve? option = some (rule, severity) ↔ option.1 = rule.name ∧
      Value.field? option.2 "severity" = some (.str severity.name) := by
  simp [resolve?, Option.bind_eq_some_iff, Rule.ofName?_eq_some_iff, Config.severityOf?_eq_some_iff]

theorem resolves_defaults : Resolves defaults RuleSet.all := by
  rw [Resolves, defaults, RuleSet.all, List.map_map, List.map_map]
  refine List.map_congr_left fun rule _ => ?_
  exact resolve?_eq_some.2 ⟨rfl, rfl⟩

theorem resolves_setOptions {options : Options} {rules : RuleSet} (h : Resolves options rules)
    {name : String} {fields : Fields} {rule : Rule} {severity : Severity}
    (hresolve : resolve? (name, fields) = some (rule, severity)) :
    Resolves (setOptions name fields options) (Config.setSeverity rule severity rules) := by
  have hname := (resolve?_eq_some.1 hresolve).1
  induction options generalizing rules with
  | nil =>
    rw [List.map_eq_nil_iff.1 h.symm]
    simp [Resolves, setOptions, Config.setSeverity, hresolve]
  | cons option options ih =>
    obtain ⟨⟨r, severity'⟩, rest, rfl, hfirst, hrest⟩ := List.map_eq_cons_iff.1 h.symm
    have hoption := (resolve?_eq_some.1 hfirst.symm).1
    obtain ⟨n, f⟩ := option
    -- Names are the same if and only if their rules are.
    by_cases hsame : n = name
    · have hrule : r = rule := by
        rw [hsame, hname, ← Rule.ofName?_eq_some_iff, Rule.ofName?_eq_some_iff.2 rfl] at hoption
        exact (Option.some.inj hoption).symm
      rw [setOptions, Config.setSeverity, if_pos hsame, if_pos hrule]
      rw [Resolves, List.map_cons, List.map_cons, hrest, hsame, hresolve, hrule]
    · have hrule : r ≠ rule := by
        rintro rfl
        exact hsame (hoption.trans hname.symm)
      have htail := ih hrest.symm
      rw [Resolves] at htail
      rw [setOptions, Config.setSeverity, if_neg hsame, if_neg hrule]
      rw [Resolves, List.map_cons, List.map_cons, htail, hfirst]

/-! ### Entries of a configuration -/

theorem field?_append (fields more : Fields) (key : String) :
    Value.field? (fields ++ more) key = (Value.field? fields key).or (Value.field? more key) := by
  rw [Value.field?, List.find?_append, Value.field?, Value.field?]
  cases fields.find? _ <;> rfl

theorem field?_dropField {key key' : String} (h : key ≠ key') (fields : Fields) :
    Value.field? (dropField fields key') key = Value.field? fields key := by
  rw [Value.field?, Value.field?, dropField, List.find?_filter]
  congr 2
  funext f
  obtain ⟨k, _⟩ := f
  cases k with
  | str s =>
    by_cases hs : s = key
    · simp [hs, h]
    · simp [hs]
  | _ => rfl

theorem lookup_defaults (rule : Rule) : defaults.lookup rule.name = some defaultFields := by
  cases rule <;> rfl

/-- The fields of an entry with those that a rule has otherwise, as options. -/
def entryFields (fields : Fields) : Fields := dropField (fields ++ defaultFields) "rule"

theorem field?_entryFields {key : String} (h : key ≠ "rule") (fields : Fields) :
    Value.field? (entryFields fields) key =
      (Value.field? fields key).or (Value.field? defaultFields key) := by
  rw [entryFields, field?_dropField h, field?_append]

theorem addEntry_map {fields : Fields} {rule : Rule}
    (hrule : Value.field? fields "rule" = some (.str rule.name)) (options : Options) :
    addEntry options (.map fields) =
      .ok (if ((Value.field? (entryFields fields) "enabled").getD (.bool true)).isEmpty then options
        else setOptions rule.name (dropField (entryFields fields) "enabled") options) := by
  have hfield : field fields "rule" = .ok (.str rule.name) := by rw [field, hrule, orFault]
  have hoptions : optionsOf defaults (.str rule.name) = .ok (rule.name, defaultFields) := by
    rw [optionsOf, lookup_defaults rule]
    rfl
  have hremove : removeField (fields ++ defaultFields) "rule" = .ok (entryFields fields) := by
    rw [removeField, field, field?_append, hrule]
    rfl
  rw [addEntry, fieldsOf, ok_bind, hfield, ok_bind, hoptions, ok_bind]
  simp only [hremove, ok_bind, pure_eq]
  rw [apply_ite Except.ok]

/-- `addEntry` adds the options in an entry that can be loaded to those that there are, as the entry
is added to the rules. -/
theorem exists_addEntry {value : Value} {e : RuleEntry} (hentry : Config.Describes value e)
    {options : Options} {rules : RuleSet} (h : Resolves options rules) :
    ∃ options', addEntry options value = .ok options' ∧ Resolves options'
      (if e.enabled.getD true then
        Config.setSeverity e.rule (e.severity.getD Severity.default) rules
      else rules) := by
  obtain @⟨fields, e, -, hrule, hseverity, henabled⟩ := hentry
  have henabled : Value.field? (entryFields fields) "enabled" = e.enabled.map .bool := by
    rw [field?_entryFields (by decide), henabled]
    exact Option.or_none
  have hresolve : resolve? (e.rule.name, dropField (entryFields fields) "enabled") =
      some (e.rule, e.severity.getD Severity.default) := by
    refine resolve?_eq_some.2 ⟨rfl, ?_⟩
    rw [field?_dropField (by decide), field?_entryFields (by decide), hseverity]
    cases e.severity with
    | none => rfl
    | some severity => rfl
  refine ⟨_, addEntry_map hrule options, ?_⟩
  rw [henabled]
  cases e.enabled with
  | none => exact resolves_setOptions h hresolve
  | some b =>
    cases b with
    | true => exact resolves_setOptions h hresolve
    | false => exact h

/-- The options in entries that can be loaded are added one after another. -/
theorem exists_foldlM_addEntry {values : List Value} {entries : List RuleEntry}
    (hentries : List.Forall₂ Config.Describes values entries) {options : Options} {rules : RuleSet}
    (h : Resolves options rules) :
    ∃ options', values.foldlM addEntry options = .ok options' ∧
      Resolves options' (entries.foldl (fun rules e =>
        if e.enabled.getD true then
          Config.setSeverity e.rule (e.severity.getD Severity.default) rules
        else rules) rules) := by
  induction hentries generalizing options rules with
  | nil => exact ⟨options, rfl, h⟩
  | cons hentry _ ih =>
    obtain ⟨options', hadd, hresolves⟩ := exists_addEntry hentry h
    obtain ⟨options'', hfold, hresolves'⟩ := ih hresolves
    exact ⟨options'', by rw [List.foldlM_cons, hadd, ok_bind, hfold], hresolves'⟩

/-- `ruleOptions` are found for a value that can be loaded, and stand for the rules of the
configuration. -/
theorem exists_ruleOptions {base : String} {value : Value} {config : Config}
    (h : Config.load base value = .ok config) :
    ∃ options, ruleOptions (some value) = .ok options ∧ Resolves options config.ruleSet := by
  obtain ⟨fields, rfl, -, values, hvalues, -, hentries⟩ := Config.load_eq_ok_iff.1 h
  have hnone : Resolves [] [] := rfl
  obtain ⟨options, hfold, hresolves⟩ := exists_foldlM_addEntry hentries hnone
  refine ⟨options, ?_, hresolves⟩
  rw [ruleOptions, fieldsOf, ok_bind, field, hvalues, orFault, ok_bind, itemsOf, ok_bind, hfold]

/-! ### Linting -/

theorem violation_eq (s : Source) {name : String} {fields : Fields} {rule : Rule}
    {severity : Severity} (h : resolve? (name, fields) = some (rule, severity)) (o : Offense) :
    violation (.ofSource s) name fields o = .ok (.ofOffense s rule severity o) := by
  obtain ⟨rfl, hseverity⟩ := resolve?_eq_some.1 h
  have hfield : field fields "severity" = .ok (.str severity.name) := by
    rw [field, hseverity, orFault]
  have hvalue := Config.severityOf?_eq_some_iff.2 (Eq.refl (Value.str severity.name))
  rw [violation, Loaded.location_ofSource, ok_bind, Violation.ofOffense]
  simp only [hfield, ok_bind, hvalue]
  rfl

theorem violations_eq (s : Source) {option : String × Fields} {rule : Rule} {severity : Severity}
    (h : resolve? option = some (rule, severity)) :
    violations (.ofSource s) option =
      .ok ((rule.check s).map (Violation.ofOffense s rule severity)) := by
  have hname := Rule.ofName?_eq_some_iff.2 (resolve?_eq_some.1 h).1
  rw [violations, hname, orFault, ok_bind, check_eq, ok_bind]
  exact mapM_eq_ok fun o _ => violation_eq s h o

theorem lint_eq (s : Source) {options : Options} {rules : RuleSet} (h : Resolves options rules) :
    lint (.ofSource s) options = .ok (TypeNotes.lint rules s) := by
  -- What an option stands for says what is found, so that all of `options` find what `rules` do.
  let found : Option (Rule × Severity) → List Violation
    | none => []
    | some (rule, severity) => (rule.check s).map (Violation.ofOffense s rule severity)
  have hfound : ∀ option ∈ options, violations (.ofSource s) option = .ok (found (resolve? option)) := by
    intro option hoption
    have hmem : resolve? option ∈ rules.map some := h ▸ List.mem_map_of_mem hoption
    obtain ⟨⟨rule, severity⟩, -, hresolve⟩ := List.mem_map.1 hmem
    rw [violations_eq s hresolve.symm, ← hresolve]
  have hflat : options.flatMap (fun option => found (resolve? option)) =
      rules.flatMap fun r => found (some r) := by
    rw [← List.flatMap_map, h, List.flatMap_map]
  rw [lint, gather_eq_ok hfound, ok_bind, pure_eq, hflat]
  rfl

/-- **Linting never fails.** Every text is loaded, with a stack of modes that keeps the first mode
at its bottom; its notes are read; each rule is checked; and so are all rules, and those of a value
that can be loaded as a configuration. -/
theorem lint_never_fails (path : String) (text : List Char) :
    ∃ x, load path text = .ok x ∧
      (∃ stack, Lexer.maskLines (Text.lines text) = .ok (maskLines (Text.lines text), stack) ∧
        Lexer.isGrounded stack) ∧
      blocksWithNotes x.comments =
        .ok ((Source.mk path text).blocks.map fun b => (b, b.notes)) ∧
      (∀ rule : Rule, check x rule = .ok (rule.check ⟨path, text⟩)) ∧
      (∃ options, ruleOptions none = .ok options ∧
        lint x options = .ok (TypeNotes.lint .all ⟨path, text⟩)) ∧
      ∀ (base : String) (value : Value) (config : Config), Config.load base value = .ok config →
        ∃ options, ruleOptions (some value) = .ok options ∧
          lint x options = .ok (TypeNotes.lint config.ruleSet ⟨path, text⟩) := by
  refine ⟨.ofSource ⟨path, text⟩, load_eq ⟨path, text⟩, Lexer.exists_maskLines _,
    blocksWithNotes_eq ⟨path, text⟩, check_eq ⟨path, text⟩,
    ⟨defaults, rfl, lint_eq _ resolves_defaults⟩, ?_⟩
  intro base value config hload
  obtain ⟨options, hoptions, hresolves⟩ := exists_ruleOptions hload
  exact ⟨options, hoptions, lint_eq _ hresolves⟩

/-- A signature that is cut short, under a configuration with one rule. -/
theorem lint_cut_signature :
    ∃ x options, load "a.rb" "# @rbs a: Hash[\ndef f(a); end".toList = .ok x ∧
      ruleOptions (some (.map [(.str "rules", .list [.map [(.str "rule", .str "invalid-types"),
        (.str "severity", .str "error")]])])) = .ok options ∧
      lint x options = .ok [⟨"a.rb", 1, 16, "invalid-types", .error,
        "Invalid annotation found: unexpected end of input, expected a type"⟩] := by
  obtain ⟨x, hload, -, -, -, -, hconfig⟩ :=
    lint_never_fails "a.rb" "# @rbs a: Hash[\ndef f(a); end".toList
  obtain ⟨options, hoptions, hlint⟩ := hconfig "/"
    (.map [(.str "rules", .list [.map [(.str "rule", .str "invalid-types"),
      (.str "severity", .str "error")]])]) ⟨[], [⟨.invalidTypes, some .error, none⟩]⟩ rfl
  refine ⟨x, options, hload, hoptions, ?_⟩
  rw [hlint]
  exact congrArg Except.ok (by decide +kernel)

end TypeNotes.Checked
