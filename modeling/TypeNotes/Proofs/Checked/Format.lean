import TypeNotes.Proofs.Checked.Lint
import TypeNotes.Proofs.Config.RuleSet

/-!
# Options that can be formatted

A finding is a violation whose severity is the value that the options give, whatever it is. Its line
in a report has a letter for the severity, which is looked up by the name of the severity, and that
fails if the value is none of the four names.

It does not fail for a document that can be loaded (`options_wellFormed`). The options of such a
document are those of the enabled rules, each with a severity and nothing else (`Sets`): every other
field was refused when the document was loaded, or is taken out of the options
(`onlySeverity_addEntry`).
-/

namespace TypeNotes.Checked

open Ruby

/-! ### Findings -/

/-- A violation as the options tell it. -/
structure Finding where
  path : String
  line : Nat
  column : Nat
  rule : String
  severity : Value
  message : String

/-- The letters for severities, by name. -/
def severityCodes : List (String × String) := Severity.all.map fun s => (s.name, s.code)

namespace Finding

/-- The letter for the severity. -/
def code (f : Finding) : Checked String :=
  match f.severity with
  | .str name => orFault .key (severityCodes.lookup name)
  | _ => .error .key

/-- The line of a report for a finding. -/
def format (f : Finding) : Checked String := do
  return f.path ++ ":" ++ toString f.line ++ ":" ++ toString f.column ++ ": " ++ (← f.code) ++
    ": [" ++ f.rule ++ "] " ++ f.message

/-- The violation that a finding is with this severity. -/
def toViolation (f : Finding) (severity : Severity) : Violation :=
  ⟨f.path, f.line, f.column, f.rule, severity, f.message⟩

/-- Whether a finding is not listed after another. Severities do not count. -/
def le (f g : Finding) : Bool := (f.toViolation .default).le (g.toViolation .default)

/-- A violation as a finding. -/
def ofViolation (v : Violation) : Finding :=
  ⟨v.path, v.line, v.column, v.rule, .str v.severity.name, v.message⟩

theorem format_ofViolation (v : Violation) : (ofViolation v).format = .ok v.format := by
  have hcode : (ofViolation v).code = .ok v.severity.code := by
    rw [code, ofViolation]
    cases v.severity <;> rfl
  rw [format, hcode]
  rfl

end Finding

/-- The finding for an offense against the rule with a name. -/
def finding (x : Loaded) (name : String) (fields : Fields) (o : Offense) : Checked Finding := do
  let (line, column) ← x.location o.span.start
  return ⟨x.source.path, line, column, name, ← field fields "severity", o.message⟩

/-- The findings for the rule with a name in a file. -/
def findingsOf (x : Loaded) (option : String × Fields) : Checked (List Finding) := do
  let rule ← orFault .key (Rule.ofName? option.1)
  let offenses ← check x rule
  offenses.mapM (finding x option.1 option.2)

/-- The findings for all rules with options in a file. -/
def findings (x : Loaded) (options : Options) : Checked (List Finding) := do
  return (← gather options (findingsOf x)).mergeSort Finding.le

/-! ### Options that are a severity -/

/-- The options of a rule have a severity, and no other field. -/
structure Sets (option : String × Fields) (r : Rule × Severity) : Prop where
  name : option.1 = r.1.name
  severity : Value.field? option.2 "severity" = some (.str r.2.name)
  only : ∀ f ∈ option.2, f.1 = .str "severity"

/-- There is no field in the options but severities. -/
def OnlySeverity (options : Options) : Prop :=
  ∀ option ∈ options, ∀ f ∈ option.2, f.1 = .str "severity"

theorem sets_of_resolves {options : Options} {rules : RuleSet} (h : Resolves options rules)
    (honly : OnlySeverity options) : List.Forall₂ Sets options rules := by
  induction options generalizing rules with
  | nil =>
    rw [List.map_eq_nil_iff.1 h.symm]
    exact .nil
  | cons option options ih =>
    obtain ⟨r, rest, rfl, hfirst, hrest⟩ := List.map_eq_cons_iff.1 h.symm
    obtain ⟨hoption, hoptions⟩ := List.forall_mem_cons.1 honly
    obtain ⟨hname, hseverity⟩ := resolve?_eq_some.1 hfirst.symm
    exact .cons ⟨hname, hseverity, hoption⟩ (ih hrest.symm hoptions)

theorem onlySeverity_setOptions {options : Options} (h : OnlySeverity options) {name : String}
    {fields : Fields} (hfields : ∀ f ∈ fields, f.1 = .str "severity") :
    OnlySeverity (setOptions name fields options) := by
  induction options with
  | nil => exact List.forall_mem_singleton.2 hfields
  | cons option options ih =>
    obtain ⟨hoption, hoptions⟩ := List.forall_mem_cons.1 h
    rw [setOptions]
    split
    · exact List.forall_mem_cons.2 ⟨hfields, hoptions⟩
    · exact List.forall_mem_cons.2 ⟨hoption, ih hoptions⟩

theorem mem_dropField {fields : Fields} {key : String} {f : Value × Value} :
    f ∈ dropField fields key ↔ f ∈ fields ∧ f.1 ≠ .str key := by
  rw [dropField, List.mem_filter]
  refine and_congr_right fun _ => ?_
  obtain ⟨k, v⟩ := f
  cases k <;> simp

/-- Of the keys that an entry may have (`isEntryKey`), two are taken out. -/
theorem key_of_mem_dropField {fields : Fields} (hkeys : ∀ f ∈ fields, Config.isEntryKey f.1)
    {f : Value × Value} (h : f ∈ dropField (entryFields fields) "enabled") :
    f.1 = .str "severity" := by
  obtain ⟨h, henabled⟩ := mem_dropField.1 h
  obtain ⟨h, hrule⟩ := mem_dropField.1 h
  rcases List.mem_append.1 h with h | h
  · have hkey := hkeys f h
    obtain ⟨k, v⟩ := f
    cases k with
    | str s => simp_all [Config.isEntryKey, Config.entryKeys]
    | _ => cases hkey
  · rw [List.mem_singleton.1 h]

theorem onlySeverity_addEntry {value : Value} {e : RuleEntry} (hentry : Config.Describes value e)
    {options options' : Options} (h : OnlySeverity options)
    (hadd : addEntry options value = .ok options') : OnlySeverity options' := by
  obtain ⟨hkeys, hrule, -, -⟩ := hentry
  rw [addEntry_map hrule, Except.ok.injEq] at hadd
  subst hadd
  split
  · exact h
  · exact onlySeverity_setOptions h fun _ => key_of_mem_dropField hkeys

theorem onlySeverity_foldlM {values : List Value} {entries : List RuleEntry}
    (hentries : List.Forall₂ Config.Describes values entries) {options options' : Options}
    (h : OnlySeverity options) (hfold : values.foldlM addEntry options = .ok options') :
    OnlySeverity options' := by
  induction hentries generalizing options with
  | nil =>
    obtain rfl := Except.ok.inj hfold
    exact h
  | cons hentry _ ih =>
    rw [List.foldlM_cons] at hfold
    obtain ⟨more, hadd, hfold⟩ := bind_eq_ok.1 hfold
    exact ih (onlySeverity_addEntry hentry h hadd) hfold

/-- The options for a value that can be loaded set the severities of the rules in it (`Sets`). -/
theorem exists_options {base : String} {value : Value} {config : Config}
    (h : Config.load base value = .ok config) :
    ∃ options, ruleOptions (some value) = .ok options ∧
      List.Forall₂ Sets options (Config.choose config.rules) := by
  obtain ⟨options, hoptions, hresolves⟩ := exists_ruleOptions h
  refine ⟨options, hoptions, ?_⟩
  rw [← Config.ruleSet_eq]
  refine sets_of_resolves hresolves ?_
  obtain ⟨fields, rfl, -, values, hvalues, -, hentries⟩ := Config.load_eq_ok_iff.1 h
  rw [ruleOptions, fieldsOf, ok_bind, field, hvalues, orFault, ok_bind, itemsOf, ok_bind]
    at hoptions
  exact onlySeverity_foldlM hentries (List.forall_mem_nil _) hoptions

/-! ### Findings under such options -/

theorem findingsOf_eq (s : Source) {option : String × Fields} {r : Rule × Severity}
    (h : Sets option r) : findingsOf (.ofSource s) option =
      .ok ((r.1.check s).map fun o => .ofViolation (.ofOffense s r.1 r.2 o)) := by
  obtain ⟨name, fields⟩ := option
  obtain ⟨rfl, hseverity, -⟩ := h
  have hfield : field fields "severity" = .ok (.str r.2.name) := by rw [field, hseverity, orFault]
  rw [findingsOf, Rule.ofName?_eq_some_iff.2 rfl, orFault, ok_bind, check_eq, ok_bind]
  refine mapM_eq_ok fun o _ => ?_
  rw [finding, Loaded.location_ofSource, ok_bind]
  simp only [hfield, ok_bind]
  rfl

/-- `findings` are the violations of the rules that are set. -/
theorem findings_eq (s : Source) {options : Options} {rules : RuleSet}
    (h : List.Forall₂ Sets options rules) :
    findings (.ofSource s) options = .ok ((TypeNotes.lint rules s).map .ofViolation) := by
  have hall : List.Forall₂ (fun option found => findingsOf (.ofSource s) option = .ok found) options
      (rules.map fun r => (r.1.check s).map fun o => .ofViolation (.ofOffense s r.1 r.2 o)) :=
    List.forall₂_map_right_iff.2 (h.imp fun _ _ => findingsOf_eq s)
  have hsort : ∀ l : List Violation, (l.map Finding.ofViolation).mergeSort Finding.le =
      (l.mergeSort Violation.le).map Finding.ofViolation := by
    intro l
    rw [List.map_mergeSort]
    exact fun _ _ _ _ => rfl
  rw [findings, gather, mapM_of_forall₂ hall, ok_bind, pure_eq, ok_bind, pure_eq, TypeNotes.lint,
    ← hsort, List.map_flatMap, List.flatMap_def]
  simp only [List.map_map]
  rfl

/-- **Options that can be formatted.** Let a document be loaded as a configuration, whose entries
stand for the items of its list of rules. Then the options for what loading leaves of the document
are found. They are those of the rules with an enabled entry, in the order of the first such
entries; each has a severity, which is that of the last such entry, and no other field. With these
options all findings in any text are formatted, and give the report of the configuration. -/
theorem options_wellFormed {base : String} {value : Value} {config : Config}
    (h : Config.load base value = .ok config) :
    (∃ fields values, Config.withFiles config.files value = .map fields ∧
        Value.field? fields "rules" = some (.list values) ∧
        List.Forall₂ Config.Describes values config.rules) ∧
      ∃ options, ruleOptions (some (Config.withFiles config.files value)) = .ok options ∧
        List.Forall₂ Sets options (Config.choose config.rules) ∧
        ∀ (path : String) (text : List Char), ∃ x found, load path text = .ok x ∧
          findings x options = .ok found ∧ found.mapM Finding.format = .ok
            ((TypeNotes.lint (Config.choose config.rules) ⟨path, text⟩).map Violation.format) := by
  have hload := Config.load_withFiles h config.files base
  obtain ⟨fields, hfields, -, values, hvalues, -, hentries⟩ := Config.load_eq_ok_iff.1 hload
  obtain ⟨options, hoptions, hsets⟩ := exists_options hload
  refine ⟨⟨fields, values, hfields, hvalues, hentries⟩, options, hoptions, hsets, ?_⟩
  intro path text
  refine ⟨.ofSource ⟨path, text⟩, _, load_eq ⟨path, text⟩, findings_eq _ hsets, ?_⟩
  refine mapM_of_forall₂ ?_
  rw [List.forall₂_map_left_iff, List.forall₂_map_right_iff, List.forall₂_same]
  exact fun v _ => Finding.format_ofViolation v

/-- Rules that are disabled, enabled again, and given other severities. -/
theorem options_wellFormed_reenabled :
    let entry (rule : String) (fields : Fields) : Value := .map ((.str "rule", .str rule) :: fields)
    let severity (name : String) : Value × Value := (.str "severity", .str name)
    let enabled (b : Bool) : Value × Value := (.str "enabled", .bool b)
    let document : Value := .map [(.str "rules", .list [
      entry "invalid-types" [severity "error", enabled false], entry "invalid-comment" [],
      entry "invalid-types" [severity "warning"], entry "invalid-comment" [severity "error"],
      entry "invalid-types" [enabled true],
      entry "invalid-comment" [severity "info", enabled false]])]
    ∃ options x found, ruleOptions (some (Config.withFiles [] document)) = .ok options ∧
      List.Forall₂ Sets options [(.invalidComment, .error), (.invalidTypes, .convention)] ∧
      load "a.rb" "# @rbs x: (\n".toList = .ok x ∧ findings x options = .ok found ∧
      found.mapM Finding.format =
        .ok ["a.rb:1:12: C: [invalid-types] Invalid annotation found: unexpected end of input, " ++
          "expected a type"] := by
  intro entry severity enabled document
  have hload : Config.load "/" document = .ok ⟨[], [⟨.invalidTypes, some .error, some false⟩,
      ⟨.invalidComment, none, none⟩, ⟨.invalidTypes, some .warning, none⟩,
      ⟨.invalidComment, some .error, none⟩, ⟨.invalidTypes, none, some true⟩,
      ⟨.invalidComment, some .info, some false⟩]⟩ := rfl
  obtain ⟨-, options, hoptions, hsets, hfound⟩ := options_wellFormed hload
  obtain ⟨x, found, hx, hfindings, hformat⟩ := hfound "a.rb" "# @rbs x: (\n".toList
  refine ⟨options, x, found, hoptions, hsets, hx, hfindings, ?_⟩
  rw [hformat]
  exact congrArg Except.ok (by decide +kernel)

end TypeNotes.Checked
