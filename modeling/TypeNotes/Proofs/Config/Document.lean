import Mathlib.Data.List.Forall2
import TypeNotes.Config.Basic

/-!
# Documents

A document is a value that a configuration is loaded from. This module says which documents can be
loaded, and what each loads as, with one equivalence for each step of loading: for an entry of the
list of rules (`loadEntry_eq_ok_iff`), for the lists of rules and of files, and for the document
(`load_eq_ok_iff`). The position of an entry plays a part in faults only.

Loading leaves the document as it is but for its files, which become those of the configuration
(`loadDocument`).
-/

namespace TypeNotes

/-- Two steps succeed when the first does, and the second on its result. -/
theorem bind_eq_ok {ε α β : Type} {x : Except ε α} {f : α → Except ε β} {b : β} :
    (x >>= f) = .ok b ↔ ∃ a, x = .ok a ∧ f a = .ok b := by
  cases x with
  | error e =>
    refine iff_of_false nofun ?_
    rintro ⟨_, h, -⟩
    cases h
  | ok a =>
    refine ⟨fun h => ⟨a, rfl, h⟩, ?_⟩
    rintro ⟨_, ha, h⟩
    obtain rfl := Except.ok.inj ha
    exact h

/-- A result that is given gives nothing else. -/
theorem pure_eq_ok {ε α : Type} {a b : α} : (pure a : Except ε α) = .ok b ↔ a = b :=
  ⟨Except.ok.inj, congrArg Except.ok⟩

/-! ### Fields -/

namespace Value

/-- By `Value.sameKey`, a text is the same key as itself, and as nothing else. -/
theorem sameKey_str {k : Value} {key : String} : k.sameKey (.str key) ↔ k = .str key := by
  cases k with
  | str s => simp [sameKey, wholeNumber?]
  | float x =>
    simp only [sameKey, show wholeNumber? (.str key) = none from rfl]
    cases wholeNumber? (.float x) <;> simp
  | _ => simp [sameKey, wholeNumber?]

/-- `Value.field?` finds the first field whose key is the same. -/
theorem field?_cons (k v : Value) (fields : List (Value × Value)) (key : String) :
    field? ((k, v) :: fields) key = if k.sameKey (.str key) then some v else field? fields key := by
  rw [field?, List.find?_cons]
  split
  · rename_i h
    cases k with
    | str s => rw [if_pos (sameKey_str.2 (congrArg str (eq_of_beq h)))]; rfl
    | _ => cases h
  · rename_i h
    have hne : ¬ k.sameKey (.str key) = true := by
      rw [sameKey_str]
      rintro rfl
      simp at h
    rw [if_neg hne]
    rfl

/-- `Value.insert` puts in a field that is found under its key, and the others as before. -/
theorem field?_insert (fields : List (Value × Value)) (key key' : String) (v : Value) :
    field? (insert fields (.str key) v) key' =
      if key = key' then some v else field? fields key' := by
  induction fields with
  | nil =>
    rw [insert, field?_cons]
    simp [sameKey_str]
  | cons f fields ih =>
    obtain ⟨k, w⟩ := f
    rw [insert]
    split
    · rename_i h
      rw [field?_cons, field?_cons]
      by_cases hkey : key = key' <;> simp [sameKey_str.1 h, sameKey_str, hkey]
    · rename_i h
      rw [field?_cons, field?_cons, ih]
      split
      · rename_i h'
        rw [if_neg]
        rintro rfl
        exact h h'
      · rfl

/-- Of two values for a key that `Value.insert` puts in, the second one stays. -/
theorem insert_insert (fields : List (Value × Value)) (key : String) (v w : Value) :
    insert (insert fields (.str key) v) (.str key) w = insert fields (.str key) w := by
  induction fields with
  | nil => simp [insert, sameKey_str]
  | cons f fields ih =>
    obtain ⟨k, u⟩ := f
    rw [insert, insert]
    split
    · rename_i h
      rw [insert, if_pos h]
    · rename_i h
      rw [insert, if_neg h, ih]

end Value

/-! ### Entries of the list of rules -/

/-- `Rule.ofName?` tells a rule by its name. -/
theorem Rule.ofName?_eq_some_iff {name : String} {rule : Rule} :
    Rule.ofName? name = some rule ↔ name = rule.name := by
  constructor
  · intro h
    have hname := List.find?_some h
    exact (eq_of_beq hname).symm
  · rintro rfl
    cases rule <;> decide

namespace Config

/-- What the value of an entry is. -/
inductive Describes : Value → RuleEntry → Prop
  | map {fields : List (Value × Value)} {e : RuleEntry} (keys : ∀ f ∈ fields, isEntryKey f.1)
    (rule : Value.field? fields "rule" = some (.str e.rule.name))
    (severity : Value.field? fields "severity" = e.severity.map fun s => .str s.name)
    (enabled : Value.field? fields "enabled" = e.enabled.map .bool) : Describes (.map fields) e

/-- `severityOf?` tells a severity by its name. -/
theorem severityOf?_eq_some_iff {value : Value} {severity : Severity} :
    severityOf? value = some severity ↔ value = .str severity.name := by
  constructor
  · intro h
    cases value with
    | str name =>
      have hname := List.find?_some h
      rw [eq_of_beq hname]
    | _ => cases h
  · rintro rfl
    cases severity <;> decide

/-- `loadRule` succeeds when the entry names a rule. -/
theorem loadRule_eq_ok_iff {index : Nat} {fields : List (Value × Value)} {rule : Rule} :
    loadRule index fields = .ok rule ↔ Value.field? fields "rule" = some (.str rule.name) := by
  rw [loadRule]
  cases Value.field? fields "rule" with
  | none => simp
  | some value =>
    cases value with
    | str name =>
      rw [Option.some.injEq, Value.str.injEq, ← Rule.ofName?_eq_some_iff]
      simp only [Value.isKey, ruleOf?, if_true]
      cases Rule.ofName? name <;> simp
    | other v => cases hkey : v.isKey <;> simp [Value.isKey, ruleOf?, hkey]
    | _ => simp [Value.isKey, ruleOf?]

/-- `acceptKeys` succeeds when each key of the entry is known. -/
theorem acceptKeys_eq_ok_iff {index : Nat} {rule : Rule} {fields : List (Value × Value)}
    {u : Unit} : acceptKeys index rule fields = .ok u ↔ ∀ f ∈ fields, isEntryKey f.1 := by
  unfold acceptKeys
  simp only [List.isEmpty_iff, List.filter_eq_nil_iff, Bool.not_eq_true', Bool.not_eq_false]
  split
  · rename_i h
    exact iff_of_true rfl h
  · rename_i h
    refine iff_of_false ?_ h
    rintro ⟨⟩

/-- `loadSeverity` succeeds when the severity is left out, or named. -/
theorem loadSeverity_eq_ok_iff {index : Nat} {rule : Rule} {fields : List (Value × Value)}
    {severity : Option Severity} : loadSeverity index rule fields = .ok severity ↔
      Value.field? fields "severity" = severity.map fun s => .str s.name := by
  rw [loadSeverity]
  cases Value.field? fields "severity" with
  | none => cases severity <;> simp
  | some value =>
    cases severity with
    | none => cases h : severityOf? value <;> simp [h]
    | some s =>
      simp only [Option.map_some, Option.some.injEq, ← severityOf?_eq_some_iff]
      cases h : severityOf? value <;> simp

/-- `loadEnabled` succeeds when the switch is left out, or a truth value. -/
theorem loadEnabled_eq_ok_iff {index : Nat} {rule : Rule} {fields : List (Value × Value)}
    {enabled : Option Bool} : loadEnabled index rule fields = .ok enabled ↔
      Value.field? fields "enabled" = enabled.map .bool := by
  rw [loadEnabled]
  cases Value.field? fields "enabled" with
  | none => cases enabled <;> simp
  | some value => cases value <;> cases enabled <;> simp

/-- An entry is loaded when the value describes it (`Describes`). -/
theorem loadEntry_eq_ok_iff {index : Nat} {value : Value} {e : RuleEntry} :
    loadEntry index value = .ok e ↔ Describes value e := by
  constructor
  · intro h
    cases value with
    | map fields =>
      simp only [loadEntry, bind_eq_ok, pure_eq_ok, loadRule_eq_ok_iff, acceptKeys_eq_ok_iff,
        loadSeverity_eq_ok_iff, loadEnabled_eq_ok_iff] at h
      obtain ⟨rule, hrule, _, hkeys, severity, hseverity, enabled, henabled, rfl⟩ := h
      exact .map hkeys hrule hseverity henabled
    | _ => cases h
  · rintro ⟨hkeys, hrule, hseverity, henabled⟩
    simp only [loadEntry, bind_eq_ok, loadRule_eq_ok_iff, acceptKeys_eq_ok_iff,
      loadSeverity_eq_ok_iff, loadEnabled_eq_ok_iff]
    exact ⟨_, hrule, (), hkeys, _, hseverity, _, henabled, rfl⟩

/-- `loadEntries` succeeds when the values describe the entries one by one. -/
theorem loadEntries_eq_ok_iff {index : Nat} {values : List Value} {entries : List RuleEntry} :
    loadEntries index values = .ok entries ↔ List.Forall₂ Describes values entries := by
  induction values generalizing index entries with
  | nil => rw [loadEntries, pure_eq_ok, List.forall₂_nil_left_iff, eq_comm]
  | cons value values ih =>
    simp only [loadEntries, bind_eq_ok, pure_eq_ok, loadEntry_eq_ok_iff, ih,
      List.forall₂_cons_left_iff]
    constructor
    · rintro ⟨e, he, more, hmore, rfl⟩
      exact ⟨e, more, he, hmore, rfl⟩
    · rintro ⟨e, more, he, hmore, rfl⟩
      exact ⟨e, he, more, hmore, rfl⟩

/-- `loadRuleList` succeeds for a list of values that describe entries, at least one. -/
theorem loadRuleList_eq_ok_iff {rules : Value} {entries : List RuleEntry} :
    loadRuleList rules = .ok entries ↔
      ∃ values, rules = .list values ∧ values ≠ [] ∧ List.Forall₂ Describes values entries := by
  unfold loadRuleList
  cases rules with
  | list values =>
    cases values with
    | nil => simp [Value.isEmpty]
    | cons value values => simp [Value.isEmpty, loadEntries_eq_ok_iff]
  | _ =>
    simp only [reduceCtorEq, false_and, exists_false, iff_false]
    split <;> exact nofun

/-! ### Files -/

/-- The path that a name of a file stands for. -/
def resolve (base name : String) : String := .ofList (Path.absolute base.toList name.toList)

/-- What the value for the list of files is. -/
def ListsFiles (base : String) (value : Value) (files : List String) : Prop :=
  value.isEmpty ∧ files = [] ∨
    ∃ names : List String, value = .list (names.map .str) ∧ files = names.map (resolve base)

/-- `loadFiles` succeeds when all items are texts, each resolved by itself. -/
theorem loadFiles_eq_ok_iff {base : String} {index : Nat} {items : List Value}
    {files : List String} : loadFiles base index items = .ok files ↔
      ∃ names : List String, items = names.map .str ∧ files = names.map (resolve base) := by
  induction items generalizing index files with
  | nil =>
    rw [loadFiles, pure_eq_ok, eq_comm]
    simp
  | cons item items ih =>
    cases item with
    | str name =>
      simp only [loadFiles, bind_eq_ok, pure_eq_ok, ih]
      constructor
      · rintro ⟨more, ⟨names, rfl, rfl⟩, rfl⟩
        exact ⟨name :: names, rfl, rfl⟩
      · rintro ⟨names, hitems, rfl⟩
        obtain ⟨_, names, rfl, hname, rfl⟩ := List.map_eq_cons_iff.1 hitems.symm
        cases hname
        exact ⟨_, ⟨names, rfl, rfl⟩, rfl⟩
    | _ =>
      refine iff_of_false nofun ?_
      rintro ⟨names, hitems, -⟩
      obtain ⟨_, _, _, hname, _⟩ := List.map_eq_cons_iff.1 hitems.symm
      cases hname

/-- The list of files is loaded when the value lists them (`ListsFiles`). -/
theorem loadFileList_eq_ok_iff {base : String} {value : Value} {files : List String} :
    loadFileList base value = .ok files ↔ ListsFiles base value files := by
  unfold loadFileList ListsFiles
  split
  · rename_i hempty
    rw [Except.ok.injEq]
    constructor
    · rintro rfl
      exact .inl ⟨hempty, rfl⟩
    · rintro (⟨-, rfl⟩ | ⟨names, rfl, rfl⟩)
      · rfl
      · cases names with
        | nil => rfl
        | cons => cases hempty
  · rename_i hempty
    cases value with
    | list items => simp [hempty, loadFiles_eq_ok_iff]
    | _ => simp [hempty]

/-! ### Documents -/

/-- `Config.load` succeeds for a mapping that lists files and describes rules, and for nothing else.
-/
theorem load_eq_ok_iff {base : String} {value : Value} {config : Config} :
    load base value = .ok config ↔ ∃ fields, value = .map fields ∧
      ListsFiles base ((Value.field? fields "files").getD .null) config.files ∧
      ∃ values, Value.field? fields "rules" = some (.list values) ∧ values ≠ [] ∧
        List.Forall₂ Describes values config.rules := by
  have hrules : ∀ (fields : List (Value × Value)) (values : List Value),
      (Value.field? fields "rules").getD .null = .list values ↔
        Value.field? fields "rules" = some (.list values) := by
    intro fields values
    cases Value.field? fields "rules" <;> simp
  constructor
  · intro h
    cases value with
    | map fields =>
      simp only [load, bind_eq_ok, pure_eq_ok, loadFileList_eq_ok_iff, loadRuleList_eq_ok_iff,
        hrules] at h
      obtain ⟨files, hfiles, entries, hentries, rfl⟩ := h
      exact ⟨fields, rfl, hfiles, hentries⟩
    | _ => cases h
  · rintro ⟨fields, rfl, hfiles, hentries⟩
    simp only [load, bind_eq_ok, loadFileList_eq_ok_iff, loadRuleList_eq_ok_iff, hrules]
    exact ⟨_, hfiles, _, hentries, rfl⟩

/-- A document with these files in the place of its own. -/
def withFiles (files : List String) : Value → Value
  | .map fields => .map (Value.insert fields (.str "files") (.list (files.map .str)))
  | value => value

/-- Loads a configuration; what is left is the document with the files of the configuration. -/
def loadDocument (base : String) (value : Value) : Except ConfigFault Value := do
  let config ← load base value
  return withFiles config.files value

/-- `Config.loadDocument` succeeds when the configuration can be loaded, and writes its files into
the document. -/
theorem loadDocument_eq_ok_iff {base : String} {value document : Value} :
    loadDocument base value = .ok document ↔
      ∃ config, load base value = .ok config ∧ document = withFiles config.files value := by
  simp only [loadDocument, bind_eq_ok, pure_eq_ok, eq_comm (a := document)]

/-- With other files in it (`withFiles`), a document has the same rules. -/
theorem load_withFiles {base : String} {value : Value} {config : Config}
    (h : load base value = .ok config) (files : List String) (base' : String) :
    load base' (withFiles files value) = .ok ⟨files.map (resolve base'), config.rules⟩ := by
  obtain ⟨fields, rfl, -, values, hvalues, hne, hentries⟩ := load_eq_ok_iff.1 h
  refine load_eq_ok_iff.2 ⟨_, rfl, ?_, values, ?_, hne, hentries⟩
  · rw [Value.field?_insert, if_pos rfl]
    exact .inr ⟨files, rfl, rfl⟩
  · rw [Value.field?_insert, if_neg (by decide)]
    exact hvalues

end Config

end TypeNotes
