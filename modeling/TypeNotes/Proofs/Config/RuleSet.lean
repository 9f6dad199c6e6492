import Mathlib.Data.List.Induction
import TypeNotes.Config.Basic
import TypeNotes.Proofs.Distinct

/-!
# The rules of a configuration

Entries for rules are taken one after another. The first entry that enables a rule gives the rule
its place, each one of them gives it a severity, and entries that disable a rule change nothing. So
the rules that are checked can be told from all entries at once (`ruleSet_eq`): the rule of each
enabled entry, without duplicates, with the severity of the last enabled entry for it.
-/

namespace TypeNotes.Config

/-- The entries that do not disable their rules. -/
def enabledEntries (entries : List RuleEntry) : List RuleEntry :=
  entries.filter fun e => e.enabled.getD true

/-- The rules that are enabled, in the order of their first enabled entries. -/
def enabledRules (entries : List RuleEntry) : List Rule :=
  ((enabledEntries entries).map (·.rule)).eraseDups

/-- The severity in the last of the entries for a rule. -/
def lastSeverity (entries : List RuleEntry) (rule : Rule) : Severity :=
  ((entries.reverse.find? (·.rule = rule)).bind (·.severity)).getD .default

/-- Each of the enabled rules, with the severity that its last enabled entry gives it. -/
def choose (entries : List RuleEntry) : RuleSet :=
  (enabledRules entries).map fun rule => (rule, lastSeverity (enabledEntries entries) rule)

theorem lastSeverity_concat (entries : List RuleEntry) (e : RuleEntry) (rule : Rule) :
    lastSeverity (entries ++ [e]) rule =
      if rule = e.rule then e.severity.getD .default else lastSeverity entries rule := by
  rw [lastSeverity, List.reverse_append, List.reverse_singleton, List.singleton_append,
    List.find?_cons, lastSeverity]
  by_cases h : rule = e.rule
  · simp [h]
  · simp [h, Ne.symm h]

theorem eraseDups_concat (rules : List Rule) (rule : Rule) :
    (rules ++ [rule]).eraseDups =
      if rule ∈ rules.eraseDups then rules.eraseDups else rules.eraseDups ++ [rule] := by
  rw [List.eraseDups_append, List.removeAll]
  by_cases h : rule ∈ rules
  · simp [h]
  · simp [h, List.eraseDups_cons]

/-- What `setSeverity` does to rules of which each has a severity of its own. -/
theorem setSeverity_map {rules : List Rule} (h : rules.Nodup) (severityOf : Rule → Severity)
    (rule : Rule) (severity : Severity) :
    setSeverity rule severity (rules.map fun r => (r, severityOf r)) =
      (if rule ∈ rules then rules else rules ++ [rule]).map fun r =>
        (r, if r = rule then severity else severityOf r) := by
  have hother : ∀ rest : List Rule, rule ∉ rest →
      (rest.map fun r => (r, if r = rule then severity else severityOf r)) =
        rest.map fun r => (r, severityOf r) := by
    intro rest hrest
    refine List.map_congr_left fun r hr => ?_
    have hne : r ≠ rule := by
      rintro rfl
      exact hrest hr
    rw [if_neg hne]
  induction rules with
  | nil => simp [setSeverity]
  | cons r rest ih =>
    obtain ⟨hr, hrest⟩ := List.nodup_cons.1 h
    rw [List.map_cons, setSeverity]
    by_cases hrule : r = rule
    · subst hrule
      simp [hother rest hr]
    · rw [if_neg hrule, ih hrest]
      by_cases hmem : rule ∈ rest
      · simp [hmem, hrule]
      · simp [hmem, hrule, Ne.symm hrule]

theorem ruleSet_eq (config : Config) : config.ruleSet = choose config.rules := by
  rw [ruleSet, ← List.foldl_filter, ← enabledEntries, choose, enabledRules]
  -- Only the entries that are enabled count; the last one of them is taken off.
  induction enabledEntries config.rules using List.reverseRecOn with
  | nil => rfl
  | append_singleton entries e ih =>
    rw [List.foldl_concat, ih, setSeverity_map (nodup_eraseDups _), List.map_append,
      List.map_singleton, eraseDups_concat]
    simp only [lastSeverity_concat]

end TypeNotes.Config
