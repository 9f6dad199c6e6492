import Mathlib.Data.List.Nodup
import Mathlib.Data.Prod.Lex
import Mathlib.Data.String.Basic
import TypeNotes.Violation

/-!
# Reports are canonical

A report lists violations by line, column, rule and words. It depends on which rules are checked and
how severe they are, and not on the order in which they are given; and what it says about some of
the rules is what a report about these rules alone says (`lint_canonical`).

**The key.** `Violation.key` is what violations are listed by, as a tuple in lexicographic order.
Within a report the key tells everything about a violation: the path is that of the file, and the
severity is that of the rule (`eq_of_key_eq`). So a list of its violations can be in order in one
way only, ties included (`eq_of_perm_of_sorted`), and both halves of the statement compare two
sorted lists with the same members.
-/

namespace TypeNotes

open Ruby

/-! ### The key of a violation -/

/-- What violations are listed by: the line, then the column, the name of the rule, the words. -/
def Violation.key (v : Violation) : ℕ ×ₗ ℕ ×ₗ String ×ₗ String :=
  toLex (v.line, toLex (v.column, toLex (v.rule, v.message)))

/-- `Text.le` compares texts by the numbers of their characters, as strings are compared. -/
theorem Text.le_iff (s t : List Char) : Text.le s t ↔ ¬ List.Lex (· < ·) t s := by
  induction s generalizing t with
  | nil => simp [Text.le]
  | cons c s ih =>
    cases t with
    | nil => simp [Text.le]
    | cons d t =>
      have hlt : c.toNat < d.toNat ↔ c < d := Iff.rfl
      have horder : (c < d ∨ c = d ∧ Text.le s t) ↔ ¬ (d < c ∨ d = c ∧ ¬ Text.le s t) := by
        rcases lt_trichotomy c d with h | h | h
        · simp [h, h.not_gt, h.ne']
        · simp [h]
        · simp [h, h.not_gt, h.ne']
      rw [List.cons_lex_cons_iff, ← not_iff_comm.1 (ih t).symm, ← horder]
      simp only [Text.le, Bool.or_eq_true, Bool.and_eq_true, decide_eq_true_eq, beq_iff_eq, hlt]

theorem Text.le_toList_iff (s t : String) : Text.le s.toList t.toList ↔ s ≤ t := by
  rw [Text.le_iff, ← not_lt, String.lt_iff_toList_lt]
  rfl

namespace Violation

theorem le_iff_key_le (a b : Violation) : a.le b ↔ a.key ≤ b.key := by
  have hrule : (!Text.le b.rule.toList a.rule.toList) = true ↔ a.rule < b.rule := by
    rw [Bool.not_eq_true', ← Bool.not_eq_true, Text.le_toList_iff, not_le]
  simp only [le, Bool.or_eq_true, Bool.and_eq_true, decide_eq_true_eq, beq_iff_eq, hrule,
    Text.le_toList_iff, key, Prod.Lex.toLex_le_toLex]

theorem key_eq_iff (a b : Violation) : a.key = b.key ↔
    a.line = b.line ∧ a.column = b.column ∧ a.rule = b.rule ∧ a.message = b.message := by
  simp only [key, toLex_inj, Prod.mk.injEq]

end Violation

theorem Rule.name_injective : Function.Injective Rule.name := by
  intro a b h
  cases a <;> cases b <;> first | rfl | exact absurd h (by decide)

/-! ### What is reported before it is sorted -/

/-- The violations of rules in a file, rule by rule. -/
def findings (rules : RuleSet) (s : Source) : List Violation :=
  rules.flatMap fun (rule, severity) => (rule.check s).map (Violation.ofOffense s rule severity)

theorem lint_perm (rules : RuleSet) (s : Source) : (lint rules s).Perm (findings rules s) :=
  List.mergeSort_perm _ _

theorem sorted_lint (rules : RuleSet) (s : Source) :
    (lint rules s).Pairwise fun a b => a.key ≤ b.key := by
  have hsorted : (lint rules s).Pairwise fun a b => a.le b := by
    refine List.pairwise_mergeSort (fun a b c hab hbc => ?_) (fun a b => ?_) _
    · rw [Violation.le_iff_key_le] at hab hbc ⊢
      exact hab.trans hbc
    · rw [Bool.or_eq_true, Violation.le_iff_key_le, Violation.le_iff_key_le]
      exact le_total a.key b.key
  exact hsorted.imp fun h => (Violation.le_iff_key_le _ _).1 h

/-- One of the `findings` tells the file, and a rule with its severity. -/
theorem exists_of_mem_findings {rules : RuleSet} {s : Source} {v : Violation}
    (h : v ∈ findings rules s) :
    ∃ rule severity, (rule, severity) ∈ rules ∧ v.path = s.path ∧ v.rule = rule.name ∧
      v.severity = severity := by
  obtain ⟨⟨rule, severity⟩, hmem, hv⟩ := List.mem_flatMap.1 h
  obtain ⟨o, -, rfl⟩ := List.mem_map.1 hv
  exact ⟨rule, severity, hmem, rfl, rfl, rfl⟩

/-- Where each rule has one severity, `Violation.key` tells everything about a violation. -/
theorem eq_of_key_eq {rules : RuleSet} (hrules : (rules.map Prod.fst).Nodup) {s : Source}
    {a b : Violation} (ha : a ∈ findings rules s) (hb : b ∈ findings rules s)
    (h : a.key = b.key) : a = b := by
  obtain ⟨rule, severity, hmem, hpath, hrule, hseverity⟩ := exists_of_mem_findings ha
  obtain ⟨rule', severity', hmem', hpath', hrule', hseverity'⟩ := exists_of_mem_findings hb
  obtain ⟨hline, hcolumn, hname, hmessage⟩ := (Violation.key_eq_iff a b).1 h
  obtain rfl : rule = rule' := Rule.name_injective (hrule.symm.trans (hname.trans hrule'))
  have hsame : severity = severity' :=
    congrArg Prod.snd (List.inj_on_of_nodup_map hrules hmem hmem' rfl)
  obtain ⟨path, line, column, name, severity, message⟩ := a
  obtain ⟨path', line', column', name', severity', message'⟩ := b
  simp_all

/-- Violations of a file can be listed in order in one way only. -/
theorem eq_of_perm_of_sorted {rules : RuleSet} (hrules : (rules.map Prod.fst).Nodup) {s : Source}
    {l l' : List Violation} (hl : l.Pairwise fun a b => a.key ≤ b.key)
    (hl' : l'.Pairwise fun a b => a.key ≤ b.key) (hfound : l ⊆ findings rules s)
    (hperm : l.Perm l') : l = l' := by
  refine List.Perm.eq_of_pairwise (fun a b ha hb hab hba => ?_) hl hl' hperm
  exact eq_of_key_eq hrules (hfound ha) (hfound (hperm.symm.subset hb)) (le_antisymm hab hba)

/-- Of some rules, the `findings` are those when only these are checked. -/
theorem filter_findings (rules : RuleSet) (s : Source) (chosen : List Rule) :
    (findings rules s).filter (fun v => (chosen.map Rule.name).contains v.rule) =
      findings (rules.filter fun r => chosen.contains r.1) s := by
  induction rules with
  | nil => rfl
  | cons r rules ih =>
    obtain ⟨rule, severity⟩ := r
    have hname : (chosen.map Rule.name).contains rule.name = chosen.contains rule := by
      rw [Bool.eq_iff_iff, List.contains_iff_mem, List.contains_iff_mem,
        List.mem_map_of_injective Rule.name_injective]
    have hhere : ((rule.check s).map (Violation.ofOffense s rule severity)).filter
        (fun v => (chosen.map Rule.name).contains v.rule) =
          if chosen.contains rule then (rule.check s).map (Violation.ofOffense s rule severity)
          else [] := by
      have hall : ∀ v ∈ (rule.check s).map (Violation.ofOffense s rule severity),
          (chosen.map Rule.name).contains v.rule = chosen.contains rule := by
        intro v hv
        obtain ⟨o, -, rfl⟩ := List.mem_map.1 hv
        exact hname
      rw [List.filter_congr hall]
      cases chosen.contains rule <;> simp
    rw [findings, List.flatMap_cons, List.filter_append, ← findings, ih, hhere, List.filter_cons]
    cases chosen.contains rule <;> simp [findings]

/-! ### Reports -/

/-- **Canonical reports.** Let each rule be given once, with its severity. Then the report is the
same in whatever order the rules are given, it is sorted by line, column, rule and words, and its
violations of any of the rules are, in order, the report about these rules alone. -/
theorem lint_canonical (rules : RuleSet) (hrules : (rules.map Prod.fst).Nodup) (s : Source) :
    (∀ rules', rules'.Perm rules → lint rules' s = lint rules s) ∧
      ((lint rules s).Pairwise fun a b => a.key ≤ b.key) ∧
      ∀ chosen : List Rule,
        (lint rules s).filter (fun v => (chosen.map Rule.name).contains v.rule) =
          lint (rules.filter fun r => chosen.contains r.1) s := by
  have hfound : lint rules s ⊆ findings rules s := (lint_perm rules s).subset
  refine ⟨fun rules' hperm => ?_, sorted_lint rules s, fun chosen => ?_⟩
  · refine (eq_of_perm_of_sorted hrules (sorted_lint rules s) (sorted_lint rules' s) hfound ?_).symm
    calc (lint rules s).Perm (findings rules s) := lint_perm rules s
      _ |>.Perm (findings rules' s) := (hperm.flatMap_right _).symm
      _ |>.Perm (lint rules' s) := (lint_perm rules' s).symm
  · refine eq_of_perm_of_sorted hrules ((sorted_lint rules s).filter _) (sorted_lint _ s)
      (List.Subset.trans (List.filter_subset_self _) hfound) ?_
    have hfilter := (lint_perm rules s).filter fun v => (chosen.map Rule.name).contains v.rule
    rw [filter_findings] at hfilter
    exact hfilter.trans (lint_perm _ s).symm

/-- Two rules that find something at the same place, given in one order and in the other. -/
theorem lint_canonical_tie :
    let rules : RuleSet := [(.methodSpacing, .error), (.invalidComment, .info)]
    let s : Source := .ofText "# @rbs x: A\n# () -> A".toList
    (findings rules s).map (fun v => (v.line, v.column, v.rule)) =
        [(2, 1, "method-comment-spacing"), (2, 1, "invalid-comment")] ∧
      lint rules.reverse s = lint rules s ∧
      (lint rules s).Pairwise (fun a b => a.key ≤ b.key) ∧
      (lint rules s).filter (fun v => ["invalid-comment"].contains v.rule) =
        lint [(.invalidComment, .info)] s := by
  intro rules s
  have hrules : (rules.map Prod.fst).Nodup := by decide
  have hfindings : (findings rules s).map (fun v => (v.line, v.column, v.rule)) =
      [(2, 1, "method-comment-spacing"), (2, 1, "invalid-comment")] := by decide +kernel
  obtain ⟨horder, hsorted, hsome⟩ := lint_canonical rules hrules s
  exact ⟨hfindings, horder _ rules.reverse_perm, hsorted, hsome [.invalidComment]⟩

end TypeNotes
