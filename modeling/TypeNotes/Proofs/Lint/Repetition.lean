import Mathlib.Data.List.Pairwise
import TypeNotes.Proofs.Distinct
import TypeNotes.Proofs.Lint.Report
import TypeNotes.Proofs.Note.Grouping
import TypeNotes.Proofs.Rule.Place

/-!
# Violations that are reported twice

A report has no two equal violations, with one exception: the rule about skipped methods looks at
the block above each method, and where two methods share what it finds, it is reported for both of
them (`pairwise_key_lint_iff`).

**Places.** The line and column of an offense tell the position at which it starts, so two
violations of a rule are equal if their offenses start at the same position with the same words
(`Offense.Alike`). The other eight rules find at most one offense at a position: in each comment, in
each note or after each block, or because duplicates are erased.
-/

namespace TypeNotes

open Ruby

/-! ### Offenses that are reported alike -/

/-- The offenses start at the same position and have the same words. -/
def Offense.Alike (a b : Offense) : Prop :=
  a.span.start = b.span.start ∧ a.message = b.message

theorem Offense.Alike.symm {a b : Offense} (h : a.Alike b) : b.Alike a := ⟨h.1.symm, h.2.symm⟩

/-- No two of the offenses are alike. -/
def Distinct (offenses : List Offense) : Prop := offenses.Pairwise fun a b => ¬ a.Alike b

theorem distinct_of_pairwise_start_lt {offenses : List Offense}
    (h : offenses.Pairwise fun a b => a.span.start < b.span.start) : Distinct offenses := by
  refine h.imp fun {a b} hlt halike => ?_
  exact Nat.ne_of_lt hlt halike.1

/-- `Offense.sort` makes no offenses alike that were not. -/
theorem distinct_sort_iff (offenses : List Offense) :
    Distinct (Offense.sort offenses) ↔ Distinct offenses :=
  (Offense.sort_perm offenses).pairwise_iff fun hab hba => hab hba.symm

section Rules

variable {s : Source}

/-- Where offenses start on lines (`Offense.StartsOn`), equal locations are those of the same
position. -/
theorem Offense.StartsOn.location_eq_iff {a b : Offense} {m n : Nat} (ha : a.StartsOn s m)
    (hb : b.StartsOn s n) :
    s.location a.span.start = s.location b.span.start ↔ a.span.start = b.span.start := by
  obtain ⟨column, ha⟩ := ha
  obtain ⟨column', hb⟩ := hb
  rw [Source.location_of_names ha, Source.location_of_names hb]
  constructor
  · intro hplace
    rw [hplace] at ha
    exact ha.offset_eq hb
  · intro hstart
    rw [hstart] at ha
    exact ha.unique hb

/-- The keys of two violations are equal if they are of one rule and their offenses are alike
(`Offense.Alike`). -/
theorem key_ofOffense_eq_iff {rule rule' : Rule} (severity severity' : Severity) {o o' : Offense}
    (ho : o ∈ rule.check s) (ho' : o' ∈ rule'.check s) :
    (Violation.ofOffense s rule severity o).key = (Violation.ofOffense s rule' severity' o').key ↔
      rule = rule' ∧ o.Alike o' := by
  have hstart : ∀ (r : Rule) (a : Offense), a ∈ r.check s → ∃ number, a.StartsOn s number := by
    intro r a ha
    obtain ⟨c, -, hon | hon⟩ := Rule.exists_startsOn_of_mem_check ha
    · exact ⟨c.line, hon⟩
    · exact ⟨c.line + 1, hon⟩
  obtain ⟨number, hm⟩ := hstart rule o ho
  obtain ⟨number', hm'⟩ := hstart rule' o' ho'
  rw [Violation.key_eq_iff, Offense.Alike, ← hm.location_eq_iff hm', Prod.ext_iff,
    ← Rule.name_injective.eq_iff]
  simp only [Violation.ofOffense]
  tauto

/-! ### Rules that report nothing twice -/

theorem distinct_invalidTypes (s : Source) : Distinct (invalidTypes s) := by
  rw [invalidTypes_eq_sort, distinct_sort_iff]
  refine distinct_of_pairwise_start_lt (pairwise_start_lt_notes fun n hn o ho => ?_)
  obtain ⟨e, he, rfl⟩ := Option.map_eq_some_iff.1 ho
  exact startsIn_typeOffense hn he

theorem distinct_unmatchedNotes (s : Source) : Distinct (unmatchedNotes s) := by
  rw [unmatchedNotes_eq_sort, distinct_sort_iff]
  have hnotes := pairwise_start_lt_notes (s := s)
    (f := fun n => n.named?.map (CrossReference.offense s)) fun n hn o ho => by
      obtain ⟨named, hname, rfl⟩ := Option.map_eq_some_iff.1 ho
      exact startsIn_offense hn hname
  exact distinct_of_pairwise_start_lt (hnotes.sublist (unmatchedNotes_sublist s))

/-- After runs, the offense for a line is the same for all runs that end above it. -/
theorem distinct_missingBlankLines (s : Source) (message : String)
    (opens : Comment → Option (Comment → Bool)) :
    Distinct (missingBlankLines s message (runEnds opens s.comments)) := by
  rw [runEnds_eq_map_runs, missingBlankLines_map]
  refine (nodup_eraseDups _).imp_of_mem fun {o o'} ho ho' hne halike => hne ?_
  obtain ⟨r, -, hr⟩ := List.mem_filterMap.1 (List.mem_eraseDups.1 ho)
  obtain ⟨r', -, hr'⟩ := List.mem_filterMap.1 (List.mem_eraseDups.1 ho')
  have hon := (startsOn_of_missingBlank? hr).2
  obtain ⟨column, hon'⟩ := (startsOn_of_missingBlank? hr').2
  rw [← halike.1] at hon'
  have hline : r.last.line + 1 = r'.last.line + 1 := hon.unique ⟨column, hon'⟩
  rw [Nat.succ.inj hline, hr'] at hr
  exact (Option.some.inj hr).symm

/-- All other rules report nothing twice. -/
theorem Rule.distinct_check_of_ne {rule : Rule} (h : rule ≠ .redundantWithSkip) (s : Source) :
    Distinct (rule.check s) := by
  cases rule with
  | invalidComment =>
    exact distinct_of_pairwise_start_lt (onComments_invalidComment s).pairwise_start_lt
  | invalidTypes => exact distinct_invalidTypes s
  | keywordSeparator =>
    exact distinct_of_pairwise_start_lt (onComments_keywordSeparator s).pairwise_start_lt
  | parametersSeparator =>
    exact distinct_of_pairwise_start_lt (onComments_parametersSeparator s).pairwise_start_lt
  | unmatchedNotes => exact distinct_unmatchedNotes s
  | embeddedSpacing => exact distinct_missingBlankLines s _ _
  | methodSpacing => exact distinct_of_pairwise_start_lt (pairwise_start_lt_methodSpacing s)
  | variableSpacing => exact distinct_missingBlankLines s _ _
  | redundantWithSkip => exact absurd rfl h

/-! ### The rule about skipped methods -/

/-- The words for a type behind the parameters. -/
def resultMessage : String :=
  "Redundant trailing return type annotation. " ++
    "`@rbs skip` and `@rbs override` skip RBS generation."

theorem message_of_redundantResult? {d : Declaration} {o : Offense}
    (h : redundantResult? s.comments d = some o) : o.message = resultMessage := by
  obtain ⟨c, -, rfl⟩ := Option.map_eq_some_iff.1 h
  rfl

theorem SkipMark.message_ne (first second : SkipMark) : first.message second ≠ resultMessage := by
  cases first <;> cases second <;> decide

theorem redundancy?_ne (n : Note) : redundancy? n ≠ some resultMessage := by
  unfold redundancy?
  split
  all_goals decide

/-- `redundantNotes` are called redundant in other words. -/
theorem message_ne_of_mem_redundantNotes {first : Option SkipMark} {notes : List Note}
    {y : Note × String} (h : y ∈ redundantNotes first notes) : y.2 ≠ resultMessage := by
  induction notes generalizing first with
  | nil => cases h
  | cons n notes ih =>
    rw [redundantNotes] at h
    split at h
    · rename_i mark _
      split at h
      · exact ih h
      · rename_i earlier
        rcases List.mem_cons.1 h with rfl | h
        · exact SkipMark.message_ne earlier mark
        · exact ih h
    · rcases List.mem_append.1 h with h | h
      · obtain ⟨message, hmessage, rfl⟩ := Option.map_eq_some_iff.1 (Option.mem_toList.1 h)
        rintro rfl
        exact redundancy?_ne n hmessage
      · exact ih h

/-- `redundantUnder` one declaration nothing is reported twice. -/
theorem distinct_redundantUnder {b : CommentBlock} (hb : b ∈ s.blocks) (d : Declaration) :
    Distinct (redundantUnder s d b) := by
  have hnotes : (redundantNotes none b.notes).Pairwise fun y y' => y.1.Before y'.1 := by
    have hsub := List.sublist_flatten_of_mem (List.mem_map_of_mem (f := CommentBlock.notes) hb)
    rw [← List.flatMap_def] at hsub
    exact List.pairwise_map.1
      (s.pairwise_notes.sublist ((redundantNotes_sublist none b.notes).trans hsub))
  refine List.pairwise_append.2 ⟨List.pairwise_map.2 (hnotes.imp_of_mem ?_), ?_, ?_⟩
  · intro y y' hy hy' hbefore halike
    have hn := notes_subset_of_mem_blocks hb (mem_of_mem_redundantNotes hy)
    have hn' := notes_subset_of_mem_blocks hb (mem_of_mem_redundantNotes hy')
    have hlt := (startsIn_span hn y.2).start_lt (startsIn_span hn' y'.2) hbefore
    exact Nat.ne_of_lt hlt halike.1
  · cases redundantResult? s.comments d <;> simp
  · intro o ho o' ho' halike
    obtain ⟨y, hy, rfl⟩ := List.mem_map.1 ho
    have hmessage := message_of_redundantResult? (Option.mem_toList.1 ho')
    exact message_ne_of_mem_redundantNotes hy (halike.2.trans hmessage)

/-- Methods that share nothing which is redundant on them. If both are marked and stand on one line,
then they are under one block, and nothing else is noted in it. If their parameters end on one line,
then no type stands behind them. -/
def ReportedApart (s : Source) (d d' : Declaration) : Prop :=
  ∀ b ∈ markedBlock? s d, ∀ b' ∈ markedBlock? s d',
    (d.line = d'.line → redundantNotes none b.notes = []) ∧
      (d.parametersEndLine = d'.parametersEndLine → redundantResult? s.comments d = none)

instance (s : Source) : DecidableRel (ReportedApart s) := fun d d' =>
  inferInstanceAs (Decidable (∀ b ∈ markedBlock? s d, ∀ b' ∈ markedBlock? s d', _))

theorem reportedApart_iff (d d' : Declaration) : ReportedApart s d d' ↔
    ∀ b ∈ markedBlock? s d, ∀ b' ∈ markedBlock? s d', ∀ o ∈ redundantUnder s d b,
      ∀ o' ∈ redundantUnder s d' b', ¬ o.Alike o' := by
  refine forall₂_congr fun b hmarked => forall₂_congr fun b' hmarked' => ?_
  obtain ⟨hb, hline⟩ := leadingBlock?_of_markedBlock? hmarked
  obtain ⟨hb', hline'⟩ := leadingBlock?_of_markedBlock? hmarked'
  constructor
  · rintro ⟨hnotes, hresult⟩ o ho o' ho' ⟨hstart, hmessage⟩
    rcases List.mem_append.1 ho with ho | ho
    · obtain ⟨y, hy, rfl⟩ := List.mem_map.1 ho
      rcases List.mem_append.1 ho' with ho' | ho'
      · -- The notes start with the same comment, so their blocks are one.
        obtain ⟨y', hy', rfl⟩ := List.mem_map.1 ho'
        have hfirst : y.1.first ∈ b.comments :=
          CommentBlock.comments_subset_of_mem_notes (mem_of_mem_redundantNotes hy) List.mem_cons_self
        have hfirst' : y'.1.first ∈ b'.comments :=
          CommentBlock.comments_subset_of_mem_notes (mem_of_mem_redundantNotes hy') List.mem_cons_self
        have hsame := eq_of_start_eq ((CommentBlock.sublist_of_mem_group hb).subset hfirst)
          ((CommentBlock.sublist_of_mem_group hb').subset hfirst') hstart
        rw [← hsame] at hfirst'
        obtain rfl := eq_of_mem_comments_of_mem_blocks hb hb' hfirst hfirst'
        rw [hnotes (hline.symm.trans hline')] at hy
        cases hy
      · have hresult' := message_of_redundantResult? (Option.mem_toList.1 ho')
        exact message_ne_of_mem_redundantNotes hy (hmessage.trans hresult')
    · have ho := Option.mem_toList.1 ho
      rcases List.mem_append.1 ho' with ho' | ho'
      · obtain ⟨y', hy', rfl⟩ := List.mem_map.1 ho'
        exact message_ne_of_mem_redundantNotes hy'
          (hmessage.symm.trans (message_of_redundantResult? ho))
      · obtain ⟨c, hc, hend, hspan⟩ := exists_of_redundantResult? ho
        obtain ⟨c', hc', hend', hspan'⟩ := exists_of_redundantResult? (Option.mem_toList.1 ho')
        rw [hspan, hspan'] at hstart
        obtain rfl := eq_of_start_eq hc hc' hstart
        rw [hresult (hend.symm.trans hend')] at ho
        cases ho
  · intro hapart
    refine ⟨fun hlines => ?_, fun hends => ?_⟩
    · have hsame : markedBlock? s d = markedBlock? s d' := by
        rw [markedBlock?, markedBlock?, hlines]
      rw [hsame] at hmarked
      obtain rfl := Option.some.inj (hmarked.symm.trans hmarked')
      rw [List.eq_nil_iff_forall_not_mem]
      intro y hy
      have ho := List.mem_map_of_mem (f := fun (y : Note × String) => Offense.mk y.1.span y.2) hy
      exact hapart _ (List.mem_append_left _ ho) _ (List.mem_append_left _ ho) ⟨rfl, rfl⟩
    · have hsame : redundantResult? s.comments d = redundantResult? s.comments d' := by
        rw [redundantResult?, redundantResult?, hends]
      rw [Option.eq_none_iff_forall_not_mem]
      intro o ho
      have ho' : o ∈ (redundantResult? s.comments d').toList := by rwa [← hsame, Option.mem_toList]
      exact hapart o (List.mem_append_right _ (Option.mem_toList.2 ho)) o
        (List.mem_append_right _ ho') ⟨rfl, rfl⟩

/-- `redundantWithSkip` reports nothing twice when the declarations are reported apart. -/
theorem distinct_redundantWithSkip_iff (s : Source) :
    Distinct (redundantWithSkip s) ↔ s.declarations.Pairwise (ReportedApart s) := by
  rw [redundantWithSkip_eq_sort, distinct_sort_iff, Distinct,
    List.pairwise_flatMap]
  have hmethod : ∀ d ∈ s.declarations, ((markedBlock? s d).toList.flatMap
      (redundantUnder s d)).Pairwise fun a b => ¬ a.Alike b := by
    intro d _
    cases hmarked : markedBlock? s d with
    | none => exact .nil
    | some b =>
      rw [Option.toList_some, List.flatMap_singleton]
      exact distinct_redundantUnder (leadingBlock?_of_markedBlock? hmarked).1 d
  rw [and_iff_right hmethod]
  refine Iff.of_eq (congrArg (s.declarations.Pairwise ·) ?_)
  funext d d'
  rw [reportedApart_iff]
  simp only [List.mem_flatMap, Option.mem_toList, Option.mem_def]
  refine propext ⟨?_, ?_⟩
  · intro h b hb b' hb' o ho o' ho'
    exact h o ⟨b, hb, ho⟩ o' ⟨b', hb', ho'⟩
  · rintro h o ⟨b, hb, ho⟩ o' ⟨b', hb', ho'⟩
    exact h b hb b' hb' o ho o' ho'

end Rules

/-! ### Reports -/

/-- A report repeats nothing if none of its rules does. -/
theorem pairwise_key_lint (rules : RuleSet) (hrules : (rules.map Prod.fst).Nodup) (s : Source) :
    ((lint rules s).Pairwise fun a b => a.key ≠ b.key) ↔
      ∀ rule ∈ rules.map Prod.fst, Distinct (rule.check s) := by
  rw [(lint_perm rules s).pairwise_iff fun h => h.symm, findings, List.pairwise_flatMap]
  have hrules' : rules.Pairwise fun r r' => ∀ v ∈ (r.1.check s).map (Violation.ofOffense s r.1 r.2),
      ∀ v' ∈ (r'.1.check s).map (Violation.ofOffense s r'.1 r'.2), v.key ≠ v'.key := by
    refine (List.pairwise_map.1 hrules).imp fun {r r'} hne v hv v' hv' hkey => hne ?_
    obtain ⟨o, ho, rfl⟩ := List.mem_map.1 hv
    obtain ⟨o', ho', rfl⟩ := List.mem_map.1 hv'
    exact ((key_ofOffense_eq_iff _ _ ho ho').1 hkey).1
  rw [and_iff_left hrules', List.forall_mem_map]
  refine forall₂_congr fun r _ => ?_
  rw [List.pairwise_map]
  refine ⟨fun h => h.imp_of_mem ?_, fun h => h.imp_of_mem ?_⟩
  · intro o o' ho ho' hne halike
    exact hne ((key_ofOffense_eq_iff _ _ ho ho').2 ⟨rfl, halike⟩)
  · intro o o' ho ho' hne hkey
    exact hne ((key_ofOffense_eq_iff _ _ ho ho').1 hkey).2

/-- **Violations that are reported twice.** Let each rule be given once. Then no two violations of a
report agree in line, column, rule and words, in every file, with one exception: the rule about
skipped methods repeats itself where methods share what is redundant on them. -/
theorem pairwise_key_lint_iff (rules : RuleSet) (hrules : (rules.map Prod.fst).Nodup) (s : Source) :
    ((lint rules s).Pairwise fun a b => a.key ≠ b.key) ↔
      (.redundantWithSkip ∈ rules.map Prod.fst → s.declarations.Pairwise (ReportedApart s)) := by
  rw [pairwise_key_lint rules hrules, ← distinct_redundantWithSkip_iff]
  constructor
  · intro h hmem
    exact h .redundantWithSkip hmem
  · intro h rule hmem
    by_cases hrule : rule = .redundantWithSkip
    · subst hrule
      exact h hmem
    · exact Rule.distinct_check_of_ne hrule s

/-- Two marked methods with redundant notes, each under a block of its own. -/
theorem pairwise_key_lint_two_methods :
    (lint .all (.ofText ("# @rbs skip\n# @rbs a: A\ndef m(a); end\n\n" ++
      "# @rbs skip\n# @rbs a: A\ndef n(a) #: void").toList)).Pairwise fun a b => a.key ≠ b.key := by
  refine (pairwise_key_lint_iff .all (by decide) _).2 fun _ => ?_
  decide +kernel

/-- Two methods on one line, under a block that marks them as skipped and has another note. -/
theorem not_pairwise_key_lint_one_line :
    ¬ (lint .all (.ofText "# @rbs skip\n# @rbs a: A\ndef m(a); end; def n(a); end".toList)).Pairwise
      fun a b => a.key ≠ b.key := by
  rw [pairwise_key_lint .all (by decide)]
  intro h
  have hdistinct := h .redundantWithSkip (by decide)
  rw [Rule.check, distinct_redundantWithSkip_iff] at hdistinct
  revert hdistinct
  decide +kernel

end TypeNotes
