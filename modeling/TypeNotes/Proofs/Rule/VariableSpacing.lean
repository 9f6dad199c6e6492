import Mathlib.Data.List.Sort
import TypeNotes.Proofs.Distinct
import TypeNotes.Proofs.Rule.EmbeddedExtent

/-!
# Which lines lack a blank line before them

The rule about notes on variables goes through all comments on variables, follows each of them to
the end of its run, and reports the line after it once. What it comes to is told line by line: a
line is reported if and only if the line above carries a comment on a variable, the line itself
carries none, and it is not blank (`variableSpacing_eq_lines`).

**Comments on variables** are told by how they are spelled (`Shape.NotesVariable`).

**Runs.** The last comment of a run is on a variable, and no comment on the next line is, for it
would go on with the run (`runEnd_spec`). So the lines on which runs end are those that carry a
comment on a variable above a line that does not (`exists_variableRun_iff`), however many runs end
there.

**Order.** Lines and offenses are in the same order, and the offenses of a rule are the same list as
those of the lines because both are in order and have the same members.
-/

namespace TypeNotes

open Ruby Unicode

/-! ### Comments on variables -/

namespace Shape

/-- How a comment on a variable starts: a hash sign, the marker `@rbs` with white space on both
sides, possibly `self.`, one or two at signs, and a letter or an underscore. -/
def NotesVariable (text : List Char) : Prop :=
  ∃ gap space owner signs c after,
    text = '#' :: (gap ++ ("@rbs".toList ++ (space ++ (owner ++ (signs ++ c :: after))))) ∧
      (gap ≠ [] ∧ ∀ d ∈ gap, isSpace d) ∧ (space ≠ [] ∧ ∀ d ∈ space, isSpace d) ∧
      (owner = [] ∨ owner = "self.".toList) ∧ (signs = ['@'] ∨ signs = ['@', '@']) ∧
      isNameStart c

/-- `afterMarker?`, spelled out with the white space on both sides. -/
theorem afterMarker?_eq_some_iff_append {s t : List Char} : afterMarker? s = some t ↔
    ∃ gap space, s = '#' :: (gap ++ ("@rbs".toList ++ (space ++ t))) ∧
      (gap ≠ [] ∧ ∀ d ∈ gap, isSpace d) ∧ (space ≠ [] ∧ ∀ d ∈ space, isSpace d) ∧
      ∀ d ∈ t.head?, isSpace d = false := by
  rw [afterMarker?_eq_some_iff]
  constructor
  · rintro ⟨body, gap, rest, rfl, hne, hspells, hrest⟩
    obtain ⟨space, rfl, hspace, hall, ht⟩ := afterSpace?_eq_some_iff.1 hrest
    exact ⟨gap, space, congrArg ('#' :: ·) hspells.body, ⟨hne, hspells.space⟩, ⟨hspace, hall⟩, ht⟩
  · rintro ⟨gap, space, rfl, ⟨hne, hgap⟩, ⟨hspace, hall⟩, ht⟩
    have hrest := afterSpace?_eq_some_iff.2 ⟨space, rfl, hspace, hall, ht⟩
    refine ⟨_, gap, space ++ t, rfl, hne, ⟨rfl, hgap, rfl, ?_⟩, hrest⟩
    cases space with
    | nil => exact absurd rfl hspace
    | cons d space => exact hall d List.mem_cons_self

/-- What stands behind the marker of a comment on a variable starts with no white space. -/
theorem isSpace_head?_variable {owner signs : List Char}
    (howner : owner = [] ∨ owner = "self.".toList) (hsigns : signs = ['@'] ∨ signs = ['@', '@'])
    (c : Char) (after : List Char) :
    ∀ d ∈ (owner ++ (signs ++ c :: after)).head?, isSpace d = false := by
  intro d hd
  rcases howner with rfl | rfl
  · rcases hsigns with rfl | rfl
    all_goals
      obtain rfl : '@' = d := Option.some.inj hd
      decide
  · obtain rfl : 's' = d := Option.some.inj hd
    decide

theorem isVariableComment_iff {text : List Char} :
    isVariableComment text = true ↔ NotesVariable text := by
  constructor
  · intro h
    unfold isVariableComment at h
    split at h
    · cases h
    · rename_i rest hmarker
      obtain ⟨gap, space, rfl, hgap, hspace, -⟩ := afterMarker?_eq_some_iff_append.1 hmarker
      obtain ⟨owner, howner, hrest⟩ : ∃ owner, (owner = [] ∨ owner = "self.".toList) ∧
          rest = owner ++ (Text.after? "self.".toList rest).getD rest := by
        cases hself : Text.after? "self.".toList rest with
        | none => exact ⟨[], .inl rfl, rfl⟩
        | some t => exact ⟨_, .inr rfl, after?_eq_some_iff.1 hself⟩
      simp only at h
      split at h
      · rename_i c after hat
        rw [hat] at hrest
        exact ⟨gap, space, owner, ['@', '@'], c, after, by rw [hrest]; rfl, hgap, hspace, howner,
          .inr rfl, h⟩
      · rename_i c after _ hat
        rw [hat] at hrest
        exact ⟨gap, space, owner, ['@'], c, after, by rw [hrest]; rfl, hgap, hspace, howner,
          .inl rfl, h⟩
      · cases h
  · rintro ⟨gap, space, owner, signs, c, after, rfl, hgap, hspace, howner, hsigns, hc⟩
    have hmarker := afterMarker?_eq_some_iff_append.2 ⟨gap, space, rfl, hgap, hspace,
      isSpace_head?_variable howner hsigns c after⟩
    have hne : c ≠ '@' := by
      rintro rfl
      exact absurd hc (by decide)
    have hself : (Text.after? "self.".toList (owner ++ (signs ++ c :: after))).getD
        (owner ++ (signs ++ c :: after)) = signs ++ c :: after := by
      rcases howner with rfl | rfl
      · rcases hsigns with rfl | rfl
        · rfl
        · rfl
      · rw [after?_eq_some_iff.2 rfl, Option.getD_some]
    rw [isVariableComment, hmarker]
    simp only [hself]
    rcases hsigns with rfl | rfl
    · simp [hne, hc]
    · exact hc

instance (text : List Char) : Decidable (NotesVariable text) :=
  decidable_of_iff _ isVariableComment_iff

end Shape

/-! ### Runs of comments on variables -/

/-- `runEnd` is the first comment of the run or continues it, and no comment on the next line
continues it. -/
theorem runEnd_spec (continues : Comment → Bool) (c : Comment) {rest : List Comment}
    (hlines : (c :: rest).Pairwise fun a b => a.line < b.line) :
    (runEnd continues c rest = c ∨
        runEnd continues c rest ∈ rest ∧ continues (runEnd continues c rest) = true) ∧
      ∀ d ∈ rest, d.line = (runEnd continues c rest).line + 1 → continues d = false := by
  induction rest generalizing c with
  | nil => exact ⟨.inl rfl, by simp⟩
  | cons d rest ih =>
    obtain ⟨hbelow, hrest⟩ := List.pairwise_cons.1 hlines
    rw [runEnd]
    split
    · rename_i hnext
      obtain ⟨-, hcontinues⟩ := Bool.and_eq_true_iff.1 hnext
      obtain ⟨hend, hmaximal⟩ := ih d hrest
      refine ⟨.inr ?_, List.forall_mem_cons.2 ⟨fun hline => ?_, hmaximal⟩⟩
      · rcases hend with heq | ⟨hmem, hend⟩
        · rw [heq]
          exact ⟨List.mem_cons_self, hcontinues⟩
        · exact ⟨List.mem_cons_of_mem _ hmem, hend⟩
      · have hle := line_le_runEnd continues d rest
        omega
    · rename_i hnext
      have hself : runEnd continues c (d :: rest) = c := by rw [runEnd, if_neg hnext]
      refine ⟨.inl rfl, ?_⟩
      rw [← runEnd_eq_self_iff hlines]
      exact hself

/-- Comments on variables go on with a run of such comments. -/
def isVariable (c : Comment) : Bool := Shape.isVariableComment c.text

/-- Comments on variables open runs. -/
def opensVariable (c : Comment) : Option (Comment → Bool) :=
  if isVariable c then some isVariable else none

/-- The runs of comments on variables in a file. -/
def variableRuns (s : Source) : List Run := runs opensVariable s.comments

theorem variableSpacing_eq (s : Source) :
    variableSpacing s =
      missingBlankLines s "`@rbs` variable comment must be followed by a blank line."
        ((variableRuns s).map (·.last)) := by
  rw [variableSpacing, variableRuns, ← runEnds_eq_map_runs]
  rfl

/-- The line with a number carries a comment on a variable. -/
def CarriesVariable (s : Source) (number : Nat) : Prop :=
  ∃ c ∈ s.comments, c.line = number ∧ Shape.NotesVariable c.text

instance (s : Source) (number : Nat) : Decidable (CarriesVariable s number) :=
  inferInstanceAs (Decidable (∃ c ∈ s.comments, _))

theorem carriesVariable_of_mem {s : Source} {c : Comment} (hc : c ∈ s.comments)
    (hvariable : isVariable c = true) : CarriesVariable s c.line :=
  ⟨c, hc, rfl, Shape.isVariableComment_iff.1 hvariable⟩

/-- `variableRuns` end where a line with a comment on a variable is followed by one without. -/
theorem exists_variableRun_iff {s : Source} {number : Nat} :
    (∃ r ∈ variableRuns s, r.last.line = number) ↔
      CarriesVariable s number ∧ ¬ CarriesVariable s (number + 1) := by
  have hsorted := s.pairwise_lines
  constructor
  · rintro ⟨r, hr, rfl⟩
    obtain ⟨above, below, continues, hcomments, hopens, hlast⟩ := exists_of_mem_runs hr
    obtain ⟨hopener, hcontinues⟩ := Option.ite_none_right_eq_some.1 hopens
    obtain rfl := Option.some.inj hcontinues
    rw [hcomments] at hsorted
    obtain ⟨-, hbelow, habove⟩ := List.pairwise_append.1 hsorted
    obtain ⟨hend, hmaximal⟩ := runEnd_spec isVariable r.opener hbelow
    rw [← hlast] at hend hmaximal
    constructor
    · rcases hend with heq | ⟨hmem, hvariable⟩
      · rw [heq]
        exact carriesVariable_of_mem (by simp [hcomments]) hopener
      · exact carriesVariable_of_mem (by simp [hcomments, hmem]) hvariable
    · -- A comment on the next line stands below the opener, where it would go on with the run.
      rintro ⟨d, hd, hline, hvariable⟩
      have hle := line_le_of_mem_runs hr
      rw [hcomments] at hd
      rcases List.mem_append.1 hd with hfront | hback
      · have hlt := habove d hfront r.opener List.mem_cons_self
        omega
      · rcases List.mem_cons.1 hback with rfl | hback
        · omega
        · have hnot := hmaximal d hback hline
          rw [isVariable, Shape.isVariableComment_iff.2 hvariable] at hnot
          cases hnot
  · rintro ⟨⟨c, hc, rfl, hvariable⟩, hnot⟩
    obtain ⟨above, below, hcomments⟩ := List.append_of_mem hc
    have hopens : opensVariable c = some isVariable :=
      if_pos (Shape.isVariableComment_iff.2 hvariable)
    rw [hcomments] at hsorted
    have hself : runEnd isVariable c below = c := by
      rw [runEnd_eq_self_iff (List.pairwise_append.1 hsorted).2.1]
      intro d hd hline
      rw [Bool.eq_false_iff]
      intro hnext
      have hcarries := carriesVariable_of_mem (s := s) (by simp [hcomments, hd]) hnext
      rw [hline] at hcarries
      exact hnot hcarries
    have hrun := mem_runs hopens above below
    rw [← hcomments, hself] at hrun
    exact ⟨_, hrun, rfl⟩

/-! ### Lines -/

/-- A blank line is missing before the line with a number: the line above carries a comment on a
variable, the line itself carries none, and it is not blank. -/
def LacksBlankLine (s : Source) (number : Nat) : Prop :=
  CarriesVariable s (number - 1) ∧ ¬ CarriesVariable s number ∧ s.isBlankLine number = false

instance (s : Source) (number : Nat) : Decidable (LacksBlankLine s number) :=
  inferInstanceAs (Decidable (_ ∧ _))

/-- The offense of a line, with this index, before which a blank line is missing. It is shown at the
whole line without the carriage returns at its end. -/
def variableOffense (s : Source) (line : List Char) (index : Nat) : Offense :=
  ⟨⟨lineStart s.lines index, lineStart s.lines index + (Text.dropReturns line).length⟩,
    "`@rbs` variable comment must be followed by a blank line."⟩

/-- The offenses, told line by line. -/
def variableOffenses (s : Source) : List Offense :=
  s.lines.zipIdx.filterMap fun (line, index) =>
    if LacksBlankLine s (index + 1) then some (variableOffense s line index) else none

theorem mem_variableOffenses_iff {s : Source} {o : Offense} : o ∈ variableOffenses s ↔
    ∃ line index, s.lines[index]? = some line ∧ LacksBlankLine s (index + 1) ∧
      variableOffense s line index = o := by
  simp only [variableOffenses, List.mem_filterMap, Prod.exists, List.mem_zipIdx_iff_getElem?,
    Option.ite_none_right_eq_some, Option.some.injEq]

theorem startsOn_variableOffense {s : Source} {line : List Char} {index : Nat}
    (hline : s.lines[index]? = some line) :
    (variableOffense s line index).StartsOn s (index + 1) := by
  refine startsOn_line ?_
  rw [Source.lineSpan?_succ, hline, Option.map_some]
  rfl

/-- `variableOffenses` are in the order of the lines. -/
theorem pairwise_variableOffenses (s : Source) :
    (variableOffenses s).Pairwise fun a b => a.span.start < b.span.start := by
  have hindices : s.lines.zipIdx.Pairwise fun a b => a.2 < b.2 := by
    rw [← List.pairwise_map (f := Prod.snd), List.zipIdx_map_snd]
    exact List.pairwise_lt_range'
  refine List.pairwise_filterMap.2 (hindices.imp_of_mem ?_)
  rintro ⟨line, index⟩ ⟨line', index'⟩ hmem hmem' hlt o ho o' ho'
  obtain rfl := Option.some.inj (Option.ite_none_right_eq_some.1 ho).2
  obtain rfl := Option.some.inj (Option.ite_none_right_eq_some.1 ho').2
  have hstart := startsOn_variableOffense (List.mem_zipIdx_iff_getElem?.1 hmem)
  have hstart' := startsOn_variableOffense (List.mem_zipIdx_iff_getElem?.1 hmem')
  exact hstart.start_lt hstart' (Nat.succ_lt_succ hlt)

/-- No two of `variableOffenses` start at the same place. -/
theorem nodup_start_variableOffenses (s : Source) :
    ((variableOffenses s).map fun o => o.span.start).Nodup :=
  List.pairwise_map.2 ((pairwise_variableOffenses s).imp Nat.ne_of_lt)

/-- `missingBlank?` gives the offense of the next line, where one follows that is not blank. -/
theorem missingBlank?_eq_some_iff {s : Source} {index : Nat} {o : Offense} :
    missingBlank? s "`@rbs` variable comment must be followed by a blank line." index = some o ↔
      s.isBlankLine (index + 1) = false ∧
        ∃ line, s.lines[index]? = some line ∧ variableOffense s line index = o := by
  rw [missingBlank?, Option.ite_none_left_eq_some, Bool.not_eq_true, Source.lineSpan?_succ,
    Option.map_map, Option.map_eq_some_iff]
  rfl

theorem mem_variableSpacing_iff {s : Source} {o : Offense} :
    o ∈ variableSpacing s ↔ o ∈ variableOffenses s := by
  rw [variableSpacing_eq, missingBlankLines_map, List.mem_eraseDups, List.mem_filterMap,
    mem_variableOffenses_iff]
  simp only [missingBlank?_eq_some_iff]
  constructor
  · rintro ⟨r, hr, hblank, line, hline, ho⟩
    obtain ⟨hcarries, hnot⟩ := exists_variableRun_iff.1 ⟨r, hr, rfl⟩
    exact ⟨line, r.last.line, hline, ⟨hcarries, hnot, hblank⟩, ho⟩
  · rintro ⟨line, index, hline, ⟨hcarries, hnot, hblank⟩, ho⟩
    obtain ⟨r, hr, rfl⟩ := exists_variableRun_iff.2 ⟨hcarries, hnot⟩
    exact ⟨r, hr, hblank, line, hline, ho⟩

/-- **Lines before which a blank line is missing.** The rule about notes on variables reports, in
the order of the lines and once each, every line that is not blank and carries no comment on a
variable, below a line that carries one; it shows the whole line, and reports nothing else. -/
theorem variableSpacing_eq_lines (s : Source) :
    variableSpacing s = variableOffenses s ∧
      (variableSpacing s).Pairwise fun a b => a.span.start < b.span.start := by
  have hsorted := pairwise_variableOffenses s
  have hstarts := nodup_start_variableOffenses s
  have hnodup : (variableSpacing s).Nodup := nodup_eraseDups _
  have hperm : (variableSpacing s).Perm (variableOffenses s) :=
    (List.perm_ext_iff_of_nodup hnodup hstarts.of_map).2 fun _ => mem_variableSpacing_iff
  have heq : variableSpacing s = variableOffenses s := by
    refine hperm.eq_of_pairwise ?_ (inSourceOrder_variableSpacing s) (hsorted.imp Nat.le_of_lt)
    intro a b ha hb hle hle'
    rw [mem_variableSpacing_iff] at ha
    exact List.inj_on_of_nodup_map hstarts ha hb (Nat.le_antisymm hle hle')
  exact ⟨heq, heq ▸ hsorted⟩

end TypeNotes
