import TypeNotes.Proofs.Rule.Motion
import TypeNotes.Proofs.Ruby.Location

/-!
# Offenses in source order

With one exception, the offenses of a rule come in the order in which they start in the file. Rules
that sort their offenses see to that themselves; the others go through the comments, or through the
blocks of comments, and report something in them or on the line after them.

**Lines.** An offense starts on a line (`Offense.StartsOn`), and those on lines above start first.
So the order of offenses is told by lines.

**Runs.** The rules about blank lines report the line after a run of comments, and runs can overlap:
a comment that continues a run can open one itself. `pairwise_runs` says how two runs lie to each
other. For notes about variables they end together. Embedded declarations inside others are indented
deeper, so their run may end earlier, and then its offense comes behind that of the run around it
although it stands above. This is the only way in which offenses get out of order
(`Rule.inSourceOrder_check_iff`), and it happens (`not_inSourceOrder_nested_runs`).
-/

namespace TypeNotes

open Ruby

/-- Offenses in the order in which they start. -/
def InSourceOrder (offenses : List Offense) : Prop :=
  offenses.Pairwise fun a b => a.span.start ≤ b.span.start

/-- Offenses sorted by `Offense.sort` are in source order. -/
theorem inSourceOrder_sort (offenses : List Offense) : InSourceOrder (Offense.sort offenses) := by
  refine (Offense.pairwise_sort offenses).imp fun {a b} hle => ?_
  rw [Offense.le_iff] at hle
  omega

/-! ### Lines of offenses -/

/-- The offense starts on the line with this number. -/
def Offense.StartsOn (s : Source) (o : Offense) (number : Nat) : Prop :=
  ∃ column, Names s.lines o.span.start (number, column)

section Lines

variable {s : Source}

/-- Offenses on lines above start first (`Offense.StartsOn`). -/
theorem Offense.StartsOn.start_lt {a b : Offense} {m n : Nat} (ha : a.StartsOn s m)
    (hb : b.StartsOn s n) (hlt : m < n) : a.span.start < b.span.start := by
  obtain ⟨column, ha⟩ := ha
  obtain ⟨column', hb⟩ := hb
  rcases Nat.lt_or_ge a.span.start b.span.start with hstart | hstart
  · exact hstart
  · have hline : n ≤ m := hb.line_le ha hstart
    omega

/-- An offense starts on one line. -/
theorem Offense.StartsOn.unique {o : Offense} {m n : Nat} (h : o.StartsOn s m)
    (h' : o.StartsOn s n) : m = n := by
  obtain ⟨column, h⟩ := h
  obtain ⟨column', h'⟩ := h'
  exact (Prod.mk.inj (h.unique h')).1

/-- A comment is as long as its text. -/
theorem stop_of_mem_comments {c : Comment} (hc : c ∈ s.comments) :
    c.stop = c.start + c.text.length := by
  obtain ⟨before, body, after, -, hbody, -, hstart, hstop, -⟩ := Source.in_of_mem_comments hc
  rw [hstop, hstart, hbody, List.length_cons]

/-- Whatever starts in a comment starts on its line. -/
theorem startsOn_comment {c : Comment} (hc : c ∈ s.comments) {o : Offense}
    (hstart : c.start ≤ o.span.start) (hstop : o.span.start ≤ c.stop) : o.StartsOn s c.line := by
  obtain ⟨index, line, hline, hnumber, hcolumn, -, htext, hlt⟩ :=
    Source.exists_line_of_mem_comments hc
  obtain ⟨returns, hreturns⟩ := exists_dropReturns line
  have hlength := congrArg List.length hreturns
  have hrest : c.text.length = (Text.dropReturns line).length - c.column := by
    rw [htext, List.length_drop]
  have hend := stop_of_mem_comments hc
  rw [List.length_append] at hlength
  refine ⟨o.span.start - lineStart s.lines index + 1, index, line, hline, hnumber, ?_, ?_, ?_⟩
  · omega
  · simp only
    omega
  · omega

/-- An offense for a whole line starts on this line. -/
theorem startsOn_line {number : Nat} {o : Offense}
    (h : s.lineSpan? ((number + 1 : Nat) : Int) = some o.span) : o.StartsOn s (number + 1) := by
  rw [Source.lineSpan?_succ] at h
  obtain ⟨line, hline, hspan⟩ := Option.map_eq_some_iff.1 h
  have hstart : lineStart s.lines number = o.span.start := congrArg Range.start hspan
  refine ⟨1, number, line, hline, rfl, ?_, ?_, ?_⟩
  · simp
  · rw [hstart]
  · omega

/-- `isBlankLine` does not hold of the line of a comment. -/
theorem isBlankLine_of_mem_comments {c : Comment} (hc : c ∈ s.comments) :
    s.isBlankLine c.line = false := by
  obtain ⟨index, line, hline, hnumber, -, -, htext, -⟩ := Source.exists_line_of_mem_comments hc
  obtain ⟨before, body, after, -, hbody, -⟩ := Source.in_of_mem_comments hc
  have hmem : '#' ∈ Text.dropReturns line := by
    have hdrop : '#' ∈ (Text.dropReturns line).drop c.column := by
      rw [← htext, hbody]
      exact List.mem_cons_self
    exact List.mem_of_mem_drop hdrop
  have hblank : Text.isBlank (Text.dropReturns line) = false := by
    rw [Text.isBlank, List.all_eq_false]
    exact ⟨'#', hmem, by decide⟩
  rw [Source.isBlankLine, hnumber, Source.line?, hline, Option.map_some, Option.all_some, hblank]

/-! ### Offenses in comments and after blocks -/

/-- The offense starts in one of these comments. -/
def Offense.StartsIn (o : Offense) (cs : List Comment) : Prop :=
  ∃ c ∈ cs, c.start ≤ o.span.start ∧ o.span.start ≤ c.stop

/-- Offenses in comments that stand before others start before offenses in these. -/
theorem Offense.StartsIn.start_lt {cs cs' : List Comment} {a b : Offense} (ha : a.StartsIn cs)
    (hb : b.StartsIn cs') (hbefore : ∀ c ∈ cs, ∀ c' ∈ cs', c.Before c') :
    a.span.start < b.span.start := by
  obtain ⟨c, hc, -, hstop⟩ := ha
  obtain ⟨c', hc', hstart, -⟩ := hb
  have hlt := (hbefore c hc c' hc').stop
  omega

/-- Offenses in the comments of a file, one in a comment at most. -/
def OnComments (s : Source) (offenses : List Offense) : Prop :=
  ∃ f : Comment → Option Offense, offenses = s.comments.filterMap f ∧
    ∀ c ∈ s.comments, ∀ o, f c = some o → o.StartsIn [c]

/-- Each of the offenses in comments starts in one of them. -/
theorem OnComments.startsIn {offenses : List Offense} (h : OnComments s offenses) {o : Offense}
    (ho : o ∈ offenses) : o.StartsIn s.comments := by
  obtain ⟨f, rfl, hf⟩ := h
  obtain ⟨c, hc, hfound⟩ := List.mem_filterMap.1 ho
  obtain ⟨c', hc', hstart⟩ := hf c hc o hfound
  rw [List.mem_singleton.1 hc'] at hstart
  exact ⟨c, hc, hstart⟩

/-- Offenses in comments (`OnComments`) start one after another. -/
theorem OnComments.pairwise_start_lt {offenses : List Offense} (h : OnComments s offenses) :
    offenses.Pairwise fun a b => a.span.start < b.span.start := by
  obtain ⟨f, rfl, hf⟩ := h
  refine List.pairwise_filterMap.2 (s.pairwise_comments.imp_of_mem ?_)
  intro a b ha hb hbefore o ho o' ho'
  refine (hf a ha o ho).start_lt (hf b hb o' ho') ?_
  intro c hc c' hc'
  rw [List.mem_singleton.1 hc, List.mem_singleton.1 hc']
  exact hbefore

/-- Offenses in comments, one in a comment at most, are in source order. -/
theorem OnComments.inSourceOrder {offenses : List Offense} (h : OnComments s offenses) :
    InSourceOrder offenses := h.pairwise_start_lt.imp Nat.le_of_lt

theorem onComments_invalidComment (s : Source) : OnComments s (invalidComment s) := by
  refine ⟨fun c => if Shape.isInvalidNote c.text then
    some ⟨c.span, "Invalid RBS annotation comment found."⟩ else none, ?_, ?_⟩
  · rw [invalidComment, ← List.filterMap_eq_map, ← List.filterMap_eq_filter,
      List.filterMap_filterMap]
    refine List.filterMap_congr fun c _ => ?_
    cases hshape : Shape.isInvalidNote c.text <;> simp [hshape]
  · intro c hc o ho
    obtain ⟨-, hsome⟩ := Option.ite_none_right_eq_some.1 ho
    obtain rfl := Option.some.inj hsome
    have hend := stop_of_mem_comments hc
    refine ⟨c, List.mem_singleton_self c, Nat.le_refl _, ?_⟩
    simp only [Comment.span]
    omega

/-- `keywordOffense?` starts in the comment with the keyword. -/
theorem startsIn_of_keywordOffense? {c : Comment} (hc : c ∈ s.comments) {named : List Comment}
    {o : Offense} (h : keywordOffense? named c = some o) : o.StartsIn [c] := by
  refine ⟨c, List.mem_singleton_self c, ?_⟩
  have hend := stop_of_mem_comments hc
  unfold keywordOffense? at h
  split at h
  · cases h
  · rename_i keyword stop hkeyword
    obtain ⟨hpos, hle⟩ := Shape.stop_le_of_keywordWithColon? hkeyword
    split at h
    · cases h
    · obtain rfl := Option.some.inj h
      simp only
      omega

theorem onComments_keywordSeparator (s : Source) : OnComments s (keywordSeparator s) :=
  ⟨_, rfl, fun _ hc _ ho => startsIn_of_keywordOffense? hc ho⟩

/-- The offense of a word behind the marker that needs a colon. -/
def separatorOffense? (c : Comment) : Option Offense :=
  match Shape.markedWord? c.text with
  | none => none
  | some (token, stop) =>
    if mayFollowMarker token then none
    else
      some ⟨⟨c.start + stop, c.start + stop⟩,
        "Use `:` as a separator between parameter name and type."⟩

/-- `parametersSeparator` goes through the comments one by one. -/
theorem parametersSeparator_eq (s : Source) :
    parametersSeparator s = s.comments.filterMap separatorOffense? := rfl

/-- `separatorOffense?` starts in the comment with the name. -/
theorem startsIn_of_separatorOffense? {c : Comment} (hc : c ∈ s.comments) {o : Offense}
    (h : separatorOffense? c = some o) : o.StartsIn [c] := by
  refine ⟨c, List.mem_singleton_self c, ?_⟩
  have hend := stop_of_mem_comments hc
  unfold separatorOffense? at h
  split at h
  · cases h
  · rename_i token stop htoken
    have hle := Shape.stop_le_of_markedWord? htoken
    split at h
    · cases h
    · obtain rfl := Option.some.inj h
      simp only
      omega

theorem onComments_parametersSeparator (s : Source) : OnComments s (parametersSeparator s) :=
  ⟨_, parametersSeparator_eq s, fun _ hc _ ho => startsIn_of_separatorOffense? hc ho⟩

/-- The last comment of a block is one of the comments of the file. -/
theorem last_mem_of_mem_blocks {b : CommentBlock} (hb : b ∈ s.blocks) : b.last ∈ s.comments :=
  (CommentBlock.sublist_of_mem_group hb).subset b.last_mem_comments

/-- `methodSpacingOffense?` starts in the last comment of the block, or on the blank line after it.
-/
theorem startsOn_of_methodSpacingOffense? {b : CommentBlock} (hb : b ∈ s.blocks) {o : Offense}
    (h : methodSpacingOffense? s b = some o) :
    o.StartsOn s b.lastLine ∨
      s.isBlankLine (b.lastLine + 1) = true ∧ o.StartsOn s (b.lastLine + 1) := by
  have hlast : (misplacedOffense b.last).StartsOn s b.lastLine := by
    have hmem := last_mem_of_mem_blocks hb
    have hend := stop_of_mem_comments hmem
    refine startsOn_comment hmem (Nat.le_refl _) ?_
    simp only [misplacedOffense, Comment.span]
    omega
  simp only [methodSpacingOffense?] at h
  split at h
  · rename_i hblank
    split at h
    · obtain ⟨span, hspan, rfl⟩ := Option.map_eq_some_iff.1 h
      exact .inr ⟨hblank, startsOn_line hspan⟩
    · obtain rfl := Option.some.inj h
      exact .inl hlast
  · split at h
    · cases h
    · obtain rfl := Option.some.inj h
      exact .inl hlast

/-- The offenses of `methodSpacing` start one after another. -/
theorem pairwise_start_lt_methodSpacing (s : Source) :
    (methodSpacing s).Pairwise fun a b => a.span.start < b.span.start := by
  have hblocks := s.pairwise_blocks.sublist
    (List.filter_sublist (p := fun b => b.isLeading && b.notes.any isAboutMethod))
  refine List.pairwise_filterMap.2 (hblocks.imp_of_mem fun {a b} ha hb hlt o ho o' ho' => ?_)
  have ha := (List.mem_filter.1 ha).1
  have hb := (List.mem_filter.1 hb).1
  -- A blank line after the first block is not the last line of the second one.
  have hne : s.isBlankLine (a.lastLine + 1) = true → a.lastLine + 1 ≠ b.lastLine := by
    intro hblank heq
    have hnot := isBlankLine_of_mem_comments (last_mem_of_mem_blocks hb)
    rw [heq, CommentBlock.lastLine, hnot] at hblank
    cases hblank
  obtain ⟨n, hn, hstart'⟩ : ∃ n, b.lastLine ≤ n ∧ o'.StartsOn s n := by
    rcases startsOn_of_methodSpacingOffense? hb ho' with hstart' | ⟨-, hstart'⟩
    · exact ⟨_, Nat.le_refl _, hstart'⟩
    · exact ⟨_, Nat.le_succ _, hstart'⟩
  rcases startsOn_of_methodSpacingOffense? ha ho with hstart | ⟨hblank, hstart⟩
  · exact hstart.start_lt hstart' (Nat.lt_of_lt_of_le hlt hn)
  · have hlt' : a.lastLine + 1 < b.lastLine := Nat.lt_of_le_of_ne hlt (hne hblank)
    exact hstart.start_lt hstart' (Nat.lt_of_lt_of_le hlt' hn)

end Lines

/-! ### Runs of comments -/

/-- A run of comments: the comment that opens it, and its last one. -/
structure Run where
  opener : Comment
  last : Comment
  deriving DecidableEq, Repr

/-- The runs in a list of comments. -/
def runs (opens : Comment → Option (Comment → Bool)) : List Comment → List Run
  | [] => []
  | c :: rest =>
    match opens c with
    | some continues => ⟨c, runEnd continues c rest⟩ :: runs opens rest
    | none => runs opens rest

/-- `runEnds` are the last comments of `runs`. -/
theorem runEnds_eq_map_runs (opens : Comment → Option (Comment → Bool)) (cs : List Comment) :
    runEnds opens cs = (runs opens cs).map (·.last) := by
  induction cs with
  | nil => rfl
  | cons c rest ih =>
    rw [runEnds, runs]
    cases hopens : opens c with
    | none => exact ih
    | some continues => rw [List.map_cons, ih]

/-- One of the `runs` starts at a comment, and goes on from there as its opener says. -/
theorem exists_of_mem_runs {opens : Comment → Option (Comment → Bool)} {cs : List Comment} {r : Run}
    (h : r ∈ runs opens cs) : ∃ above below continues, cs = above ++ r.opener :: below ∧
      opens r.opener = some continues ∧ r.last = runEnd continues r.opener below := by
  induction cs with
  | nil => cases h
  | cons c rest ih =>
    have hrest : r ∈ runs opens rest → ∃ above below continues,
        c :: rest = above ++ r.opener :: below ∧ opens r.opener = some continues ∧
          r.last = runEnd continues r.opener below := by
      intro hmem
      obtain ⟨above, below, continues, heq, hopens, hlast⟩ := ih hmem
      exact ⟨c :: above, below, continues, by rw [heq, List.cons_append], hopens, hlast⟩
    rw [runs] at h
    split at h
    · rename_i continues hopens
      rcases List.mem_cons.1 h with rfl | hmem
      · exact ⟨[], rest, continues, rfl, hopens, rfl⟩
      · exact hrest hmem
    · exact hrest h

/-! ### The end of a run -/

section RunEnd

variable (continues : Comment → Bool) (c : Comment)

/-- `runEnd` is not above the start of the run. -/
theorem line_le_runEnd (rest : List Comment) : c.line ≤ (runEnd continues c rest).line := by
  induction rest generalizing c with
  | nil => exact Nat.le_refl _
  | cons d rest ih =>
    rw [runEnd]
    split
    · rename_i hnext
      simp only [Bool.and_eq_true, beq_iff_eq] at hnext
      have hle := ih d
      omega
    · exact Nat.le_refl _

/-- `runEnd` is before a comment, or the comment is in the run and it goes on from there. -/
theorem runEnd_append_cons (between : List Comment) (d : Comment) (below : List Comment) :
    runEnd continues c (between ++ d :: below) ∈ c :: between ∨
      continues d = true ∧
        runEnd continues c (between ++ d :: below) = runEnd continues d below := by
  induction between generalizing c with
  | nil =>
    rw [List.nil_append, runEnd]
    split
    · rename_i hnext
      simp only [Bool.and_eq_true, beq_iff_eq] at hnext
      exact .inr ⟨hnext.2, rfl⟩
    · exact .inl List.mem_cons_self
  | cons e between ih =>
    rw [List.cons_append, runEnd]
    split
    · rcases ih e with hmem | hgoes
      · exact .inl (List.mem_cons_of_mem _ hmem)
      · exact .inr hgoes
    · exact .inl List.mem_cons_self

variable {continues} in
/-- What continues fewer runs ends them earlier, right before a comment. -/
theorem runEnd_mono {continues' : Comment → Bool}
    (h : ∀ d, continues d = true → continues' d = true) (rest : List Comment) :
    (runEnd continues c rest).line ≤ (runEnd continues' c rest).line ∧
      ((runEnd continues c rest).line < (runEnd continues' c rest).line →
        ∃ d ∈ rest, d.line = (runEnd continues c rest).line + 1) := by
  induction rest generalizing c with
  | nil => exact ⟨Nat.le_refl _, fun hlt => absurd hlt (Nat.lt_irrefl _)⟩
  | cons d rest ih =>
    have hcut : continues d = false → runEnd continues c (d :: rest) = c := by
      intro hd
      rw [runEnd, hd, Bool.and_false]
      rfl
    by_cases hnext : d.line = c.line + 1
    · cases hd : continues d with
      | false =>
        rw [hcut hd]
        exact ⟨line_le_runEnd continues' c _, fun _ => ⟨d, List.mem_cons_self, hnext⟩⟩
      | true =>
        have hgoes : ∀ k : Comment → Bool, k d = true →
            runEnd k c (d :: rest) = runEnd k d rest := by
          intro k hk
          rw [runEnd, hk, hnext]
          simp
        rw [hgoes continues hd, hgoes continues' (h d hd)]
        obtain ⟨hle, hfollows⟩ := ih d
        refine ⟨hle, fun hlt => ?_⟩
        obtain ⟨e, he, hline⟩ := hfollows hlt
        exact ⟨e, List.mem_cons_of_mem _ he, hline⟩
    · have hstops : ∀ k : Comment → Bool, runEnd k c (d :: rest) = c := by
        intro k
        rw [runEnd, beq_eq_false_iff_ne.2 hnext]
        rfl
      rw [hstops continues, hstops continues']
      exact ⟨Nat.le_refl _, fun hlt => absurd hlt (Nat.lt_irrefl _)⟩

end RunEnd

/-- The last comment of a run does not stand above its opener. -/
theorem line_le_of_mem_runs {opens : Comment → Option (Comment → Bool)} {cs : List Comment}
    {r : Run} (h : r ∈ runs opens cs) : r.opener.line ≤ r.last.line := by
  obtain ⟨above, below, continues, -, -, hlast⟩ := exists_of_mem_runs h
  rw [hlast]
  exact line_le_runEnd continues r.opener below

/-- How two runs of a list lie to each other, the first one opened before the second: the first
stops above the second, or the opener of the second continues the first, and both go on below it. -/
def Run.Meets (opens : Comment → Option (Comment → Bool)) (cs : List Comment) (a b : Run) : Prop :=
  a.last.line < b.opener.line ∨ ∃ continues continues' below, opens a.opener = some continues ∧
    opens b.opener = some continues' ∧ continues b.opener = true ∧ (∀ d ∈ below, d ∈ cs) ∧
    a.last = runEnd continues b.opener below ∧ b.last = runEnd continues' b.opener below

/-- Runs come in the order of their openers, and any two of them lie to each other as `Run.Meets`
says. -/
theorem pairwise_runs (opens : Comment → Option (Comment → Bool)) {cs : List Comment}
    (hcs : cs.Pairwise fun a b => a.line < b.line) :
    (runs opens cs).Pairwise fun a b => a.opener.line < b.opener.line ∧ a.Meets opens cs b := by
  induction cs with
  | nil => exact .nil
  | cons c rest ih =>
    obtain ⟨habove, hrest⟩ := List.pairwise_cons.1 hcs
    have hpairs : (runs opens rest).Pairwise fun a b =>
        a.opener.line < b.opener.line ∧ a.Meets opens (c :: rest) b := by
      refine (ih hrest).imp fun {a b} hab => ⟨hab.1, hab.2.imp_right ?_⟩
      rintro ⟨continues, continues', below, ha, hb, hin, hbelow, hlast⟩
      exact ⟨continues, continues', below, ha, hb, hin,
        fun d hd => List.mem_cons_of_mem _ (hbelow d hd), hlast⟩
    rw [runs]
    cases hopens : opens c with
    | none => exact hpairs
    | some continues =>
      refine List.pairwise_cons.2 ⟨fun b hb => ?_, hpairs⟩
      obtain ⟨between, below, continues', rfl, hopens', hlast⟩ := exists_of_mem_runs hb
      refine ⟨habove _ (List.mem_append_right _ List.mem_cons_self), ?_⟩
      rcases runEnd_append_cons continues c between b.opener below with hmem | ⟨hin, hgoes⟩
      · rw [← List.cons_append, List.pairwise_append] at hcs
        exact .inl (hcs.2.2 _ hmem _ List.mem_cons_self)
      · have hbelow : ∀ d ∈ below, d ∈ c :: (between ++ b.opener :: below) := by
          intro d hd
          simp [hd]
        exact .inr ⟨continues, continues', below, hopens, hopens', hin, hbelow, hgoes, hlast⟩

/-! ### Blank lines after runs -/

/-- The offense for the line after a comment on the line with this number, if it is not blank. -/
def missingBlank? (s : Source) (message : String) (number : Nat) : Option Offense :=
  if s.isBlankLine (number + 1) then none
  else (s.lineSpan? ((number + 1 : Nat) : Int)).map fun span => ⟨span, message⟩

/-- `missingBlankLines` are reported in the order of the runs they follow, each of them once. -/
theorem missingBlankLines_map (s : Source) (message : String) (rs : List Run) :
    missingBlankLines s message (rs.map (·.last)) =
      (rs.filterMap fun r => missingBlank? s message r.last.line).eraseDups := by
  rw [missingBlankLines, List.filterMap_map]
  rfl

/-- `missingBlank?` reports a line that is not blank. -/
theorem startsOn_of_missingBlank? {s : Source} {message : String} {number : Nat} {o : Offense}
    (h : missingBlank? s message number = some o) :
    s.isBlankLine (number + 1) = false ∧ o.StartsOn s (number + 1) := by
  unfold missingBlank? at h
  split at h
  · cases h
  · rename_i hblank
    obtain ⟨span, hspan, rfl⟩ := Option.map_eq_some_iff.1 h
    exact ⟨Bool.eq_false_iff.2 hblank, startsOn_line hspan⟩

/-- `missingBlank?` reports every line that is not blank. -/
theorem exists_missingBlank? {s : Source} {number : Nat} (h : s.isBlankLine (number + 1) = false)
    (message : String) : ∃ o, missingBlank? s message number = some o := by
  have hline : ∃ line, s.lines[number]? = some line := by
    cases hline : s.lines[number]? with
    | some line => exact ⟨line, rfl⟩
    | none =>
      rw [Source.isBlankLine, Source.line?, hline] at h
      cases h
  obtain ⟨line, hline⟩ := hline
  rw [missingBlank?, h, Source.lineSpan?_succ, hline]
  exact ⟨_, rfl⟩

/-- Leaving repetitions out keeps the order. -/
theorem eraseDups_sublist {α : Type} [BEq α] (l : List α) : l.eraseDups.Sublist l := by
  induction hlen : l.length using Nat.strongRecOn generalizing l with
  | ind n ih =>
    subst hlen
    cases l with
    | nil => exact List.Sublist.refl _
    | cons a l =>
      have hlt : (l.filter fun b => !b == a).length < (a :: l).length :=
        Nat.lt_succ_of_le (List.length_filter_le _ l)
      rw [List.eraseDups_cons]
      exact ((ih _ hlt _ rfl).trans List.filter_sublist).cons_cons a

/-- If the last lines of runs never go back, `missingBlankLines` are in source order. -/
theorem inSourceOrder_missingBlankLines {s : Source} {message : String} {rs : List Run}
    (h : rs.Pairwise fun a b => s.isBlankLine (a.last.line + 1) = false →
      s.isBlankLine (b.last.line + 1) = false → a.last.line ≤ b.last.line) :
    InSourceOrder (missingBlankLines s message (rs.map (·.last))) := by
  rw [missingBlankLines_map]
  refine List.Pairwise.sublist (eraseDups_sublist _) (List.pairwise_filterMap.2 (h.imp ?_))
  intro a b hle o ho o' ho'
  obtain ⟨hblank, hstart⟩ := startsOn_of_missingBlank? ho
  obtain ⟨hblank', hstart'⟩ := startsOn_of_missingBlank? ho'
  rcases Nat.lt_or_eq_of_le (hle hblank hblank') with hlt | heq
  · exact Nat.le_of_lt (hstart.start_lt hstart' (Nat.succ_lt_succ hlt))
  · rw [heq, ho'] at ho
    rw [Option.some.inj ho]

/-- The comments of a file stand on lines further and further down. -/
theorem Ruby.Source.pairwise_lines (s : Source) : s.comments.Pairwise fun a b => a.line < b.line :=
  s.pairwise_comments.imp fun hbefore => hbefore.line

/-- `variableSpacing` is in source order: of two runs that overlap, the second is the end of the
first. -/
theorem inSourceOrder_variableSpacing (s : Source) : InSourceOrder (variableSpacing s) := by
  rw [variableSpacing, runEnds_eq_map_runs]
  refine inSourceOrder_missingBlankLines ((pairwise_runs _ s.pairwise_lines).imp_of_mem ?_)
  intro a b _ hb hab _ _
  rcases hab.2 with hlt | ⟨continues, continues', below, ha, hb', -, -, hlast, hlast'⟩
  · have hle := line_le_of_mem_runs hb
    omega
  · obtain ⟨-, hsame⟩ := Option.ite_none_right_eq_some.1 ha
    obtain ⟨-, hsame'⟩ := Option.ite_none_right_eq_some.1 hb'
    rw [hlast, hlast', ← Option.some.inj hsame, ← Option.some.inj hsame']

/-! ### Embedded declarations -/

/-- The runs of embedded declarations in a file. -/
def embeddedRuns (s : Source) : List Run :=
  runs (fun c => (Shape.embeddedIndent? c.text).map continuesEmbedded) s.comments

/-- The marker of embedded declarations is not blank, and is indented as deep as its comment. -/
theorem Shape.indentation_of_embeddedIndent? {c : Comment} {indent : Nat}
    (h : Shape.embeddedIndent? c.text = some indent) :
    Text.isBlank c.body = false ∧ indentation c.body = indent := by
  simp only [Shape.embeddedIndent?, Option.bind_eq_bind, Option.bind_eq_some_iff] at h
  obtain ⟨body, hbody, spaced, hspaced, rest, hmarker, hgap⟩ := h
  obtain ⟨-, hindent⟩ := Option.ite_none_right_eq_some.1 hgap
  have heq : c.body = body := by
    rw [Comment.body, after?_eq_some_iff.1 hbody]
    rfl
  rw [heq]
  refine ⟨?_, Option.some.inj hindent⟩
  have hat : '@' ∈ spaced := by
    rw [after?_eq_some_iff.1 hmarker]
    exact List.mem_append_left _ (by decide)
  unfold Shape.afterSpace? at hspaced
  split at hspaced
  · obtain ⟨-, htrim⟩ := Option.ite_none_right_eq_some.1 hspaced
    rw [← Option.some.inj htrim] at hat
    have hmem := (List.dropWhile_sublist Unicode.isSpace).subset hat
    rw [Text.isBlank, List.all_eq_false]
    exact ⟨'@', List.mem_cons_of_mem _ hmem, by decide⟩
  · cases hspaced

/-- What `continuesEmbedded` declarations inside of others continues those as well. -/
theorem continuesEmbedded_of_inner {indent inner : Nat} {c : Comment}
    (hin : continuesEmbedded indent c = true) (hinner : Shape.embeddedIndent? c.text = some inner)
    {d : Comment} (h : continuesEmbedded inner d = true) : continuesEmbedded indent d = true := by
  obtain ⟨hblank, hindent⟩ := Shape.indentation_of_embeddedIndent? hinner
  simp only [continuesEmbedded, hblank, hindent, Bool.or_false, Bool.and_eq_true, Bool.or_eq_true,
    decide_eq_true_eq] at hin h ⊢
  exact ⟨h.1, h.2.imp_left fun hlt => Nat.lt_trans hin.2 hlt⟩

/-- Of two runs of embedded declarations, the second is opened after the end of the first, or ends
with it, or ends before it and above a line that is not blank. -/
theorem pairwise_embeddedRuns (s : Source) :
    (embeddedRuns s).Pairwise fun a b => a.opener.line < b.opener.line ∧
      (a.last.line < b.opener.line ∨ b.last.line = a.last.line ∨
        b.last.line < a.last.line ∧ s.isBlankLine (b.last.line + 1) = false) := by
  refine (pairwise_runs _ s.pairwise_lines).imp fun {a b} hab => ⟨hab.1, hab.2.imp_right ?_⟩
  rintro ⟨continues, continues', below, ha, hb, hin, hbelow, hlast, hlast'⟩
  obtain ⟨indent, -, rfl⟩ := Option.map_eq_some_iff.1 ha
  obtain ⟨inner, hinner, rfl⟩ := Option.map_eq_some_iff.1 hb
  obtain ⟨hle, hfollows⟩ := runEnd_mono b.opener
    (fun d hd => continuesEmbedded_of_inner hin hinner hd) below
  rw [← hlast, ← hlast'] at hle hfollows
  rcases Nat.lt_or_eq_of_le hle with hlt | heq
  · obtain ⟨d, hd, hline⟩ := hfollows hlt
    have hblank := isBlankLine_of_mem_comments (hbelow d hd)
    rw [hline] at hblank
    exact .inr ⟨hlt, hblank⟩
  · exact .inl heq

/-- The first of two members of a list stays in front of the second one when duplicates are erased,
if the second one is not found further in front. -/
theorem rel_of_pairwise_eraseDups {α : Type} [BEq α] [LawfulBEq α] {R : α → α → Prop}
    {l l' : List α} {a b : α} (h : (l ++ a :: l').eraseDups.Pairwise R) (hb : b ∈ l')
    (hne : b ≠ a) (hnot : b ∉ l) : R a b := by
  rw [← List.singleton_append, ← List.append_assoc, List.eraseDups_append,
    List.pairwise_append] at h
  refine h.2.2 a ?_ b ?_
  · exact List.mem_eraseDups.2 (List.mem_append_right _ List.mem_cons_self)
  · rw [List.mem_eraseDups, List.removeAll, List.mem_filter]
    simp [hb, hne, hnot]

/-- A run that ends inside another one is reported behind it. -/
theorem not_inSourceOrder_of_inner {s : Source} (message : String) {outer inner : Run}
    (houter : outer ∈ embeddedRuns s) (hinner : inner ∈ embeddedRuns s)
    (hopener : outer.opener.line < inner.opener.line) (hlast : inner.last.line < outer.last.line)
    (hblank : s.isBlankLine (outer.last.line + 1) = false) :
    ¬ InSourceOrder (missingBlankLines s message ((embeddedRuns s).map (·.last))) := by
  have hpairs := pairwise_embeddedRuns s
  have hle := line_le_of_mem_runs hinner
  obtain ⟨above, below, heq⟩ := List.append_of_mem houter
  rw [missingBlankLines_map, heq]
  rw [heq] at hinner hpairs
  obtain ⟨-, hbelow, habove⟩ := List.pairwise_append.1 hpairs
  -- The inner run is opened later, so it is listed behind the outer one.
  have hmem : inner ∈ below := by
    rcases List.mem_append.1 hinner with hmem | hmem
    · have hlt := (habove inner hmem outer List.mem_cons_self).1
      omega
    · rcases List.mem_cons.1 hmem with rfl | hmem
      · omega
      · exact hmem
  have hblank' : s.isBlankLine (inner.last.line + 1) = false := by
    rcases ((List.pairwise_cons.1 hbelow).1 inner hmem).2 with hlt | heq | ⟨-, hblank'⟩
    · omega
    · omega
    · exact hblank'
  obtain ⟨o, ho⟩ := exists_missingBlank? hblank message
  obtain ⟨o', ho'⟩ := exists_missingBlank? hblank' message
  have hstart := (startsOn_of_missingBlank? ho).2
  have hstart' := (startsOn_of_missingBlank? ho').2
  have hlt : o'.span.start < o.span.start := hstart'.start_lt hstart (Nat.succ_lt_succ hlast)
  rw [List.filterMap_append, List.filterMap_cons]
  simp only [ho]
  intro hsorted
  have hge : o.span.start ≤ o'.span.start := by
    refine rel_of_pairwise_eraseDups (R := fun a b : Offense => a.span.start ≤ b.span.start) hsorted
      (List.mem_filterMap.2 ⟨inner, hmem, ho'⟩) ?_ ?_
    · rintro rfl
      omega
    · -- No run above the outer one ends where the inner one does.
      intro hearlier
      obtain ⟨r, hr, hro⟩ := List.mem_filterMap.1 hearlier
      have hline := (startsOn_of_missingBlank? hro).2.unique hstart'
      have hmeets := (habove r hr outer List.mem_cons_self).2
      omega
  omega

/-- `embeddedSpacing` looks at the line below each of `embeddedRuns`. -/
theorem embeddedSpacing_eq (s : Source) :
    embeddedSpacing s = missingBlankLines s "`@rbs!` comment must be followed by a blank line."
      ((embeddedRuns s).map (·.last)) := by
  rw [embeddedSpacing, runEnds_eq_map_runs]
  rfl

/-- `embeddedSpacing` is in source order unless a run inside another one ends earlier and no blank
line follows the outer one. -/
theorem inSourceOrder_embeddedSpacing_iff (s : Source) :
    InSourceOrder (embeddedSpacing s) ↔ ∀ outer ∈ embeddedRuns s, ∀ inner ∈ embeddedRuns s,
      outer.opener.line < inner.opener.line → inner.last.line < outer.last.line →
        s.isBlankLine (outer.last.line + 1) = true := by
  rw [embeddedSpacing_eq]
  constructor
  · intro hsorted outer houter inner hinner hopener hlast
    cases hblank : s.isBlankLine (outer.last.line + 1) with
    | true => rfl
    | false =>
      refine absurd hsorted ?_
      exact not_inSourceOrder_of_inner _ houter hinner hopener hlast hblank
  · intro hblank
    refine inSourceOrder_missingBlankLines ((pairwise_embeddedRuns s).imp_of_mem ?_)
    intro a b ha hb hab houter _
    rcases hab.2 with hlt | heq | ⟨hlt, -⟩
    · have hle := line_le_of_mem_runs hb
      omega
    · omega
    · rw [hblank a ha b hb hab.1 hlt] at houter
      cases houter

/-! ### All rules -/

/-- All other rules list their offenses in source order. -/
theorem Rule.inSourceOrder_check_of_ne {rule : Rule} (h : rule ≠ .embeddedSpacing) (s : Source) :
    InSourceOrder (rule.check s) := by
  cases rule with
  | invalidComment => exact (onComments_invalidComment s).inSourceOrder
  | invalidTypes => exact inSourceOrder_sort _
  | keywordSeparator => exact (onComments_keywordSeparator s).inSourceOrder
  | parametersSeparator => exact (onComments_parametersSeparator s).inSourceOrder
  | unmatchedNotes => exact inSourceOrder_sort _
  | embeddedSpacing => exact absurd rfl h
  | methodSpacing => exact (pairwise_start_lt_methodSpacing s).imp Nat.le_of_lt
  | variableSpacing => exact inSourceOrder_variableSpacing s
  | redundantWithSkip => exact inSourceOrder_sort _

/-- **Source order.** The offenses of a rule are in the order in which they start, in every file,
with one exception: embedded declarations inside of others that end before them, if no blank line
follows the outer ones. -/
theorem Rule.inSourceOrder_check_iff (rule : Rule) (s : Source) :
    InSourceOrder (rule.check s) ↔
      (rule = .embeddedSpacing → ∀ outer ∈ embeddedRuns s, ∀ inner ∈ embeddedRuns s,
        outer.opener.line < inner.opener.line → inner.last.line < outer.last.line →
          s.isBlankLine (outer.last.line + 1) = true) := by
  by_cases hrule : rule = .embeddedSpacing
  · subst hrule
    rw [forall_prop_of_true rfl]
    exact inSourceOrder_embeddedSpacing_iff s
  · constructor
    · exact fun _ h => absurd h hrule
    · exact fun _ => inSourceOrder_check_of_ne hrule s

/-- The run of the second marker ends above that of the first one, and is reported behind it. -/
theorem not_inSourceOrder_nested_runs :
    ¬ InSourceOrder (Rule.embeddedSpacing.check (.ofText
      "# @rbs! type a = Integer\n#    @rbs! type b = String\n#   | Symbol\nx = 1".toList)) := by
  unfold InSourceOrder
  decide +kernel

end TypeNotes
