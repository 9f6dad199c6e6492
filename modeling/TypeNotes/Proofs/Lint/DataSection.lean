import TypeNotes.Proofs.Rule.Place
import TypeNotes.Proofs.Ruby.DataSection

/-!
# The data section is inert

Whatever stands behind the end marker of a file, linting reports the same violations
(`lint_withData`), also where a parameter list is still open at the marker, a definition is cut short
by it, or a comment stands directly above it.

**The same code.** Two files that differ only in their data have the same comments, the same lines up
to the marker, and the same declarations up to where their parameters end (`SameCode`). This is all
that a rule looks at: the line after a comment is the marker at most, which is not blank, so that no
rule goes on to the line behind it. A parameter list that ends behind the marker has no comment on
its last line, wherever that is.
-/

namespace TypeNotes

open Ruby Utf8

/-! ### Files with the same code -/

/-- The files have the same lines up to the one after the first `count` lines, which is not blank and
ends the code, and what is found in their code is the same. -/
structure SameCode (count : Nat) (s s' : Source) : Prop where
  path : s'.path = s.path
  lines : s'.lines.take (count + 1) = s.lines.take (count + 1)
  marker : s.isBlankLine (count + 1) = false
  comments : s'.comments = s.comments
  line_le : ∀ c ∈ s.comments, c.line ≤ count
  declarations : s'.declarations.map (Declaration.cutAt count) =
    s.declarations.map (Declaration.cutAt count)

/-- `claimer?` does not depend on where parameter lists end. -/
theorem claimer?_cutAt (count : Nat) (ds : List Declaration) (b : CommentBlock) :
    CrossReference.claimer? (ds.map (Declaration.cutAt count)) b =
      (CrossReference.claimer? ds b).map (Declaration.cutAt count) := by
  rw [CrossReference.claimer?, CrossReference.claimer?, List.find?_map]
  rfl

/-- `unmatchedIn` does not depend on where parameter lists end. -/
theorem unmatchedIn_cutAt (count : Nat) (ds : List Declaration) (b : CommentBlock) :
    CrossReference.unmatchedIn (ds.map (Declaration.cutAt count)) b =
      CrossReference.unmatchedIn ds b := by
  rw [CrossReference.unmatchedIn, CrossReference.unmatchedIn, claimer?_cutAt]
  cases CrossReference.claimer? ds b with
  | none => rfl
  | some d => rfl

/-- For comments above a line, `redundantResult?` does not tell the lines behind it apart. -/
theorem redundantResult?_cutAt {count : Nat} {comments : List Comment}
    (h : ∀ c ∈ comments, c.line ≤ count) (d : Declaration) :
    redundantResult? comments (d.cutAt count) = redundantResult? comments d := by
  rw [redundantResult?, redundantResult?, ← List.head?_filter, ← List.head?_filter]
  congr 2
  refine List.filter_congr fun c hc => ?_
  have hle := h c hc
  have hline : (c.line == (d.cutAt count).parametersEndLine) = (c.line == d.parametersEndLine) := by
    rw [Bool.eq_iff_iff, beq_iff_eq, beq_iff_eq]
    simp only [Declaration.cutAt]
    omega
  rw [hline]

namespace SameCode

variable {count : Nat} {s s' : Source} (h : SameCode count s s')

include h

/-! ### Lines -/

/-- Both files have the same lines, up to the marker. -/
theorem getElem?_lines {index : Nat} (hle : index ≤ count) : s'.lines[index]? = s.lines[index]? := by
  rw [← List.getElem?_take_of_lt (Nat.lt_succ_of_le hle), h.lines,
    List.getElem?_take_of_lt (Nat.lt_succ_of_le hle)]

/-- Lines up to the marker start at the same places. -/
theorem lineStart {index : Nat} (hle : index ≤ count) :
    lineStart s'.lines index = lineStart s.lines index := by
  have htake : s'.lines.take index = s.lines.take index := by
    have hmin : min index (count + 1) = index := by omega
    rw [← hmin, ← List.take_take, h.lines, List.take_take]
  rw [Ruby.lineStart, Ruby.lineStart, htake]

theorem line? {index : Nat} (hle : index ≤ count) : s'.line? (index + 1) = s.line? (index + 1) := by
  rw [Source.line?, Source.line?, h.getElem?_lines hle]

/-- `isBlankLine` is the same, up to the marker. -/
theorem isBlankLine {index : Nat} (hle : index ≤ count) :
    s'.isBlankLine (index + 1) = s.isBlankLine (index + 1) := by
  rw [Source.isBlankLine, Source.isBlankLine, h.line? hle]

theorem isDefinitionLine {index : Nat} (hle : index ≤ count) :
    s'.isDefinitionLine (index + 1) = s.isDefinitionLine (index + 1) := by
  rw [Source.isDefinitionLine, Source.isDefinitionLine, h.line? hle]

theorem lineSpan? {index : Nat} (hle : index ≤ count) :
    s'.lineSpan? ((index + 1 : Nat) : Int) = s.lineSpan? ((index + 1 : Nat) : Int) := by
  rw [Source.lineSpan?_succ, Source.lineSpan?_succ, h.getElem?_lines hle, h.lineStart hle]

/-- What starts on one of the lines (`Offense.StartsOn`) has the same location. -/
theorem location {o : Offense} {number : Nat} (ho : o.StartsOn s number)
    (hle : number ≤ count + 1) : s'.location o.span.start = s.location o.span.start := by
  obtain ⟨column, hnames⟩ := ho
  have hnames' : Names s'.lines o.span.start (number, column) := by
    obtain ⟨index, line, hline, hnumber, hcolumn, hoffset, hstop⟩ := hnames
    have hindex : index ≤ count := by
      simp only at hnumber
      omega
    refine ⟨index, line, ?_, hnumber, hcolumn, ?_, ?_⟩
    · rwa [h.getElem?_lines hindex]
    · rwa [h.lineStart hindex]
    · rwa [h.lineStart hindex]
  rw [Source.location_of_names hnames, Source.location_of_names hnames']

/-! ### Comments, notes and declarations -/

theorem blocks : s'.blocks = s.blocks := by rw [Source.blocks, Source.blocks, h.comments]

theorem notes : s'.notes = s.notes := by rw [Source.notes, Source.notes, h.blocks]

/-- For bytes inside of comments, `spanOfBytes` is the same. -/
theorem spanOfBytes {start stop : Nat} (hstart : ∃ c ∈ s.comments, c.Has start)
    (hstop : ∃ c ∈ s.comments, c.Has stop) : s'.spanOfBytes start stop = s.spanOfBytes start stop := by
  have hsame : ∀ offset, (∃ c ∈ s.comments, c.Has offset) →
      s'.characterOffset offset = s.characterOffset offset := by
    rintro offset ⟨c, hc, hhas⟩
    obtain ⟨bytes, -, place, -, rfl, hplace⟩ := hhas.exists_place
    have hc' : c ∈ s'.comments := h.comments ▸ hc
    rw [Source.characterOffset, Source.characterOffset,
      hplace _ c (Source.in_of_mem_comments hc) rfl, hplace _ c (Source.in_of_mem_comments hc') rfl]
  rw [Source.spanOfBytes, Source.spanOfBytes, hsame start hstart, hsame stop hstop]

/-- What is asked of all declarations, if nothing is asked about the lines behind the code. -/
theorem flatMap_declarations {α : Type} {f : Declaration → List α}
    (hf : ∀ d, f (d.cutAt count) = f d) : s'.declarations.flatMap f = s.declarations.flatMap f := by
  have hcut : ∀ ds : List Declaration, ds.flatMap f = (ds.map (Declaration.cutAt count)).flatMap f := by
    intro ds
    rw [List.flatMap_map]
    exact List.flatMap_congr fun d _ => (hf d).symm
  rw [hcut s'.declarations, hcut s.declarations, h.declarations]

/-! ### Rules -/

theorem parameterComments : parameterComments s' = parameterComments s := by
  rw [TypeNotes.parameterComments, TypeNotes.parameterComments, h.blocks]
  exact h.flatMap_declarations fun _ => rfl

/-- An error in a note is in its comments, so that `typeOffense` is the same. -/
theorem typeOffense {n : Note} (hn : n ∈ s.notes) {e : Signature.Error} (he : n.error = some e) :
    typeOffense s' n e = typeOffense s n e := by
  obtain ⟨entry, hfrom, hread⟩ := exists_entry_of_mem_notes hn
  obtain ⟨hstart, hstop⟩ := hfrom.has_of_error hread he
  rw [TypeNotes.typeOffense, TypeNotes.typeOffense, h.spanOfBytes hstart hstop]

theorem invalidTypes : invalidTypes s' = invalidTypes s := by
  rw [invalidTypes_eq_sort, invalidTypes_eq_sort, h.notes]
  refine congrArg Offense.sort (List.filterMap_congr fun n hn => ?_)
  cases he : n.error with
  | none => rfl
  | some e => exact congrArg some (h.typeOffense hn he)

/-- A name in a note is in its comments, so it is reported alike. -/
theorem offense {n : Note} (hn : n ∈ s.notes) {named : NamedType} (hname : n.named? = some named) :
    CrossReference.offense s' named = CrossReference.offense s named := by
  obtain ⟨entry, hfrom, hread⟩ := exists_entry_of_mem_notes hn
  obtain ⟨c, hc, u, v, htext, hoffset⟩ := hfrom.exists_comment_of_named? hread hname
  have hstart : c.Has named.offset := ⟨u, named.name ++ v, htext, .inl hoffset⟩
  have hstop : c.Has (named.offset + size named.name) := by
    refine ⟨u ++ named.name, v, by rw [htext, List.append_assoc], .inl ?_⟩
    rw [hoffset, size_append, Nat.add_assoc]
  rw [CrossReference.offense, CrossReference.offense, h.spanOfBytes ⟨c, hc, hstart⟩ ⟨c, hc, hstop⟩]

theorem unmatchedNotes : unmatchedNotes s' = unmatchedNotes s := by
  have hsame : CrossReference.unmatchedIn s'.declarations =
      CrossReference.unmatchedIn s.declarations := by
    funext b
    rw [← unmatchedIn_cutAt count, h.declarations, unmatchedIn_cutAt]
  rw [unmatchedNotes_eq_sort, unmatchedNotes_eq_sort, h.blocks, hsame]
  refine congrArg Offense.sort (List.map_congr_left fun named hnamed => ?_)
  obtain ⟨b, hb, hnamed⟩ := List.mem_flatMap.1 hnamed
  obtain ⟨n, hn, hname⟩ := CrossReference.exists_note_of_mem_unmatchedIn hnamed
  exact h.offense (notes_subset_of_mem_blocks hb hn) hname

/-- The line below a run is the marker at most, so that `missingBlankLines` is the same. -/
theorem missingBlankLines (message : String) (opens : Comment → Option (Comment → Bool)) :
    missingBlankLines s' message (runEnds opens s'.comments) =
      missingBlankLines s message (runEnds opens s.comments) := by
  rw [runEnds_eq_map_runs, runEnds_eq_map_runs, missingBlankLines_map, missingBlankLines_map,
    h.comments]
  refine congrArg List.eraseDups (List.filterMap_congr fun r hr => ?_)
  have hle := h.line_le _ (last_mem_of_mem_runs hr)
  rw [missingBlank?, missingBlank?, h.isBlankLine hle, h.lineSpan? hle]

/-- Behind a blank line of the code there is a line of the code, or the marker; so
`methodSpacingOffense?` is the same. -/
theorem methodSpacingOffense? {b : CommentBlock} (hb : b ∈ s.blocks) :
    methodSpacingOffense? s' b = methodSpacingOffense? s b := by
  have hle : b.lastLine ≤ count := h.line_le _ (last_mem_of_mem_blocks hb)
  simp only [TypeNotes.methodSpacingOffense?, h.isBlankLine hle, h.isDefinitionLine hle,
    h.lineSpan? hle]
  split
  · rename_i hblank
    have hlt : b.lastLine + 1 ≤ count := by
      rcases Nat.lt_or_eq_of_le hle with hlt | heq
      · exact hlt
      · rw [heq, h.marker] at hblank
        cases hblank
    rw [h.isDefinitionLine hlt]
  · rfl

theorem methodSpacing : methodSpacing s' = methodSpacing s := by
  rw [TypeNotes.methodSpacing, TypeNotes.methodSpacing, h.blocks]
  exact List.filterMap_congr fun b hb => h.methodSpacingOffense? (List.mem_filter.1 hb).1

/-- `redundantUnder` a declaration is the same, wherever its parameter list ends. -/
theorem redundantUnder (d : Declaration) :
    redundantUnder s' d = redundantUnder s d ∧
      redundantUnder s (d.cutAt count) = redundantUnder s d := by
  refine ⟨funext fun b => ?_, funext fun b => ?_⟩
  · rw [TypeNotes.redundantUnder, TypeNotes.redundantUnder, h.comments]
  · rw [TypeNotes.redundantUnder, TypeNotes.redundantUnder, redundantResult?_cutAt h.line_le]

theorem redundantWithSkip : redundantWithSkip s' = redundantWithSkip s := by
  have hmarked : markedBlock? s' = markedBlock? s := by
    funext d
    rw [markedBlock?, markedBlock?, h.blocks]
  rw [redundantWithSkip_eq_sort, redundantWithSkip_eq_sort, hmarked]
  simp only [(h.redundantUnder _).1]
  refine congrArg Offense.sort (h.flatMap_declarations fun d => ?_)
  rw [(h.redundantUnder d).2]
  rfl

/-- Every rule finds the same offenses. -/
theorem check (rule : Rule) : rule.check s' = rule.check s := by
  cases rule with
  | invalidComment =>
    rw [Rule.check, TypeNotes.invalidComment, TypeNotes.invalidComment, h.comments]
  | invalidTypes => exact h.invalidTypes
  | keywordSeparator =>
    rw [Rule.check, TypeNotes.keywordSeparator, TypeNotes.keywordSeparator, h.comments,
      h.parameterComments]
  | parametersSeparator =>
    rw [Rule.check, TypeNotes.parametersSeparator, TypeNotes.parametersSeparator, h.comments]
  | unmatchedNotes => exact h.unmatchedNotes
  | embeddedSpacing => exact h.missingBlankLines _ _
  | methodSpacing => exact h.methodSpacing
  | variableSpacing => exact h.missingBlankLines _ _
  | redundantWithSkip => exact h.redundantWithSkip

/-- Every offense starts at the marker at the latest, so that `Violation.ofOffense` is the same. -/
theorem ofOffense {rule : Rule} (severity : Severity) {o : Offense} (ho : o ∈ rule.check s) :
    Violation.ofOffense s' rule severity o = Violation.ofOffense s rule severity o := by
  have hlocation : s'.location o.span.start = s.location o.span.start := by
    obtain ⟨c, hc, hon | hon⟩ := Rule.exists_startsOn_of_mem_check ho
    · exact h.location hon (Nat.le_succ_of_le (h.line_le c hc))
    · exact h.location hon (Nat.succ_le_succ (h.line_le c hc))
  rw [Violation.ofOffense, Violation.ofOffense, hlocation, h.path]

/-- All rules find the same in both files. -/
theorem lint (rules : RuleSet) : lint rules s' = lint rules s := by
  rw [TypeNotes.lint, TypeNotes.lint]
  congr 1
  refine List.flatMap_congr fun r _ => ?_
  simp only [h.check]
  exact List.map_congr_left fun o ho => h.ofOffense r.2 ho

end SameCode

/-! ### Files with data -/

/-- Files whose code ends with the same lines and the same marker have the same code (`SameCode`).
-/
theorem sameCode_of_endsAt {s s' : Source} {code : List (List Char)} {marker : List Char}
    (h : EndsAt s code marker) (h' : EndsAt s' code marker) (hpath : s'.path = s.path) :
    SameCode code.length s s' where
  path := hpath
  lines := by
    obtain ⟨data, hlines⟩ := h.lines
    obtain ⟨data', hlines'⟩ := h'.lines
    rw [hlines, hlines', List.take_length_add_append, List.take_length_add_append,
      List.take_succ_cons, List.take_succ_cons, List.take_zero, List.take_zero]
  marker := by
    obtain ⟨data, hlines⟩ := h.lines
    rw [Source.isBlankLine, Source.line?, hlines, List.getElem?_append_right (Nat.le_refl _),
      Nat.sub_self, List.getElem?_cons_zero, Option.map_some, Option.all_some, h.isBlank_marker]
  comments := h'.comments.trans h.comments.symm
  line_le _ hc := h.line_le hc
  declarations := h'.declarations.trans h.declarations.symm

/-- Lines of code, the end marker with carriage returns after it, and lines of data. -/
def withData (code : List (List Char)) (returns : Nat) (data : List (List Char)) : List Char :=
  Text.unlines (code ++ (endMarker ++ List.replicate returns '\r') :: data)

/-- The data of a file starts where its code has left the scanner at its start (`EndsAt`). -/
theorem endsAt_withData {code : List (List Char)} (hcode : ∀ line ∈ code, '\n' ∉ line)
    (htop : Place.start.after code = Place.start) (returns : Nat) (data : List (List Char))
    (path : String) :
    EndsAt ⟨path, withData code returns data⟩ code (endMarker ++ List.replicate returns '\r') where
  lines := by
    have hmarker : '\n' ∉ endMarker ++ List.replicate returns '\r' := by
      rw [List.mem_append, not_or]
      refine ⟨by decide, fun hmem => ?_⟩
      exact absurd (List.eq_of_mem_replicate hmem) (by decide)
    rw [Source.lines, withData, unlines_append_cons, lines_endLines_append hcode]
    by_cases hdata : data = []
    · rw [hdata, Text.unlines, Text.lines_of_not_mem hmarker]
      exact ⟨[], rfl⟩
    · rw [unlines_cons _ hdata, Text.lines_append_newline hmarker]
      exact ⟨_, rfl⟩
  after := htop
  marker := by
    induction returns with
    | zero => rfl
    | succ returns ih => rw [List.replicate_succ', ← List.append_assoc, dropReturns_append_return, ih]

/-- **The data section is inert.** Behind lines of code that leave the scanner at the top level, and
the end marker with any number of carriage returns after it, the lines of data make no difference to
what is reported, whichever rules are checked. -/
theorem lint_withData {code : List (List Char)} (hcode : ∀ line ∈ code, '\n' ∉ line)
    (htop : Place.start.after code = Place.start) (returns : Nat) (data data' : List (List Char))
    (rules : RuleSet) (path : String) :
    lint rules ⟨path, withData code returns data⟩ = lint rules ⟨path, withData code returns data'⟩ :=
  (sameCode_of_endsAt (endsAt_withData hcode htop returns data' path)
    (endsAt_withData hcode htop returns data path) rfl).lint rules

/-- A skipped method whose parameters are still open at the marker, and data that would close them in
front of a type. -/
theorem lint_withData_open :
    lint [(.redundantWithSkip, .warning)] ⟨"a.rb", withData
        ["# @rbs skip".toList, "# @rbs a: A".toList, "def m(a".toList] 1 [") #: void".toList]⟩ =
      [⟨"a.rb", 2, 1, "redundant-annotation-with-skip", .warning,
        "Redundant `@rbs` annotation. `@rbs skip` and `@rbs override` skip RBS generation."⟩] := by
  have hcode : ∀ line ∈ ["# @rbs skip".toList, "# @rbs a: A".toList, "def m(a".toList],
      '\n' ∉ line := by decide
  have htop : Place.start.after ["# @rbs skip".toList, "# @rbs a: A".toList, "def m(a".toList] =
      Place.start := by decide +kernel
  rw [lint_withData hcode htop 1 [") #: void".toList] []]
  decide +kernel

end TypeNotes
