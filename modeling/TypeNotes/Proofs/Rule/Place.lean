import TypeNotes.Proofs.Note.Order
import TypeNotes.Proofs.Rule.SourceOrder

/-!
# Where offenses start

Every offense starts on the line of a comment or on the line after one
(`Rule.exists_startsOn_of_mem_check`). An offense that is about a note starts in a comment of that
note, and notes share no comment, so offenses about different notes start at different places
(`pairwise_start_lt_notes`).
-/

namespace TypeNotes

open Ruby Utf8

variable {s : Source}

/-- An offense that starts in one of some comments starts in one of more. -/
theorem Offense.StartsIn.mono {cs cs' : List Comment} {o : Offense} (h : o.StartsIn cs)
    (hsub : cs ⊆ cs') : o.StartsIn cs' := by
  obtain ⟨c, hc, hstart⟩ := h
  exact ⟨c, hsub hc, hstart⟩

/-- An offense that starts in a comment starts on its line. -/
theorem Offense.StartsIn.exists_startsOn {o : Offense} (h : o.StartsIn s.comments) :
    ∃ c ∈ s.comments, o.StartsOn s c.line := by
  obtain ⟨c, hc, hstart, hstop⟩ := h
  exact ⟨c, hc, startsOn_comment hc hstart hstop⟩

/-! ### Places of comments -/

/-- An offense starts in one comment at most (`Offense.StartsIn`). -/
theorem eq_of_startsIn {c c' : Comment} (hc : c ∈ s.comments) (hc' : c' ∈ s.comments)
    {o : Offense} (h : o.StartsIn [c]) (h' : o.StartsIn [c']) : c = c' := by
  have hapart : s.comments.Pairwise fun a b => ¬ (o.StartsIn [a] ∧ o.StartsIn [b]) := by
    refine s.pairwise_comments.imp fun {a b} hbefore hboth => ?_
    refine Nat.lt_irrefl _ (hboth.1.start_lt hboth.2 ?_)
    simpa using hbefore
  have hsymm : Std.Symm fun a b : Comment => ¬ (o.StartsIn [a] ∧ o.StartsIn [b]) :=
    ⟨fun _ _ hnot hboth => hnot hboth.symm⟩
  by_contra hne
  exact hapart.forall hc hc' hne ⟨h, h'⟩

/-- Comments of a source that start at one place are the same. -/
theorem eq_of_start_eq {c c' : Comment} (hc : c ∈ s.comments) (hc' : c' ∈ s.comments)
    (h : c.start = c'.start) : c = c' := by
  have hstop := stop_of_mem_comments hc
  have hstop' := stop_of_mem_comments hc'
  have hstart : (Offense.mk c.span "").StartsIn [c] :=
    ⟨c, List.mem_singleton_self c, Nat.le_refl _, by simp only [Comment.span]; omega⟩
  have hstart' : (Offense.mk c.span "").StartsIn [c'] :=
    ⟨c', List.mem_singleton_self c', Nat.le_of_eq h.symm, by simp only [Comment.span]; omega⟩
  exact eq_of_startsIn hc hc' hstart hstart'

/-! ### Offenses about notes -/

section Notes

variable {n : Note} (hn : n ∈ s.notes)

include hn

/-- `typeOffense` starts in the comments of its note. -/
theorem startsIn_typeOffense {e : Signature.Error} (he : n.error = some e) :
    (typeOffense s n e).StartsIn n.comments := by
  obtain ⟨entry, hfrom, hread⟩ := exists_entry_of_mem_notes hn
  have hreads := Entry.reads_of_read? hread
  obtain ⟨shown, hshown, rfl⟩ := hreads.error e he
  obtain ⟨c, hshows⟩ := hfrom.exists_showsError hreads.comments hshown
  have hstop := Nat.le_trans hshows.start_le_stop hshows.stop_le
  exact ⟨c, hshows.mem, Nat.le_of_lt hshows.start_lt, hstop⟩

/-- `CrossReference.offense` starts in the comments of the note with the name. -/
theorem startsIn_offense {named : NamedType} (hname : n.named? = some named) :
    (CrossReference.offense s named).StartsIn n.comments := by
  obtain ⟨entry, hfrom, hread⟩ := exists_entry_of_mem_notes hn
  obtain ⟨before, rest, htext, -, hoffset⟩ := Entry.names_of_read? hread hname
  obtain ⟨c, pre, hlands⟩ := Entry.exists_lands hfrom htext
  have hplace : (CrossReference.offense s named).span.start = pre.length := by
    simp only [CrossReference.offense, Source.spanOfBytes, hoffset, hlands.characterOffset_before]
  have hstart := hlands.start
  have hstop := hlands.stop
  refine ⟨c, ?_, ?_, ?_⟩
  · rw [(Entry.reads_of_read? hread).comments]
    exact hlands.mem
  · omega
  · omega

/-- An offense for a whole note starts in its comments. -/
theorem startsIn_span (message : String) : (Offense.mk n.span message).StartsIn n.comments := by
  have hfirst : n.first ∈ s.comments := comments_subset_of_mem_notes hn List.mem_cons_self
  have hstop := stop_of_mem_comments hfirst
  refine ⟨n.first, List.mem_cons_self, Nat.le_refl _, ?_⟩
  simp only [Note.span]
  omega

end Notes

/-- Offenses about notes, one about a note at most, start one after another. -/
theorem pairwise_start_lt_notes {f : Note → Option Offense}
    (hf : ∀ n ∈ s.notes, ∀ o, f n = some o → o.StartsIn n.comments) :
    (s.notes.filterMap f).Pairwise fun a b => a.span.start < b.span.start := by
  refine List.pairwise_filterMap.2 (s.pairwise_notes.imp_of_mem ?_)
  intro n n' hn hn' hbefore o ho o' ho'
  exact (hf n hn o ho).start_lt (hf n' hn' o' ho') hbefore

/-- The notes of a block are notes of the source. -/
theorem notes_subset_of_mem_blocks {b : CommentBlock} (hb : b ∈ s.blocks) : b.notes ⊆ s.notes :=
  fun _ hn => List.mem_flatMap.2 ⟨b, hb, hn⟩

/-- `invalidTypes` reports the errors of all notes, in source order. -/
theorem invalidTypes_eq_sort (s : Source) :
    invalidTypes s = Offense.sort (s.notes.filterMap fun n => n.error.map (typeOffense s n)) := by
  rw [invalidTypes, Source.notes, List.filterMap_flatMap]

/-- `unmatchedNotes` are found note by note. -/
theorem unmatchedNotes_sublist (s : Source) :
    ((s.blocks.flatMap (CrossReference.unmatchedIn s.declarations)).map
      (CrossReference.offense s)).Sublist
        (s.notes.filterMap fun n => n.named?.map (CrossReference.offense s)) := by
  have hsub := flatMap_sublist_flatMap fun b (_ : b ∈ s.blocks) =>
    CrossReference.unmatchedIn_sublist s.declarations b
  rw [← List.filterMap_flatMap] at hsub
  rw [← List.map_filterMap]
  exact hsub.map _

/-! ### Offenses on a skipped method -/

/-- The block above a method, if it marks the method as skipped or overriding. -/
def markedBlock? (s : Source) (d : Declaration) : Option CommentBlock :=
  (leadingBlock? s.blocks d.line).filter fun b => b.notes.any fun n => (SkipMark.ofNote? n).isSome

/-- The `markedBlock?` of a declaration ends right above it. -/
theorem leadingBlock?_of_markedBlock? {d : Declaration} {b : CommentBlock}
    (h : markedBlock? s d = some b) : b ∈ s.blocks ∧ b.lastLine + 1 = d.line := by
  have hblock : leadingBlock? s.blocks d.line = some b := (Option.filter_eq_some_iff.1 h).1
  have habove := List.find?_some hblock
  rw [Bool.and_eq_true, beq_iff_eq] at habove
  exact ⟨List.mem_of_find?_eq_some hblock, habove.2⟩

/-- The offenses on a method under a block. -/
def redundantUnder (s : Source) (d : Declaration) (b : CommentBlock) : List Offense :=
  (redundantNotes none b.notes).map (fun (n, message) => ⟨n.span, message⟩) ++
    (redundantResult? s.comments d).toList

/-- `redundantWithSkip` reports what is redundant under each declaration with a marked block, in
source order. -/
theorem redundantWithSkip_eq_sort (s : Source) :
    redundantWithSkip s = Offense.sort (s.declarations.flatMap fun d =>
      (markedBlock? s d).toList.flatMap (redundantUnder s d)) := by
  rw [redundantWithSkip]
  refine congrArg Offense.sort (List.flatMap_congr fun d _ => ?_)
  rw [markedBlock?]
  cases leadingBlock? s.blocks d.line with
  | none => rfl
  | some b =>
    simp only [Option.filter_some]
    split
    · exact (List.append_nil _).symm
    · rfl

/-- `redundantNotes` are reported in the order they stand in. -/
theorem redundantNotes_sublist (first : Option SkipMark) (notes : List Note) :
    ((redundantNotes first notes).map Prod.fst).Sublist notes := by
  induction notes generalizing first with
  | nil => exact List.Sublist.refl _
  | cons n notes ih =>
    rw [redundantNotes]
    split
    · split
      · exact (ih _).cons n
      · exact (ih _).cons_cons n
    · cases redundancy? n with
      | none => exact (ih first).cons n
      | some message => exact (ih first).cons_cons n

/-- `redundantNotes` are among the notes of the block. -/
theorem mem_of_mem_redundantNotes {first : Option SkipMark} {notes : List Note}
    {y : Note × String} (h : y ∈ redundantNotes first notes) : y.1 ∈ notes :=
  (redundantNotes_sublist first notes).subset (List.mem_map_of_mem h)

/-- `redundantResult?` shows the first such comment on the line where the parameters end. -/
theorem exists_of_redundantResult? {d : Declaration} {o : Offense}
    (h : redundantResult? s.comments d = some o) :
    ∃ c ∈ s.comments, c.line = d.parametersEndLine ∧ o.span = c.span := by
  obtain ⟨c, hfind, rfl⟩ := Option.map_eq_some_iff.1 h
  have hfits := List.find?_some hfind
  rw [Bool.and_eq_true, beq_iff_eq] at hfits
  exact ⟨c, List.mem_of_find?_eq_some hfind, hfits.1, rfl⟩

/-- What is `redundantUnder` a declaration starts in a comment of the source. -/
theorem startsIn_of_mem_redundantUnder {d : Declaration} {b : CommentBlock} (hb : b ∈ s.blocks)
    {o : Offense} (h : o ∈ redundantUnder s d b) : o.StartsIn s.comments := by
  rcases List.mem_append.1 h with h | h
  · obtain ⟨y, hy, rfl⟩ := List.mem_map.1 h
    have hn : y.1 ∈ s.notes := notes_subset_of_mem_blocks hb (mem_of_mem_redundantNotes hy)
    exact (startsIn_span hn y.2).mono (comments_subset_of_mem_notes hn)
  · obtain ⟨c, hc, -, hspan⟩ := exists_of_redundantResult? (Option.mem_toList.1 h)
    have hstart : o.span.start = c.start := congrArg Range.start hspan
    have hstop := stop_of_mem_comments hc
    exact ⟨c, hc, by omega, by omega⟩

/-! ### Offenses after runs -/

/-- `runEnd` is the first comment of the run, or one that follows. -/
theorem runEnd_mem (continues : Comment → Bool) (c : Comment) (rest : List Comment) :
    runEnd continues c rest ∈ c :: rest := by
  induction rest generalizing c with
  | nil => exact List.mem_cons_self
  | cons d rest ih =>
    rw [runEnd]
    split
    · exact List.mem_cons_of_mem c (ih d)
    · exact List.mem_cons_self

/-- Runs end with comments of the source. -/
theorem last_mem_of_mem_runs {opens : Comment → Option (Comment → Bool)} {cs : List Comment}
    {r : Run} (h : r ∈ runs opens cs) : r.last ∈ cs := by
  obtain ⟨above, below, continues, rfl, -, hlast⟩ := exists_of_mem_runs h
  rw [hlast]
  exact List.mem_append_right above (runEnd_mem continues r.opener below)

/-- `missingBlankLines` are reported on the line below a comment. -/
theorem exists_startsOn_of_mem_missingBlankLines {message : String}
    {opens : Comment → Option (Comment → Bool)} {o : Offense}
    (h : o ∈ missingBlankLines s message (runEnds opens s.comments)) :
    ∃ c ∈ s.comments, o.StartsOn s (c.line + 1) := by
  rw [runEnds_eq_map_runs, missingBlankLines_map, List.mem_eraseDups] at h
  obtain ⟨r, hr, ho⟩ := List.mem_filterMap.1 h
  exact ⟨r.last, last_mem_of_mem_runs hr, (startsOn_of_missingBlank? ho).2⟩

/-! ### All rules -/

/-- Every offense starts on the line of a comment, or on the line after one. -/
theorem Rule.exists_startsOn_of_mem_check {rule : Rule} {o : Offense} (h : o ∈ rule.check s) :
    ∃ c ∈ s.comments, o.StartsOn s c.line ∨ o.StartsOn s (c.line + 1) := by
  have hcomment : o.StartsIn s.comments →
      ∃ c ∈ s.comments, o.StartsOn s c.line ∨ o.StartsOn s (c.line + 1) := by
    intro hstart
    obtain ⟨c, hc, hon⟩ := hstart.exists_startsOn
    exact ⟨c, hc, .inl hon⟩
  have hnote : ∀ n ∈ s.notes, o.StartsIn n.comments → o.StartsIn s.comments :=
    fun n hn hstart => hstart.mono (comments_subset_of_mem_notes hn)
  have hafter : ∀ message opens, o ∈ missingBlankLines s message (runEnds opens s.comments) →
      ∃ c ∈ s.comments, o.StartsOn s c.line ∨ o.StartsOn s (c.line + 1) := by
    intro message opens ho
    obtain ⟨c, hc, hon⟩ := exists_startsOn_of_mem_missingBlankLines ho
    exact ⟨c, hc, .inr hon⟩
  cases rule with
  | invalidComment => exact hcomment ((onComments_invalidComment s).startsIn h)
  | invalidTypes =>
    rw [Rule.check, invalidTypes_eq_sort, (Offense.sort_perm _).mem_iff] at h
    obtain ⟨n, hn, ho⟩ := List.mem_filterMap.1 h
    obtain ⟨e, he, rfl⟩ := Option.map_eq_some_iff.1 ho
    exact hcomment (hnote n hn (startsIn_typeOffense hn he))
  | keywordSeparator => exact hcomment ((onComments_keywordSeparator s).startsIn h)
  | parametersSeparator => exact hcomment ((onComments_parametersSeparator s).startsIn h)
  | unmatchedNotes =>
    rw [Rule.check, unmatchedNotes_eq_sort, (Offense.sort_perm _).mem_iff] at h
    obtain ⟨n, hn, ho⟩ := List.mem_filterMap.1 ((unmatchedNotes_sublist s).subset h)
    obtain ⟨named, hname, rfl⟩ := Option.map_eq_some_iff.1 ho
    exact hcomment (hnote n hn (startsIn_offense hn hname))
  | embeddedSpacing => exact hafter _ _ h
  | methodSpacing =>
    obtain ⟨b, hb, ho⟩ := List.mem_filterMap.1 h
    have hb := (List.mem_filter.1 hb).1
    refine ⟨b.last, last_mem_of_mem_blocks hb, ?_⟩
    exact (startsOn_of_methodSpacingOffense? hb ho).imp_right And.right
  | variableSpacing => exact hafter _ _ h
  | redundantWithSkip =>
    rw [Rule.check, redundantWithSkip_eq_sort, (Offense.sort_perm _).mem_iff] at h
    obtain ⟨d, -, hd⟩ := List.mem_flatMap.1 h
    obtain ⟨b, hblock, ho⟩ := List.mem_flatMap.1 hd
    obtain ⟨hb, -⟩ := leadingBlock?_of_markedBlock? (Option.mem_toList.1 hblock)
    exact hcomment (startsIn_of_mem_redundantUnder hb ho)

end TypeNotes
