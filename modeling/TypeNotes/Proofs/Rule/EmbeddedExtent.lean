import TypeNotes.Proofs.Note.Grouping
import TypeNotes.Proofs.Note.Marker
import TypeNotes.Proofs.Rule.SourceOrder

/-!
# How far embedded declarations reach

Embedded declarations are told twice: as a note, which takes the comments of its block that the
marker owns, and as a run of comments, after which a blank line is asked for. The run goes on as
long as the comments are blank or indented deeper than the marker. It asks neither for the column in
which they start nor for markers of their own.

**Where they agree.** The run never ends above the end of the note, and it ends there unless the
next comment goes on with the run for one of these two reasons (`embeddedRun_last_eq_iff`). So the
line after the text of the declarations is the one that is checked, up to such comments.
-/

namespace TypeNotes

open Ruby

/-! ### The end of a run -/

theorem mem_runs {opens : Comment → Option (Comment → Bool)} {c : Comment}
    {continues : Comment → Bool} (h : opens c = some continues) (above below : List Comment) :
    ⟨c, runEnd continues c below⟩ ∈ runs opens (above ++ c :: below) := by
  induction above with
  | nil =>
    rw [List.nil_append, runs, h]
    exact List.mem_cons_self
  | cons d above ih =>
    rw [List.cons_append, runs]
    split
    · exact List.mem_cons_of_mem _ ih
    · exact ih

/-- In `runs`, a comment opens one run at most. -/
theorem eq_of_mem_runs {opens : Comment → Option (Comment → Bool)} {cs : List Comment}
    (hcs : cs.Pairwise fun a b => a.line < b.line) {r r' : Run} (hr : r ∈ runs opens cs)
    (hr' : r' ∈ runs opens cs) (h : r.opener = r'.opener) : r = r' := by
  have hlines : ((runs opens cs).map (·.opener.line)).Nodup :=
    List.pairwise_map.2 ((pairwise_runs opens hcs).imp fun hab => Nat.ne_of_lt hab.1)
  exact List.inj_on_of_nodup_map hlines hr hr' (congrArg Comment.line h)

/-- `runEnd` goes through all comments that follow each other and continue the run. -/
theorem runEnd_append {continues : Comment → Bool} {c : Comment} {own : List Comment}
    (hlines : (c :: own).IsChain fun a b => a.line + 1 = b.line) (hown : ∀ d ∈ own, continues d)
    (rest : List Comment) :
    runEnd continues c (own ++ rest) = runEnd continues (own.getLastD c) rest := by
  induction own generalizing c with
  | nil => rfl
  | cons d own ih =>
    obtain ⟨hline, hlines⟩ := List.isChain_cons_cons.1 hlines
    obtain ⟨hd, hown⟩ := List.forall_mem_cons.1 hown
    rw [List.cons_append, runEnd, hd, ← hline, beq_self_eq_true, Bool.and_self, if_pos rfl,
      ih hlines hown, List.getLastD_cons]

/-- `runEnd` stays at a comment if none on the next line continues it. -/
theorem runEnd_eq_self_iff {continues : Comment → Bool} {c : Comment} {rest : List Comment}
    (hlines : (c :: rest).Pairwise fun a b => a.line < b.line) :
    runEnd continues c rest = c ↔ ∀ d ∈ rest, d.line = c.line + 1 → continues d = false := by
  cases rest with
  | nil => simp [runEnd]
  | cons d rest =>
    obtain ⟨hbelow, hrest⟩ := List.pairwise_cons.1 hlines
    have hlater : ∀ e ∈ rest, e.line ≠ c.line + 1 := by
      intro e he
      have hlt := (List.pairwise_cons.1 hrest).1 e he
      have hlt' := hbelow d List.mem_cons_self
      omega
    have hfirst : (∀ e ∈ d :: rest, e.line = c.line + 1 → continues e = false) ↔
        (d.line = c.line + 1 → continues d = false) := by
      refine ⟨fun h => h d List.mem_cons_self, fun h e he hline => ?_⟩
      rcases List.mem_cons.1 he with rfl | he
      · exact h hline
      · exact absurd hline (hlater e he)
    rw [hfirst, runEnd]
    split
    · rename_i hnext
      obtain ⟨hline, hcontinues⟩ := Bool.and_eq_true_iff.1 hnext
      have hline : d.line = c.line + 1 := beq_iff_eq.1 hline
      have hle := line_le_runEnd continues d rest
      refine iff_of_false (fun heq => ?_) fun h => ?_
      · rw [heq] at hle
        omega
      · rw [h hline] at hcontinues
        cases hcontinues
    · rename_i hnext
      refine iff_of_true rfl fun hline => ?_
      simpa [hline] using hnext

/-! ### The comments of the note -/

/-- Where the comments of the note stand in their block: behind the marker, up to the first comment
that the marker does not own. -/
structure Note.Fills (n : Note) (m : Marker) (b : CommentBlock) (above rest : List Comment) :
    Prop where
  comments : b.comments = above ++ (n.first :: n.more ++ rest)
  owned : ∀ c ∈ n.more, m.owns c
  ends : ∀ c ∈ rest.head?, m.owns c = false

/-- Embedded declarations are always a note. -/
theorem exists_fills_of_bang {s : Source} {c : Comment} (hc : c ∈ s.comments) {m : Marker}
    (hm : Marker.ofBody? c.body = some m) (hbang : m.bang = true) :
    ∃ b ∈ s.blocks, ∃ n ∈ b.notes, n.first = c ∧ (∃ k, n.content = .embedded k) ∧
      ∃ above rest, n.Fills m b above rest := by
  obtain ⟨b, hb, above, below, hparts, he⟩ := exists_entry_of_marker hc hm
  obtain ⟨n, hread, hcontent⟩ : ∃ n, (m.entry c (below.takeWhile m.owns)).read? = some n ∧
      ∃ k, n.content = .embedded k := by
    simp only [Entry.read?, Marker.entry, hbang, if_true]
    exact ⟨_, rfl, _, rfl⟩
  have hcomments := (Entry.reads_of_read? hread).comments
  rw [m.comments_entry] at hcomments
  obtain ⟨hfirst, hmore⟩ := List.cons.inj hcomments
  refine ⟨b, hb, n, List.mem_filterMap.2 ⟨_, he, hread⟩, hfirst, hcontent, above,
    below.dropWhile m.owns, ?_, fun d hd => ?_, fun d hd => ?_⟩
  · rw [hparts, hfirst, hmore, List.cons_append, List.takeWhile_append_dropWhile]
  · rw [hmore] at hd
    exact List.mem_takeWhile_imp hd
  · have hnot := List.head?_dropWhile_not m.owns below
    rw [Option.mem_def] at hd
    rwa [hd] at hnot

theorem Note.getLast?_append_comments (n : Note) (above : List Comment) :
    (above ++ n.first :: n.more).getLast? = some n.last := by
  rw [List.getLast?_append, List.getLast?_cons, Note.last, List.getLastD_eq_getLast?]
  rfl

/-- What stands on lines after the last one of the first comments is not among them. -/
theorem mem_of_last_line_lt {front back : List Comment}
    (hlines : (front ++ back).Pairwise fun a b => a.line < b.line) {a c : Comment}
    (ha : front.getLast? = some a) (hc : c ∈ front ++ back) (hlt : a.line < c.line) : c ∈ back := by
  rcases List.mem_append.1 hc with hfront | hback
  · obtain ⟨before, rfl⟩ := List.getLast?_eq_some_iff.1 ha
    rcases List.mem_append.1 hfront with hbefore | hlast
    · have hlines' := (List.pairwise_append.1 (List.pairwise_append.1 hlines).1).2.2
      have hlt' := hlines' c hbefore a (List.mem_singleton_self a)
      omega
    · rw [List.mem_singleton.1 hlast] at hlt
      exact absurd hlt (Nat.lt_irrefl _)
  · exact hback

/-! ### Comments after the note -/

/-- The run of embedded declarations goes on below their note with this comment, although it starts
in another column or has a marker of its own. -/
def Overruns (indent : Nat) (n : Note) (c : Comment) : Prop :=
  c.line = n.last.line + 1 ∧ continuesEmbedded indent c ∧
    (c.column ≠ n.first.column ∨ (Marker.ofBody? c.body).isSome)

instance (indent : Nat) (n : Note) (c : Comment) : Decidable (Overruns indent n c) :=
  inferInstanceAs (Decidable (_ ∧ _))

theorem continuesEmbedded_of_owns {m : Marker} {c : Comment} (hc : c.inline = false)
    (h : m.owns c) : continuesEmbedded m.indent c := by
  have hdeeper := (Marker.owns_iff.1 h).2
  simp only [continuesEmbedded, hc, Bool.not_false, Bool.true_and, Bool.or_eq_true,
    decide_eq_true_eq]
  exact hdeeper.symm

/-- What `continuesEmbedded` is no assertion, so the marker owns it if it has no marker itself. -/
theorem owns_of_continuesEmbedded {m : Marker} {c : Comment} (h : continuesEmbedded m.indent c)
    (hc : Marker.ofBody? c.body = none) : m.owns c := by
  simp only [continuesEmbedded, Bool.and_eq_true, Bool.or_eq_true, decide_eq_true_eq] at h
  have hcolon : isColonLine c = false := by
    cases hbody : c.body with
    | nil => simp [isColonLine, hbody]
    | cons d rest =>
      have hne : d ≠ ':' := by
        rintro rfl
        have hspace : Unicode.isSpace ':' = false := by decide
        rw [hbody] at h
        simp [indentation, Text.isBlank, hspace] at h
      simpa [isColonLine, hbody] using hne
  refine Marker.owns_iff.2 ⟨?_, h.2.symm⟩
  rw [opensEntry, hc, hcolon]
  rfl

section Extent

variable {s : Source} {n : Note} {m : Marker} {b : CommentBlock} {above rest : List Comment}

theorem Note.Fills.isChain (hfills : n.Fills m b above rest) (hb : b ∈ s.blocks) :
    (n.first :: n.more).IsChain fun a b => CommentBlock.joins a b := by
  have hchain := CommentBlock.uniform_iff_isChain.1
    ((CommentBlock.isGrouping_group s.comments).1.uniform b hb)
  rw [hfills.comments] at hchain
  exact (List.isChain_append.1 (List.isChain_append.1 hchain).2.1).1

/-- A comment on the next line of the file that starts in the same column goes on with the block. -/
theorem mem_rest_of_column_eq (hb : b ∈ s.blocks) (hfills : n.Fills m b above rest)
    (hown : n.first.inline = false) {c : Comment} (hc : c ∈ s.comments) (hinline : c.inline = false)
    (hline : c.line = n.last.line + 1) (hcolumn : c.column = n.first.column) : c ∈ rest := by
  have hparts : b.comments = (above ++ n.first :: n.more) ++ rest := by
    rw [hfills.comments, List.append_assoc]
  have hlast : n.last ∈ b.comments := by
    rw [hparts]
    exact List.mem_append_left _ (List.mem_of_getLast? (n.getLast?_append_comments above))
  have hsame := CommentBlock.eq_first_of_isChain (hfills.isChain hb) n.last
    (List.mem_of_getLast? (n.getLast?_append_comments []))
  have hjoins : CommentBlock.joins n.last c :=
    CommentBlock.joins_iff.2 ⟨hsame.1.trans hown, hinline, hline.symm, hsame.2.trans hcolumn.symm⟩
  have hmem := mem_comments_of_joins hb hlast hc hjoins
  have hsorted := s.pairwise_lines.sublist (CommentBlock.sublist_of_mem_group hb)
  rw [hparts] at hmem hsorted
  exact mem_of_last_line_lt hsorted (n.getLast?_append_comments above) hmem (by omega)

/-- A comment on the next line continues the run only if it is not in the block, or has a marker
(`Overruns`). -/
theorem overruns_of_continuesEmbedded (hb : b ∈ s.blocks) (hfills : n.Fills m b above rest)
    (hown : n.first.inline = false) {c : Comment} (hc : c ∈ s.comments)
    (hline : c.line = n.last.line + 1) (hcontinues : continuesEmbedded m.indent c) :
    Overruns m.indent n c := by
  refine ⟨hline, hcontinues, ?_⟩
  by_contra hnot
  rw [not_or, not_not, Option.not_isSome_iff_eq_none] at hnot
  obtain ⟨hcolumn, hmarker⟩ := hnot
  have hinline : c.inline = false := by simpa using (Bool.and_eq_true_iff.1 hcontinues).1
  have hmem := mem_rest_of_column_eq hb hfills hown hc hinline hline hcolumn
  have hsorted := s.pairwise_lines.sublist (CommentBlock.sublist_of_mem_group hb)
  rw [hfills.comments] at hsorted
  obtain ⟨-, hsorted, -⟩ := List.pairwise_append.1 hsorted
  -- The marker owns the comment, which is not the next one of the block then, but there is no line
  -- for the next one.
  cases rest with
  | nil => cases hmem
  | cons d rest =>
    have hends := hfills.ends d rfl
    obtain ⟨-, hrest, hbefore⟩ := List.pairwise_append.1 hsorted
    rcases List.mem_cons.1 hmem with rfl | hlater
    · rw [owns_of_continuesEmbedded hcontinues hmarker] at hends
      cases hends
    · have hlt := (List.pairwise_cons.1 hrest).1 c hlater
      have hlast := List.mem_of_getLast? (n.getLast?_append_comments [])
      have hlt' := hbefore n.last hlast d List.mem_cons_self
      omega

/-- One of the `embeddedRuns` is opened by the marker of the note, and goes through its comments. -/
theorem exists_embeddedRun (hb : b ∈ s.blocks) (hfills : n.Fills m b above rest)
    (hown : n.first.inline = false) (hmarker : Shape.embeddedIndent? n.first.text = some m.indent) :
    ∃ front back, s.comments = front ++ n.first :: n.more ++ back ∧
      ⟨n.first, runEnd (continuesEmbedded m.indent) n.last back⟩ ∈ embeddedRuns s := by
  obtain ⟨front, back, hcomments⟩ :
      ∃ front back, s.comments = front ++ n.first :: (n.more ++ back) := by
    obtain ⟨blocks, later, hblocks⟩ := List.append_of_mem hb
    refine ⟨blocks.flatMap (·.comments) ++ above, rest ++ later.flatMap (·.comments), ?_⟩
    rw [← CommentBlock.flatMap_comments_group s.comments, ← Source.blocks, hblocks,
      List.flatMap_append, List.flatMap_cons, hfills.comments]
    simp
  have hchain := hfills.isChain hb
  have hlines : (n.first :: n.more).IsChain fun a b => a.line + 1 = b.line :=
    hchain.imp fun a b hjoin => (CommentBlock.joins_iff.1 hjoin).2.2.1
  have hcontinues : ∀ d ∈ n.more, continuesEmbedded m.indent d := by
    intro d hd
    have hsame := (CommentBlock.eq_first_of_isChain hchain d (List.mem_cons_of_mem _ hd)).1
    exact continuesEmbedded_of_owns (hsame.trans hown) (hfills.owned d hd)
  have hopens : (Shape.embeddedIndent? n.first.text).map continuesEmbedded =
      some (continuesEmbedded m.indent) := by rw [hmarker, Option.map_some]
  have hrun : ⟨n.first, runEnd (continuesEmbedded m.indent) n.first (n.more ++ back)⟩ ∈
      embeddedRuns s := by
    rw [embeddedRuns, hcomments]
    exact mem_runs hopens front (n.more ++ back)
  rw [runEnd_append hlines hcontinues] at hrun
  exact ⟨front, back, by rw [hcomments, List.append_assoc, List.cons_append], hrun⟩

end Extent

/-- `embeddedSpacing` reports the lines after the runs. -/
theorem mem_embeddedSpacing_iff {s : Source} {o : Offense} : o ∈ embeddedSpacing s ↔
    ∃ r ∈ embeddedRuns s, missingBlank? s "`@rbs!` comment must be followed by a blank line."
      r.last.line = some o := by
  rw [embeddedSpacing_eq, missingBlankLines_map, List.mem_eraseDups, List.mem_filterMap]

/-- **The extent of embedded declarations.** A comment on a line of its own with the marker `@rbs!`
heads a note of embedded declarations and opens one run of comments, which does not end above the
end of the note. The run ends with the note unless the comment on the next line goes on with it
although it starts in another column or has a marker of its own. After the run, the next line has an
offense if it is not blank. -/
theorem embeddedRun_last_eq_iff {s : Source} {n : Note} (hn : n ∈ s.notes)
    (hown : n.first.inline = false) {indent : Nat}
    (hmarker : Shape.embeddedIndent? n.first.text = some indent) :
    (∃ declarations, n.content = .embedded declarations) ∧
      ∃ r ∈ embeddedRuns s, r.opener = n.first ∧
        (∀ r' ∈ embeddedRuns s, r'.opener = n.first → r' = r) ∧
        n.last.line ≤ r.last.line ∧
        (r.last = n.last ↔ ∀ c ∈ s.comments, ¬ Overruns indent n c) ∧
        ∀ o, missingBlank? s "`@rbs!` comment must be followed by a blank line."
          r.last.line = some o → o ∈ embeddedSpacing s := by
  have hfirst : n.first ∈ s.comments := comments_subset_of_mem_notes hn List.mem_cons_self
  obtain ⟨body, gap, after, htext, -, hspells⟩ := Shape.embeddedIndent?_eq_some_iff.1 hmarker
  have hbody := Comment.body_eq htext
  have hm : Marker.ofBody? n.first.body = some ⟨indent, true⟩ := hbody ▸ hspells.ofBody?
  obtain ⟨b, hb, n', hn', hfirst', hcontent, above, rest, hfills⟩ :=
    exists_fills_of_bang hfirst hm rfl
  obtain rfl : n' = n := Note.eq_of_mem_comments (List.mem_flatMap.2 ⟨b, hb, hn'⟩) hn
    (List.mem_cons_self) (by rw [hfirst']; exact List.mem_cons_self)
  obtain ⟨front, back, hparts, hrun⟩ := exists_embeddedRun hb hfills hown hmarker
  have hsorted := s.pairwise_lines
  rw [hparts] at hsorted
  have hback : (n'.last :: back).Pairwise fun a b => a.line < b.line := by
    obtain ⟨-, hlater, hbefore⟩ := List.pairwise_append.1 hsorted
    exact List.pairwise_cons.2
      ⟨hbefore _ (List.mem_of_getLast? (n'.getLast?_append_comments front)), hlater⟩
  refine ⟨hcontent, _, hrun, rfl, fun r' hr' hopener => ?_, line_le_runEnd _ _ _, ?_, ?_⟩
  · exact eq_of_mem_runs s.pairwise_lines hr' hrun hopener
  · rw [runEnd_eq_self_iff hback]
    constructor
    · rintro hends c hc ⟨hline, hcontinues, -⟩
      rw [hparts] at hc
      have hmem := mem_of_last_line_lt hsorted (n'.getLast?_append_comments front) hc (by omega)
      rw [hends c hmem hline] at hcontinues
      cases hcontinues
    · intro hnone c hc hline
      rw [← Bool.not_eq_true]
      intro hcontinues
      have hmem : c ∈ s.comments := hparts ▸ List.mem_append_right _ hc
      exact hnone c hmem (overruns_of_continuesEmbedded hb hfills hown hmem hline hcontinues)
  · intro o ho
    exact mem_embeddedSpacing_iff.2 ⟨_, hrun, ho⟩

/-- A type that goes on over two lines with a blank comment in between, in front of code. -/
theorem embeddedRun_last_eq_union :
    let s := Source.ofText "# @rbs! type a = Integer\n#\n#   | Symbol\nx = 1".toList
    ∃ n ∈ s.notes, n.first.inline = false ∧ Shape.embeddedIndent? n.first.text = some 1 ∧
      n.last.line = 3 ∧ ∃ r ∈ embeddedRuns s, r.opener = n.first ∧ r.last = n.last ∧
        ∀ o, missingBlank? s "`@rbs!` comment must be followed by a blank line." 3 = some o →
          o ∈ embeddedSpacing s := by
  intro s
  have hnote : ∃ n ∈ s.notes, n.first.inline = false ∧
      Shape.embeddedIndent? n.first.text = some 1 ∧ n.last.line = 3 ∧
      ∀ c ∈ s.comments, ¬ Overruns 1 n c := by decide +kernel
  obtain ⟨n, hn, hown, hmarker, hline, hnone⟩ := hnote
  obtain ⟨-, r, hr, hopener, -, -, hiff, hoffense⟩ := embeddedRun_last_eq_iff hn hown hmarker
  have hlast := hiff.2 hnone
  rw [hlast, hline] at hoffense
  exact ⟨n, hn, hown, hmarker, hline, r, hr, hopener, hlast, hoffense⟩

/-- The run goes on with a comment in another column, and with one that has a marker of its own. The
notes end above these. -/
theorem embeddedRun_last_ne :
    (∃ n ∈ (Source.ofText "# @rbs! type a = Integer\n  #   | Symbol\nx = 1".toList).notes,
      n.content = .embedded 1 ∧ n.first.inline = false ∧
      Shape.embeddedIndent? n.first.text = some 1 ∧
      ∃ r ∈ embeddedRuns (.ofText "# @rbs! type a = Integer\n  #   | Symbol\nx = 1".toList),
        r.opener = n.first ∧ r.last ≠ n.last) ∧
    ∃ n ∈ (Source.ofText
        "# @rbs! type a = Integer\n#    @rbs! type b = String\n#   | Symbol\nx = 1".toList).notes,
      n.content = .embedded 1 ∧ n.first.inline = false ∧
      Shape.embeddedIndent? n.first.text = some 1 ∧
      ∃ r ∈ embeddedRuns (.ofText
          "# @rbs! type a = Integer\n#    @rbs! type b = String\n#   | Symbol\nx = 1".toList),
        r.opener = n.first ∧ r.last ≠ n.last := by
  decide +kernel

end TypeNotes
