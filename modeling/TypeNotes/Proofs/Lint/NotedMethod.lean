import TypeNotes.Proofs.Note.Written
import TypeNotes.Proofs.Rule.Motion

/-!
# Methods with well-formed notes have no violations

A `NotedMethod` is a method without default values, and notes directly above it: each on a line of
its own, in any order and any number of times, about one of the parameters or the result, and with a
type that is accepted by itself. Parameters may be named like the keywords of notes, and the file
may end with any number of newlines.

**The tables of its file** are what was written. Each note is a comment, all comments make up one
block, the block is claimed by the only declaration, and the declaration has the parameters of the
method (`comments_source`, `mem_blocks`, `exists_declaration`). Every note of the block is read
without an error and is about what its name says (`exists_tells`).

**No rule** finds an offense in these tables (`check_source`), whatever rules there are and whatever
severities they have.
-/

namespace TypeNotes

open Ruby

/-! ### Methods with notes -/

/-- A note about a method: a name, and a type on one line that is accepted by itself. -/
structure WrittenNote where
  name : List Char
  type : List Char
  single : '\n' ∉ type
  accepted : ∃ answer, (grammarOf name).whole.answer (Utf8.encode type) = .ok answer

/-- The line of a note. -/
def WrittenNote.line (n : WrittenNote) : List Char := noteText n.name n.type

/-- A method without default values, notes about its parameters and its result, and the number of
newlines below it. -/
structure NotedMethod where
  name : PlainName
  parameters : List PlainParameter
  notes : List WrittenNote
  below : Nat
  about : ∀ n ∈ notes, n.name = "return".toList ∨
    ∃ p ∈ parameters, n.name ∈ p.parameter.matchableNames

namespace NotedMethod

/-- The lines of the notes, below them the line of the definition, and what is below it. -/
def lines (m : NotedMethod) : List (List Char) :=
  m.notes.map WrittenNote.line ++ definitionLine m.name m.parameters :: List.replicate m.below []

/-- The file with these lines and no others. -/
def source (m : NotedMethod) (path : String) : Source := ⟨path, Text.unlines m.lines⟩

variable (m : NotedMethod) (path : String)

/-- The name of a note is one of the names that a note may have. -/
theorem isNoteName {n : WrittenNote} (hn : n ∈ m.notes) : IsNoteName n.name := by
  rcases m.about n hn with hname | ⟨p, -, hname⟩
  · have hreturn : IsNoteName "return".toList := .plain ⟨"return".toList, by decide, by decide⟩
    exact hname ▸ hreturn
  · exact isNoteName_of_mem_matchableNames hname

end NotedMethod

/-! ### Lines -/

/-- `noteText` stands on one line, if the type does. -/
theorem newline_not_mem_noteText {name type : List Char} (h : IsNoteName name)
    (htype : '\n' ∉ type) : '\n' ∉ noteText name type := by
  have hname : '\n' ∉ name := fun hmem => absurd (h.ne_of_mem hmem).1 (by decide)
  rw [noteText_eq]
  simp [hname, htype]

/-- A line with empty lines below it is the line with newlines behind it. -/
theorem unlines_cons_replicate (line : List Char) (below : Nat) :
    Text.unlines (line :: List.replicate below []) = line ++ List.replicate below '\n' := by
  induction below generalizing line with
  | zero => simp [Text.unlines]
  | succ below ih => rw [List.replicate_succ, unlines_cons _ (by simp), ih]; rfl

/-- Carriage returns of `noteText` are in its type. -/
theorem dropReturns_noteText (name type : List Char) :
    Text.dropReturns (noteText name type) = noteText name (Text.dropReturns type) := by
  have hdrop := dropReturns_append (by decide : ' ' ≠ '\r') ("# @rbs ".toList ++ name ++ [':']) type
  rwa [List.append_assoc _ [':'], List.append_assoc _ [':']] at hdrop

namespace WrittenNote

/-- The masked line of a note. -/
def masked (n : WrittenNote) : MaskedLine := ⟨Text.blanks n.line.length, some 0⟩

/-- The comments of notes on lines of their own, the first of which is at this place. -/
def comments (p : LinePlace) : List WrittenNote → List Comment
  | [] => []
  | n :: notes => Comment.ofLine p n.line 0 :: comments (p.next n.line) notes

/-- `maskAll` leaves empty lines as they are. -/
theorem maskAll_replicate (below : Nat) :
    Place.start.maskAll (List.replicate below []) = List.replicate below ⟨[], none⟩ := by
  induction below with
  | zero => rfl
  | succ below ih => rw [List.replicate_succ, Place.maskAll, mask_nil, ih]; rfl

/-- The line of a definition is below the lines of notes, and all of it is shown. -/
theorem maskAll_lines (notes : List WrittenNote) (name : PlainName) (ps : List PlainParameter)
    (below : Nat) :
    Place.start.maskAll (notes.map line ++ definitionLine name ps :: List.replicate below []) =
      notes.map masked ++ ⟨definitionLine name ps, none⟩ :: List.replicate below ⟨[], none⟩ := by
  induction notes with
  | nil => simp [Place.maskAll, mask_definitionLine, maskAll_replicate]
  | cons n notes ih =>
    have hmask : Place.start.mask n.line = (n.masked, Place.start) := mask_hash _
    rw [List.map_cons, List.cons_append, Place.maskAll, hmask, ih]
    rfl

/-- `commentsFrom` empty lines there are none. -/
theorem commentsFrom_replicate (p : LinePlace) (below : Nat) :
    commentsFrom p ((List.replicate below []).zip (List.replicate below ⟨[], none⟩)) = [] := by
  induction below generalizing p with
  | zero => rfl
  | succ below ih => exact ih (p.next [])

/-- The comments of the file are those of its notes. -/
theorem commentsFrom_lines (p : LinePlace) (notes : List WrittenNote) (definition : List Char)
    (below : Nat) :
    commentsFrom p ((notes.map line ++ definition :: List.replicate below []).zip
      (notes.map masked ++ ⟨definition, none⟩ :: List.replicate below ⟨[], none⟩)) =
        comments p notes := by
  induction notes generalizing p with
  | nil => exact commentsFrom_replicate (p.next definition) below
  | cons n notes ih => exact congrArg (Comment.ofLine p n.line 0 :: ·) (ih (p.next n.line))

theorem spaced_blanks (count : Nat) : Spaced (Text.blanks count) := by
  induction count with
  | zero => exact .nil
  | succ count ih => exact List.isChain_cons.2 ⟨fun _ _ _ => by decide, ih⟩

/-- Masked notes declare nothing, and end one line each. -/
theorem declarationsFrom_masked (notes : List WrittenNote) {more : List MaskedLine}
    (hmore : more ≠ []) (number : Nat) {previous : Option Char}
    (hprevious : previous.any gluesWord = false) :
    ∃ previous' : Option Char, previous'.any gluesWord = false ∧
      declarationsFrom number previous
          (Text.unlines ((notes.map masked ++ more).map (·.text))) =
        declarationsFrom (number + notes.length) previous'
          (Text.unlines (more.map (·.text))) := by
  induction notes generalizing number previous with
  | nil => exact ⟨previous, hprevious, rfl⟩
  | cons n notes ih =>
    -- What stands before the next line is a newline, whatever stood before this one.
    have hblanks := declarationsFrom_of_spaced (spaced_blanks n.line.length) number previous
    have hcount : (Text.blanks n.line.length).count '\n' = 0 := by
      rw [Text.blanks, List.count_replicate]
      rfl
    have hnewline : (some '\n').any gluesWord = false := by decide
    obtain ⟨previous', hprevious', hrest⟩ := ih (number + 1) hnewline
    refine ⟨previous', hprevious', ?_⟩
    rw [List.map_cons, List.cons_append, List.map_cons, unlines_cons _ (by simp [hmore])]
    refine (declarationsFrom_append hblanks _).trans ?_
    rw [hcount, Nat.add_zero, hrest, List.length_cons, Nat.add_assoc, Nat.add_comm 1]

/-! ### Comments -/

/-- Each comment is that of a note, without the carriage returns of its line, and no code stands
before it. -/
theorem exists_of_mem_comments {p : LinePlace} {notes : List WrittenNote} {c : Comment}
    (h : c ∈ comments p notes) : ∃ n ∈ notes,
      c.text = noteText n.name (Text.dropReturns n.type) ∧ c.inline = false := by
  induction notes generalizing p with
  | nil => cases h
  | cons n notes ih =>
    rcases List.mem_cons.1 h with rfl | h
    · exact ⟨n, List.mem_cons_self, dropReturns_noteText n.name n.type, rfl⟩
    · obtain ⟨n', hn', hc⟩ := ih h
      exact ⟨n', List.mem_cons_of_mem _ hn', hc⟩

/-- `group` puts all comments into one block. -/
theorem group_comments (p : LinePlace) (n : WrittenNote) (notes : List WrittenNote) :
    CommentBlock.group (comments p (n :: notes)) =
      [⟨Comment.ofLine p n.line 0, comments (p.next n.line) notes⟩] := by
  induction notes generalizing p n with
  | nil => rfl
  | cons n' notes ih =>
    have hrest := ih (p.next n.line) n'
    have hjoins : CommentBlock.joins (Comment.ofLine p n.line 0)
        (Comment.ofLine (p.next n.line) n'.line 0) = true := by
      simp [CommentBlock.joins, Comment.ofLine, LinePlace.next, Text.isBlank]
    rw [comments, CommentBlock.group, hrest]
    simp only [hjoins, if_true]
    rfl

/-- The last comment is as many lines below the first as there are notes after the first. -/
theorem lastLine_comments (p : LinePlace) (n : WrittenNote) (notes : List WrittenNote) :
    (CommentBlock.mk (Comment.ofLine p n.line 0) (comments (p.next n.line) notes)).lastLine =
      p.number + notes.length := by
  induction notes generalizing p n with
  | nil => rfl
  | cons n' notes ih =>
    have hrest := ih (p.next n.line) n'
    rw [comments, CommentBlock.lastLine, CommentBlock.last, List.getLastD_cons]
    refine hrest.trans ?_
    rw [LinePlace.next, List.length_cons, Nat.add_assoc, Nat.add_comm 1]

end WrittenNote

/-! ### Entries -/

/-- In `Entry.gather`, a marker owns no comment that has a marker itself. -/
theorem gather_of_marked {cs : List Comment}
    (h : ∀ c ∈ cs, Marker.ofBody? c.body = some ⟨1, false⟩) :
    Entry.gather cs = cs.map markedEntry := by
  induction cs with
  | nil => rw [Entry.gather]; rfl
  | cons c cs ih =>
    obtain ⟨hc, hcs⟩ := List.forall_mem_cons.1 h
    have howns : ∀ d ∈ cs, Marker.owns ⟨1, false⟩ d = false := by
      intro d hd
      simp [Marker.owns, hcs d hd]
    have hcut : cs.takeWhile (Marker.owns ⟨1, false⟩) = [] ∧
        cs.dropWhile (Marker.owns ⟨1, false⟩) = cs := by
      cases cs with
      | nil => exact ⟨rfl, rfl⟩
      | cons d cs => simp [howns d List.mem_cons_self]
    rw [Entry.gather, hc]
    simp only [hcut, ih hcs]
    rfl

namespace NotedMethod

variable (m : NotedMethod) (path : String)

/-! ### The tables of the file -/

/-- The lines of the file are those that were written. -/
theorem lines_source : (m.source path).lines = m.lines := by
  refine Text.lines_unlines (by simp [lines]) fun line hline => ?_
  rcases List.mem_append.1 hline with hline | hline
  · obtain ⟨n, hn, rfl⟩ := List.mem_map.1 hline
    exact newline_not_mem_noteText (m.isNoteName hn) n.single
  · rcases List.mem_cons.1 hline with rfl | hline
    · have hnewline : '\n' ∉ definitionCharacters := by decide
      exact fun hmem => hnewline (definitionLine_subset _ _ hmem)
    · rw [List.eq_of_mem_replicate hline]
      exact List.not_mem_nil

/-- Each note is masked, and the definition is left as it is. -/
theorem maskedLines_source : (m.source path).maskedLines = m.notes.map WrittenNote.masked ++
    ⟨definitionLine m.name m.parameters, none⟩ :: List.replicate m.below ⟨[], none⟩ := by
  rw [Source.maskedLines, lines_source]
  exact WrittenNote.maskAll_lines m.notes m.name m.parameters m.below

/-- The comments of the file are the notes, one on each line. -/
theorem comments_source :
    (m.source path).comments = WrittenNote.comments ⟨1, 0, 0⟩ m.notes := by
  rw [Source.comments, lines_source, maskedLines_source]
  exact WrittenNote.commentsFrom_lines _ _ _ _

/-- The method is declared below its notes, and nothing else is. -/
theorem exists_declaration :
    ∃ d, (m.source path).declarations = [d] ∧ d.line = m.notes.length + 1 ∧
      d.parameters = m.parameters.map PlainParameter.parameter := by
  obtain ⟨previous, hprevious, hmasked⟩ := WrittenNote.declarationsFrom_masked m.notes
    (List.cons_ne_nil ⟨definitionLine m.name m.parameters, none⟩
      (List.replicate m.below ⟨[], none⟩)) 1 (Option.any_none (p := gluesWord))
  rw [Source.declarations_eq, Source.maskedText, maskedLines_source, hmasked, Nat.add_comm 1,
    List.map_cons, List.map_replicate, unlines_cons_replicate]
  exact declarationsFrom_definitionLine m.name m.parameters m.below _ hprevious

/-- The text of a comment is a note without its carriage returns. -/
theorem exists_note_of_mem_comments {c : Comment} (hc : c ∈ (m.source path).comments) :
    ∃ n ∈ m.notes, c.text = noteText n.name (Text.dropReturns n.type) ∧ c.inline = false :=
  WrittenNote.exists_of_mem_comments (m.comments_source path ▸ hc)

/-- The comments make up one block directly above the declaration, and there is none without
comments. -/
theorem mem_blocks {b : CommentBlock} (hb : b ∈ (m.source path).blocks) :
    (m.source path).blocks = [b] ∧ b.comments = (m.source path).comments ∧
      b.isLeading = true ∧ b.lastLine = m.notes.length := by
  have hleading : b.comments = (m.source path).comments → b.isLeading = true := by
    intro hcomments
    rw [CommentBlock.isLeading, List.all_eq_true, hcomments]
    intro c hc
    obtain ⟨-, -, -, hinline⟩ := m.exists_note_of_mem_comments path hc
    simp [hinline]
  rw [Source.blocks, comments_source] at hb ⊢
  rw [comments_source] at hleading
  cases hnotes : m.notes with
  | nil =>
    rw [hnotes] at hb
    cases hb
  | cons n notes =>
    rw [hnotes, WrittenNote.group_comments] at hb
    rw [hnotes] at hleading
    obtain rfl := List.mem_singleton.1 hb
    refine ⟨WrittenNote.group_comments _ n notes, rfl, hleading rfl, ?_⟩
    rw [WrittenNote.lastLine_comments, List.length_cons, Nat.add_comm]

/-- Every note of the file is about what its name says, and has no error (`Note.Tells`). -/
theorem exists_tells {b : CommentBlock} (hb : b ∈ (m.source path).blocks) {note : Note}
    (hnote : note ∈ b.notes) : ∃ n ∈ m.notes, note.Tells n.name := by
  obtain ⟨-, hcomments, hleading, -⟩ := m.mem_blocks path hb
  have hmarked : ∀ c ∈ b.comments, Marker.ofBody? c.body = some ⟨1, false⟩ := by
    intro c hc
    obtain ⟨n, -, htext, -⟩ := m.exists_note_of_mem_comments path (hcomments ▸ hc)
    exact ofBody?_noteText htext
  have hinline : b.first.inline = false := by
    simpa using List.all_eq_true.1 hleading b.first List.mem_cons_self
  have hentries : b.entries = b.comments.map markedEntry := by
    rw [CommentBlock.entries, if_neg (by simp [CommentBlock.isApplication, hinline]),
      gather_of_marked hmarked]
  rw [CommentBlock.notes, hentries] at hnote
  obtain ⟨e, he, hread⟩ := List.mem_filterMap.1 hnote
  obtain ⟨c, hc, rfl⟩ := List.mem_map.1 he
  obtain ⟨n, hn, htext, -⟩ := m.exists_note_of_mem_comments path (hcomments ▸ hc)
  obtain ⟨note', hread', htells⟩ := exists_tells_of_markedEntry htext n.accepted (m.isNoteName hn)
  obtain rfl := Option.some.inj (hread.symm.trans hread')
  exact ⟨n, hn, htells⟩

/-- `leadingBlock?` finds the only block in front of the definition. -/
theorem leadingBlock?_source {b : CommentBlock} (hb : b ∈ (m.source path).blocks) :
    leadingBlock? (m.source path).blocks (m.notes.length + 1) = some b := by
  obtain ⟨hblocks, -, hleading, hlast⟩ := m.mem_blocks path hb
  simp [leadingBlock?, hblocks, hleading, hlast]

/-- A name other than that of the result is the name of a parameter. -/
theorem mem_parameterNames {d : Declaration}
    (hd : d.parameters = m.parameters.map PlainParameter.parameter) {n : WrittenNote}
    (hn : n ∈ m.notes) (hname : n.name ≠ "return".toList) : n.name ∈ d.parameterNames := by
  rcases m.about n hn with hreturn | ⟨p, hp, hmatch⟩
  · exact absurd hreturn hname
  · rw [Declaration.parameterNames, hd]
    exact List.mem_flatMap.2 ⟨p.parameter, List.mem_map_of_mem hp, hmatch⟩

/-! ### The rules one by one -/

theorem invalidComment_source : invalidComment (m.source path) = [] := by
  have hshape : ∀ c ∈ (m.source path).comments, Shape.isInvalidNote c.text = false := by
    intro c hc
    obtain ⟨n, -, htext, -⟩ := m.exists_note_of_mem_comments path hc
    rw [htext, Shape.isInvalidNote_noteText]
  rw [invalidComment, List.filter_eq_nil_iff.2 fun c hc => by simp [hshape c hc], List.map_nil]

theorem invalidTypes_source : invalidTypes (m.source path) = [] := by
  have herror : ((m.source path).blocks.flatMap fun b =>
      b.notes.filterMap fun n => n.error.map (typeOffense (m.source path) n)) = [] := by
    refine List.flatMap_eq_nil_iff.2 fun b hb => List.filterMap_eq_nil_iff.2 fun note hnote => ?_
    obtain ⟨n, -, htells⟩ := m.exists_tells path hb hnote
    rw [htells.error, Option.map_none]
  rw [invalidTypes, herror, Offense.sort, List.mergeSort_nil]

theorem parametersSeparator_source : parametersSeparator (m.source path) = [] := by
  refine List.filterMap_eq_nil_iff.2 fun c hc => ?_
  obtain ⟨n, hn, htext, -⟩ := m.exists_note_of_mem_comments path hc
  have hname := m.isNoteName hn
  obtain ⟨stop, hword⟩ := Shape.markedWord?_noteText hname (Text.dropReturns n.type)
  have hmay : mayFollowMarker (n.name ++ [':']) = true := by
    simp [mayFollowMarker, Shape.isNameWithColon_name hname]
  rw [htext, hword]
  simp [hmay]

/-- A keyword with a colon is the name of a parameter, and a type stands behind it; so
`namesParameter` holds of it. -/
theorem namesParameter_of_keyword {d : Declaration}
    (hd : d.parameters = m.parameters.map PlainParameter.parameter) {n : WrittenNote}
    (hn : n ∈ m.notes) {c : Comment} (htext : c.text = noteText n.name (Text.dropReturns n.type))
    {keyword : List Char} {stop : Nat}
    (hkeyword : Shape.keywordWithColon? c.text = some (keyword, stop)) :
    namesParameter d c = true := by
  obtain ⟨rfl, hmem, hdrop⟩ := Shape.keywordWithColon?_noteText (m.isNoteName hn) (htext ▸ hkeyword)
  -- No keyword starts with an ampersand, so that the type is read as a type and is not empty.
  have hkeywords : ∀ k ∈ Shape.keywords, k ≠ "return".toList ∧ k.head? ≠ some '&' := by decide
  obtain ⟨hreturn, hampersand⟩ := hkeywords n.name hmem
  have hparameter := m.mem_parameterNames hd hn hreturn
  have htype : Text.isBlank (Text.dropReturns n.type) = false := by
    refine Signature.isBlank_dropReturns_of_type ?_
    have haccepted := n.accepted
    rwa [grammarOf, if_neg hampersand] at haccepted
  rw [← htext] at hdrop
  have hblank : Text.isBlank (c.text.drop stop) = false := by
    rw [hdrop]
    simpa [Text.isBlank] using htype
  simp [namesParameter, hkeyword, hparameter, hblank]

theorem keywordSeparator_source : keywordSeparator (m.source path) = [] := by
  obtain ⟨d, hdeclarations, hline, hparameters⟩ := m.exists_declaration path
  refine List.filterMap_eq_nil_iff.2 fun c hc => ?_
  obtain ⟨n, hn, htext, -⟩ := m.exists_note_of_mem_comments path hc
  rw [keywordOffense?]
  split
  · rfl
  rename_i keyword stop hkeyword
  -- A keyword with a colon is excused where the declaration below has a parameter of that name.
  have hnamed : c ∈ parameterComments (m.source path) := by
    have hgroup := CommentBlock.flatMap_comments_group (m.source path).comments
    obtain ⟨b, hb, hcb⟩ := List.mem_flatMap.1 (hgroup.symm ▸ hc)
    have hblock := m.leadingBlock?_source path hb
    rw [parameterComments, hdeclarations, List.flatMap_singleton, hline, hblock]
    exact List.mem_filter.2 ⟨hcb, m.namesParameter_of_keyword hparameters hn htext hkeyword⟩
  rw [if_pos]
  exact List.contains_iff_mem.2 (List.mem_map_of_mem hnamed)

theorem unmatchedNotes_source : unmatchedNotes (m.source path) = [] := by
  obtain ⟨d, hdeclarations, hline, hparameters⟩ := m.exists_declaration path
  have hunmatched : ∀ b ∈ (m.source path).blocks,
      CrossReference.unmatchedIn (m.source path).declarations b = [] := by
    intro b hb
    obtain ⟨-, -, hleading, hlast⟩ := m.mem_blocks path hb
    -- The only block ends right above the only declaration, which claims it.
    have hclaimer : CrossReference.claimer? (m.source path).declarations b = some d := by
      rw [hdeclarations]
      simp [CrossReference.claimer?, CrossReference.isAbove, hleading, hlast, hline]
    rw [CrossReference.unmatchedIn, hclaimer]
    refine List.filter_eq_nil_iff.2 fun named hnamed => ?_
    obtain ⟨note, hnote, hparameter⟩ := List.mem_filterMap.1 hnamed
    obtain ⟨n, hn, htells⟩ := m.exists_tells path hb hnote
    obtain ⟨named', hname, hresult | ⟨hreturn, hcontent⟩⟩ := htells.cases_content
    · simp [CrossReference.parameterName?, hresult] at hparameter
    · have heq : named' = named := by
        rcases hcontent with hcontent | hcontent
        · simpa [CrossReference.parameterName?, hcontent] using hparameter
        · simpa [CrossReference.parameterName?, hcontent] using hparameter
      have hmem := m.mem_parameterNames hparameters hn hreturn
      simp [← heq, hname, hmem]
  rw [unmatchedNotes_eq_sort, List.flatMap_eq_nil_iff.2 hunmatched, List.map_nil, Offense.sort,
    List.mergeSort_nil]

/-- Without a comment that opens a run, there are no `runEnds`. -/
theorem runEnds_eq_nil {opens : Comment → Option (Comment → Bool)} {cs : List Comment}
    (h : ∀ c ∈ cs, opens c = none) : runEnds opens cs = [] := by
  induction cs with
  | nil => rfl
  | cons c cs ih =>
    obtain ⟨hc, hcs⟩ := List.forall_mem_cons.1 h
    rw [runEnds, hc]
    exact ih hcs

theorem embeddedSpacing_source : embeddedSpacing (m.source path) = [] := by
  have hopens : ∀ c ∈ (m.source path).comments,
      (Shape.embeddedIndent? c.text).map continuesEmbedded = none := by
    intro c hc
    obtain ⟨n, -, htext, -⟩ := m.exists_note_of_mem_comments path hc
    rw [htext, Shape.embeddedIndent?_noteText, Option.map_none]
  rw [embeddedSpacing, runEnds_eq_nil hopens]
  rfl

theorem variableSpacing_source : variableSpacing (m.source path) = [] := by
  have hopens : ∀ c ∈ (m.source path).comments,
      (if Shape.isVariableComment c.text then
        some fun c : Comment => Shape.isVariableComment c.text else none) = none := by
    intro c hc
    obtain ⟨n, hn, htext, -⟩ := m.exists_note_of_mem_comments path hc
    rw [htext, Shape.isVariableComment_noteText (m.isNoteName hn), if_neg Bool.false_ne_true]
  rw [variableSpacing, runEnds_eq_nil hopens]
  rfl

/-- The line below the notes is that of the definition. -/
theorem line?_source : (m.source path).line? (m.notes.length + 1) =
    some (definitionLine m.name m.parameters) := by
  rw [Source.line?, lines_source, lines, List.getElem?_append_right (by simp)]
  simp [dropReturns_definitionLine]

/-- The line below the notes is that of the definition. -/
theorem methodSpacing_source : methodSpacing (m.source path) = [] := by
  refine List.filterMap_eq_nil_iff.2 fun b hb => ?_
  obtain ⟨-, -, -, hlast⟩ := m.mem_blocks path (List.mem_filter.1 hb).1
  have hblank : (m.source path).isBlankLine (m.notes.length + 1) = false := by
    rw [Source.isBlankLine, line?_source, Option.all_some, isBlank_definitionLine]
  have hdefinition : (m.source path).isDefinitionLine (m.notes.length + 1) = true := by
    rw [Source.isDefinitionLine, line?_source, Option.any_some, isDefinition_definitionLine]
  simp [methodSpacingOffense?, hlast, hblank, hdefinition]

theorem redundantWithSkip_source : redundantWithSkip (m.source path) = [] := by
  have hskip : ∀ b ∈ (m.source path).blocks,
      (b.notes.any fun n => (SkipMark.ofNote? n).isSome) = false := by
    intro b hb
    refine List.any_eq_false.2 fun note hnote => ?_
    obtain ⟨n, -, htells⟩ := m.exists_tells path hb hnote
    obtain ⟨named, -, hcontent | ⟨-, hcontent | hcontent⟩⟩ := htells.cases_content
    · simp [SkipMark.ofNote?, hcontent]
    · simp [SkipMark.ofNote?, hcontent]
    · simp [SkipMark.ofNote?, hcontent]
  rw [redundantWithSkip, List.flatMap_eq_nil_iff.2, Offense.sort, List.mergeSort_nil]
  intro d hd
  split
  · rfl
  · rename_i b hb
    rw [hskip b (List.mem_of_find?_eq_some hb), if_neg Bool.false_ne_true]

/-- No rule finds an offense in the file of a method with well-formed notes. -/
theorem check_source (rule : Rule) : rule.check (m.source path) = [] := by
  cases rule with
  | invalidComment => exact m.invalidComment_source path
  | invalidTypes => exact m.invalidTypes_source path
  | keywordSeparator => exact m.keywordSeparator_source path
  | parametersSeparator => exact m.parametersSeparator_source path
  | unmatchedNotes => exact m.unmatchedNotes_source path
  | embeddedSpacing => exact m.embeddedSpacing_source path
  | methodSpacing => exact m.methodSpacing_source path
  | variableSpacing => exact m.variableSpacing_source path
  | redundantWithSkip => exact m.redundantWithSkip_source path

end NotedMethod

/-- **No false positives.** A method without default values and with well-formed notes above it has
no violation of any rule. -/
theorem lint_notedMethod (m : NotedMethod) (rules : RuleSet) (path : String) :
    lint rules (m.source path) = [] := by
  rw [lint, List.flatMap_eq_nil_iff.2, List.mergeSort_nil]
  rintro ⟨rule, severity⟩ -
  simp only [m.check_source path rule, List.map_nil]

/-- A method with a parameter named like a keyword, and with notes that are not in the order of the
parameters, one of them twice. -/
def skippingMethod : NotedMethod where
  name := ⟨"meth".toList, by decide, by decide⟩
  parameters := [.keyword ⟨"skip".toList, by decide, by decide⟩,
    .rest (some ⟨"args".toList, by decide, by decide⟩), .keywordRest none (by simp), .block none]
  notes := [
    ⟨"&block".toList, "?(Integer) -> void".toList, by decide, "?(Integer) -> void",
      by decide +kernel⟩,
    ⟨"skip".toList, ":skip | nil".toList, by decide, ":skip | nil", by decide +kernel⟩,
    ⟨"*args".toList, "[ \"#\" ] # one".toList, by decide, "[ \"#\" ]", by decide +kernel⟩,
    ⟨"return".toList, " ^() -> bool\r".toList, by decide, "^() -> bool", by decide +kernel⟩,
    ⟨"skip".toList, "Symbol?".toList, by decide, "Symbol?", by decide +kernel⟩]
  below := 1
  about := by decide

theorem lint_skippingMethod :
    (skippingMethod.source "a.rb").text = ("# @rbs &block: ?(Integer) -> void\n" ++
        "# @rbs skip: :skip | nil\n# @rbs *args: [ \"#\" ] # one\n" ++
        "# @rbs return:  ^() -> bool\r\n# @rbs skip: Symbol?\n" ++
        "def meth(skip:, *args, **, &); end\n").toList ∧
      lint RuleSet.all (skippingMethod.source "a.rb") = [] :=
  ⟨by decide +kernel, lint_notedMethod skippingMethod RuleSet.all "a.rb"⟩

end TypeNotes
