import TypeNotes.Proofs.Ruby.CommentText
import TypeNotes.Proofs.Ruby.DataSection

/-!
# The geometry of masked text

Masking moves nothing. There is one masked line for each line, it is as long as its line, and each
of its characters is that of the line or a blank; from the hash sign of a comment on there are only
blanks. So a position in the masked text is the same position in the file, and what is found in the
masked text is found in the file (`masking_keeps_places`).

**Definitions.** Definitions are found in the masked text from left to right, each at the word `def`
(`Finds.in_of_mem`, `Finds.pairwise`). Since blanks do not spell the word, it stands in the file as
well (`Source.shows_maskedText`), in front of the comment of its line, if there is one
(`Source.start_le_of_definition`).
-/

namespace TypeNotes.Ruby

/-! ### Comments -/

/-- The line of a comment shows nothing from the hash sign on. -/
theorem getElem?_maskLines_of_mem {lines : List (List Char)} {k c : Nat}
    (h : (k, c) ∈ commentPlaces (maskLines lines)) :
    ∃ code text shown, lines[k]? = some (code ++ '#' :: text) ∧ code.length = c ∧
      shown.length = c ∧
      (maskLines lines)[k]? = some ⟨shown ++ Text.blanks (text.length + 1), some c⟩ := by
  obtain ⟨above, line, below, rfl, rfl, hcolumn⟩ := exists_line_of_mem_commentPlaces h
  obtain ⟨code, text, rfl, rfl⟩ := exists_hash_of_mask hcolumn
  obtain ⟨shown, next, hlength, hmask⟩ :=
    Place.mask_text hcolumn fun q _ => (rfl : q.answer text = q.answer text)
  have habove : (Place.start.maskAll above).length = above.length :=
    (forall₂_maskAll Place.start above).length_eq
  refine ⟨code, text, shown, by simp, rfl, hlength, ?_⟩
  rw [maskLines, Place.maskAll_append, List.getElem?_append_right (Nat.le_of_eq habove), habove,
    Nat.sub_self, Place.maskAll, hmask text List.mem_cons_self]
  rfl

/-- `commentPlaces` are listed by their lines, at most one for each line. -/
theorem pairwise_commentPlaces (masked : List MaskedLine) :
    (commentPlaces masked).Pairwise fun a b => a.1 < b.1 := by
  have hindices : (masked.zipIdx.map Prod.snd).Pairwise (· < ·) := by
    rw [List.zipIdx_map_snd]
    exact List.pairwise_lt_range'
  rw [commentPlaces, List.pairwise_filterMap]
  refine (List.pairwise_map.1 hindices).imp fun {a b} hlt p hp q hq => ?_
  obtain ⟨column, -, rfl⟩ := Option.map_eq_some_iff.1 hp
  obtain ⟨column', -, rfl⟩ := Option.map_eq_some_iff.1 hq
  exact hlt

theorem exists_comment_of_mem_commentsFrom {lines : List (List Char)} {maskeds : List MaskedLine}
    {p : LinePlace} {c : Comment} (h : c ∈ commentsFrom p (lines.zip maskeds)) :
    ∃ index masked column, maskeds[index]? = some masked ∧ masked.comment = some column ∧
      c.line = p.number + index ∧ c.start = p.start + lineStart lines index + column := by
  induction lines generalizing maskeds p with
  | nil => simp [commentsFrom] at h
  | cons line more ih =>
    cases maskeds with
    | nil => simp [commentsFrom] at h
    | cons masked maskeds =>
      rw [List.zip_cons_cons, commentsFrom] at h
      rcases List.mem_append.1 h with hmem | hmem
      · obtain ⟨column, hcolumn, rfl⟩ := Option.map_eq_some_iff.1 (Option.mem_toList.1 hmem)
        exact ⟨0, masked, column, rfl, hcolumn, rfl, rfl⟩
      · obtain ⟨index, found, column, hfound, hcolumn, hline, hstart⟩ := ih hmem
        refine ⟨index + 1, found, column, hfound, hcolumn, ?_, ?_⟩
        · rw [hline, LinePlace.next]
          simp only
          omega
        · rw [hstart, lineStart_cons_succ, LinePlace.next]
          simp only
          omega

/-- The line and the position of a comment come from its place among `commentPlaces`. -/
theorem Source.exists_place_of_mem_comments {s : Source} {c : Comment} (h : c ∈ s.comments) :
    ∃ index column, (index, column) ∈ commentPlaces s.maskedLines ∧ c.line = index + 1 ∧
      c.start = lineStart s.lines index + column := by
  obtain ⟨index, masked, column, hmasked, hcolumn, hline, hstart⟩ :=
    exists_comment_of_mem_commentsFrom h
  refine ⟨index, column, mem_commentPlaces.2 ⟨masked, hmasked, hcolumn⟩, ?_, ?_⟩
  · rw [hline, Nat.add_comm]
  · rw [hstart, Nat.zero_add]

/-! ### Positions in masked text -/

/-- Joined lines are shown (`Shows`) if each line is. -/
theorem shows_unlines {maskeds lines : List (List Char)} (h : List.Forall₂ Shows maskeds lines) :
    Shows (Text.unlines maskeds) (Text.unlines lines) := by
  induction h with
  | nil => exact .nil
  | @cons masked line maskeds lines hshows hrest ih =>
    cases hrest with
    | nil => exact hshows
    | cons hnext hmore => exact hshows.append (.cons (.inl rfl) ih)

/-- For each character of a file the masked text shows it or a blank. -/
theorem Source.shows_maskedText (s : Source) : Shows s.maskedText s.text := by
  have hlines : List.Forall₂ Shows (s.maskedLines.map (·.text)) s.lines :=
    List.forall₂_map_left_iff.2 (forall₂_maskAll Place.start s.lines)
  have hshows := shows_unlines hlines
  rwa [Source.lines, Text.unlines_lines] at hshows

/-- What is shown (`Shows`) and is no blank stands there. -/
theorem Shows.exists_append {word more s : List Char} (h : Shows (word ++ more) s)
    (hword : ' ' ∉ word) : ∃ rest, s = word ++ rest := by
  induction word generalizing s with
  | nil => exact ⟨s, rfl⟩
  | cons d word ih =>
    rw [List.mem_cons, not_or] at hword
    cases h with
    | cons hd hrest =>
      obtain ⟨rest, rfl⟩ := ih hrest hword.2
      rcases hd with rfl | rfl
      · exact ⟨rest, rfl⟩
      · exact absurd rfl hword.1

/-- `lineStart` depends on the lengths of the lines only. -/
theorem lineStart_congr {lines lines' : List (List Char)}
    (h : lines.map List.length = lines'.map List.length) (index : Nat) :
    lineStart lines index = lineStart lines' index := by
  induction lines generalizing lines' index with
  | nil =>
    obtain rfl : lines' = [] := by simpa using h.symm
    rfl
  | cons line more ih =>
    cases lines' with
    | nil => simp at h
    | cons line' more' =>
      obtain ⟨hline, hmore⟩ := List.cons.inj h
      cases index with
      | zero => rfl
      | succ index => rw [lineStart_cons_succ, lineStart_cons_succ, hline, ih hmore]

/-- From `lineStart` on a text goes on with the line, and behind it with a line end or with nothing.
-/
theorem exists_drop_lineStart {lines : List (List Char)} {index : Nat} {line : List Char}
    (h : lines[index]? = some line) :
    ∃ more, (Text.unlines lines).drop (lineStart lines index) = line ++ more ∧
      ∀ c ∈ more.head?, c = '\n' := by
  induction lines generalizing index with
  | nil => simp at h
  | cons first lines ih =>
    cases index with
    | zero =>
      obtain rfl : first = line := by simpa using h
      cases lines with
      | nil => exact ⟨[], by simp [Text.unlines, lineStart], by simp⟩
      | cons next lines =>
        refine ⟨'\n' :: Text.unlines (next :: lines), ?_, by simp⟩
        rw [lineStart_zero, List.drop_zero, unlines_cons _ (List.cons_ne_nil next lines)]
    | succ index =>
      have hrest : lines[index]? = some line := by simpa using h
      have hne : lines ≠ [] := by
        rintro rfl
        simp at hrest
      obtain ⟨more, hdrop, hmore⟩ := ih hrest
      refine ⟨more, ?_, hmore⟩
      rw [lineStart_cons_succ, unlines_cons first hne, Nat.add_assoc, List.drop_length_add_append,
        Nat.add_comm 1, List.drop_succ_cons, hdrop]

/-- Nothing is shown of a line from its comment on. -/
theorem Source.getElem?_maskedText_of_comment {s : Source} {c : Comment} (hc : c ∈ s.comments)
    {index offset : Nat} {line : List Char} (hindex : c.line = index + 1)
    (hline : s.lines[index]? = some line) (hle : c.start ≤ offset)
    (hstop : offset ≤ lineStart s.lines index + line.length) {d : Char}
    (hd : s.maskedText[offset]? = some d) : d = ' ' ∨ d = '\n' := by
  obtain ⟨index', column, hplace, hnumber, hstart⟩ := Source.exists_place_of_mem_comments hc
  obtain rfl : index = index' := by omega
  obtain ⟨code, text, shown, hcode, hcolumn, hshown, hmasked⟩ := getElem?_maskLines_of_mem hplace
  obtain rfl : code ++ '#' :: text = line := Option.some.inj (hcode.symm.trans hline)
  have hlength : lineStart s.lines index = lineStart (s.maskedLines.map (·.text)) index :=
    (lineStart_congr s.map_maskedLines.2 index).symm
  have htext : (s.maskedLines.map (·.text))[index]? =
      some (shown ++ Text.blanks (text.length + 1)) := by
    rw [List.getElem?_map, Source.maskedLines, hmasked]
    rfl
  obtain ⟨more, hdrop, hmore⟩ := exists_drop_lineStart htext
  -- What follows the start of the comment are its blanks, and then the end of the line.
  have hrest : s.maskedText.drop c.start = Text.blanks (text.length + 1) ++ more := by
    rw [hstart, hlength, ← List.drop_drop]
    refine (congrArg (List.drop column) hdrop).trans ?_
    rw [← hshown, List.append_assoc, List.drop_left]
  obtain ⟨j, rfl⟩ := Nat.exists_eq_add_of_le hle
  have hj : j ≤ text.length + 1 := by
    rw [List.length_append, List.length_cons] at hstop
    omega
  rw [← List.getElem?_drop, hrest] at hd
  rcases Nat.lt_or_eq_of_le hj with hlt | rfl
  · rw [List.getElem?_append_left (by rw [Text.blanks, List.length_replicate]; exact hlt)] at hd
    exact .inl (List.eq_of_mem_replicate (List.mem_of_getElem? hd))
  · rw [List.getElem?_append_right (by rw [Text.blanks, List.length_replicate]), Text.blanks,
      List.length_replicate, Nat.sub_self, ← List.head?_eq_getElem?] at hd
    exact .inr (hmore d hd)

/-! ### Definitions in a text -/

/-- The definition that the spelling at a position makes. -/
def DefinitionHead.definition (head : DefinitionHead) (offset : Nat) : Definition where
  name := head.name
  start := offset
  close := (parameterText head.rest).2.map (offset + head.text.length + ·)
  parameters := parseParameters (parameterText head.rest).1

theorem definitionsFrom_of_none {previous : Option Char} {c : Char} {rest : List Char}
    (h : headAfter? previous (c :: rest) = none) (offset : Nat) :
    definitionsFrom offset previous (c :: rest) = definitionsFrom (offset + 1) (some c) rest := by
  rw [definitionsFrom, ← headAfter?, h]

theorem definitionsFrom_of_some {previous : Option Char} {s : List Char} {head : DefinitionHead}
    (h : headAfter? previous s = some head) (offset : Nat) :
    definitionsFrom offset previous s =
      head.definition offset ::
        definitionsFrom (offset + head.text.length) head.text.getLast? head.rest := by
  obtain ⟨hparts, -, hne⟩ := DefinitionHead.eq_append_of_headAfter? h
  obtain ⟨c, rest, rfl⟩ :=
    List.exists_cons_of_ne_nil (hparts ▸ List.append_ne_nil_of_left_ne_nil hne _)
  rw [definitionsFrom, ← headAfter?, h]
  simp only [DefinitionHead.drop_eq hparts hne]
  rfl

theorem DefinitionHead.exists_text_eq {previous : Option Char} {s : List Char}
    {head : DefinitionHead} (h : headAfter? previous s = some head) :
    ∃ more, head.text = ['d', 'e', 'f'] ++ more := by
  unfold headAfter? at h
  split at h
  · cases h
  · rw [DefinitionHead.ofText?_eq] at h
    obtain ⟨tail, -, h⟩ := Option.bind_eq_some_iff.1 h
    split at h
    · cases h
    · rcases Option.or_eq_some_iff.1 h with h | ⟨-, h⟩
      · obtain ⟨parts, -, rfl⟩ := Option.map_eq_some_iff.1 h
        exact ⟨tail.takeWhile isInlineBlank ++ parts.1 ++ parts.2.1, by simp⟩
      · obtain ⟨named, -, rfl⟩ := Option.map_eq_some_iff.1 h
        exact ⟨tail.takeWhile isInlineBlank ++ named.1, by simp⟩

/-- In `parameterText`, parentheses close inside the text, or at its end. -/
theorem le_length_of_parameterText {s : List Char} {distance : Nat}
    (h : (parameterText s).2 = some distance) : distance ≤ s.length := by
  rcases exists_inlineBlanks s with hblank | ⟨a, c, t, ha, hc, rfl⟩
  · have hnone := parameterText_blanks hblank (e := []) rfl
    rw [List.append_nil] at hnone
    rw [hnone] at h
    cases h
  · by_cases hopen : c = '('
    · subst hopen
      rw [parameterText_open ha] at h
      obtain rfl := Option.some.inj h
      have hparts := congrArg List.length (splitAtClose_eq_append 0 t)
      rw [List.length_append] at hparts
      rw [List.length_append, List.length_cons]
      omega
    · rw [parameterText_bare ha hc hopen] at h
      split at h <;> cases h

/-- A definition is found in a text: at the word `def`, and with its parameters behind it. -/
structure Definition.In (text : List Char) (d : Definition) : Prop where
  word : ∃ rest, text.drop d.start = ['d', 'e', 'f'] ++ rest
  close : ∀ close, d.close = some close → d.start ≤ close ∧ close ≤ text.length

theorem DefinitionHead.definition_in {previous : Option Char} {s : List Char}
    {head : DefinitionHead} (h : headAfter? previous s = some head) (before : List Char) :
    (head.definition before.length).In (before ++ s) := by
  obtain ⟨hparts, -⟩ := DefinitionHead.eq_append_of_headAfter? h
  obtain ⟨more, hmore⟩ := DefinitionHead.exists_text_eq h
  refine ⟨⟨more ++ head.rest, ?_⟩, fun close hclose => ?_⟩
  · rw [DefinitionHead.definition, List.drop_left, hparts, hmore, List.append_assoc]
  · obtain ⟨distance, hdistance, rfl⟩ := Option.map_eq_some_iff.1 hclose
    have hle := le_length_of_parameterText hdistance
    rw [hparts, List.length_append, List.length_append]
    simp only [DefinitionHead.definition]
    omega

/-- The definitions that are found, from left to right, in a text that stands behind another one. -/
inductive Finds : List Char → List Char → List Definition → Prop
  | nil (before : List Char) : Finds before [] []
  | skip {before rest : List Char} {c : Char} {found : List Definition}
      (h : Finds (before ++ [c]) rest found) : Finds before (c :: rest) found
  | head {before s : List Char} {previous : Option Char} {head : DefinitionHead}
      {found : List Definition} (hhead : headAfter? previous s = some head)
      (h : Finds (before ++ head.text) head.rest found) :
      Finds before s (head.definition before.length :: found)

/-- The scanner goes on behind a character, or behind the head of a definition. -/
theorem finds_definitionsFrom (before s : List Char) (previous : Option Char) :
    Finds before s (definitionsFrom before.length previous s) := by
  induction hlen : s.length using Nat.strongRecOn generalizing before s previous with
  | ind n ih =>
    subst hlen
    cases hhead : headAfter? previous s with
    | none =>
      cases s with
      | nil =>
        rw [definitionsFrom]
        exact .nil before
      | cons c rest =>
        have hrest := ih rest.length (Nat.lt_succ_self _) (before ++ [c]) rest (some c) rfl
        rw [List.length_append, List.length_singleton] at hrest
        rw [definitionsFrom_of_none hhead]
        exact .skip hrest
    | some head =>
      obtain ⟨hparts, -, hne⟩ := DefinitionHead.eq_append_of_headAfter? hhead
      have hlt : head.rest.length < s.length := by
        have hpos := List.length_pos_iff.2 hne
        rw [hparts, List.length_append]
        omega
      rw [definitionsFrom_of_some hhead, ← List.length_append]
      exact .head hhead (ih _ hlt _ _ _ rfl)

/-- Every definition that is found (`Finds`) stands in the whole text, behind the text in front. -/
theorem Finds.in_of_mem {before s : List Char} {found : List Definition} (h : Finds before s found)
    {d : Definition} (hd : d ∈ found) : before.length ≤ d.start ∧ d.In (before ++ s) := by
  induction h with
  | nil before => cases hd
  | skip _ ih =>
    obtain ⟨hle, hin⟩ := ih hd
    rw [List.length_append] at hle
    rw [List.append_assoc, List.singleton_append] at hin
    exact ⟨by omega, hin⟩
  | @head before s previous head found hhead _ ih =>
    rcases List.mem_cons.1 hd with rfl | hd
    · exact ⟨Nat.le_refl _, DefinitionHead.definition_in hhead before⟩
    · obtain ⟨hle, hin⟩ := ih hd
      rw [List.length_append] at hle
      rw [List.append_assoc, ← (DefinitionHead.eq_append_of_headAfter? hhead).1] at hin
      exact ⟨by omega, hin⟩

/-- What is found later stands further behind. -/
theorem Finds.pairwise {before s : List Char} {found : List Definition}
    (h : Finds before s found) : found.Pairwise fun a b => a.start < b.start := by
  induction h with
  | nil before => exact .nil
  | skip _ ih => exact ih
  | @head before s previous head found hhead h ih =>
    refine List.pairwise_cons.2 ⟨fun d hd => ?_, ih⟩
    obtain ⟨-, -, hne⟩ := DefinitionHead.eq_append_of_headAfter? hhead
    have hpos := List.length_pos_iff.2 hne
    have hle := (h.in_of_mem hd).1
    rw [List.length_append] at hle
    simp only [DefinitionHead.definition]
    omega

theorem Source.in_of_mem_definitions {s : Source} {p : Definition}
    (h : p ∈ definitions s.maskedText) : p.In s.maskedText :=
  ((finds_definitionsFrom [] s.maskedText none).in_of_mem h).2

/-! ### Definitions in a file -/

section Stands

variable {s : Source} {p : Definition} (hp : p ∈ definitions s.maskedText)

include hp

theorem Source.start_lt_of_definition : p.start + 3 ≤ s.text.length := by
  obtain ⟨rest, hword⟩ := (Source.in_of_mem_definitions hp).word
  have hlength := congrArg List.length hword
  rw [List.length_drop, s.shows_maskedText.length_eq, List.length_append] at hlength
  simp only [List.length_cons, List.length_nil] at hlength
  omega

/-- The word `def` stands in the file where the definition is found in the masked text. -/
theorem Source.exists_word_of_definition :
    ∃ rest, s.text.drop p.start = ['d', 'e', 'f'] ++ rest := by
  obtain ⟨rest, hword⟩ := (Source.in_of_mem_definitions hp).word
  have hshows : Shows (s.maskedText.drop p.start) (s.text.drop p.start) :=
    List.forall₂_drop p.start s.shows_maskedText
  rw [hword] at hshows
  exact hshows.exists_append (by decide)

/-- The word `def` stands in front of the comment of its line. -/
theorem Source.start_le_of_definition {c : Comment} (hc : c ∈ s.comments)
    (hline : c.line = (s.location p.start).1) : p.start + 3 ≤ c.start := by
  by_contra hlt
  have hstart := Source.start_lt_of_definition hp
  obtain ⟨rest, hword⟩ := (Source.in_of_mem_definitions hp).word
  have hshown : ∀ j < 3, ∀ d, s.maskedText[p.start + j]? = some d → d ≠ ' ' ∧ d ≠ '\n' := by
    intro j hj d hd
    rw [← List.getElem?_drop, hword, List.getElem?_append_left hj] at hd
    have hletters : ∀ d ∈ ['d', 'e', 'f'], d ≠ ' ' ∧ d ≠ '\n' := by simp
    exact hletters d (List.mem_of_getElem? hd)
  obtain ⟨index, line, hindex, hnumber, -, hoffset, hstop⟩ :=
    (s.location_eq_iff (by omega) _).1 (rfl : s.location p.start = s.location p.start)
  obtain ⟨index', column, hplace, hcline, hcstart⟩ := Source.exists_place_of_mem_comments hc
  obtain rfl : index = index' := by omega
  obtain ⟨code, text, -, hcode, hcolumn, -⟩ := getElem?_maskLines_of_mem hplace
  have hlength : column < line.length := by
    obtain rfl : code ++ '#' :: text = line := Option.some.inj (hcode.symm.trans hindex)
    rw [List.length_append, List.length_cons]
    omega
  -- One of the three letters would stand in the comment, where nothing is shown.
  obtain ⟨j, hj, hle, hle'⟩ : ∃ j < 3, c.start ≤ p.start + j ∧
      p.start + j ≤ lineStart s.lines index + line.length := by
    rcases Nat.le_total c.start p.start with h | h
    · exact ⟨0, by omega, by omega, by omega⟩
    · exact ⟨c.start - p.start, by omega, by omega, by omega⟩
  have hlt' : p.start + j < s.maskedText.length := by
    rw [s.shows_maskedText.length_eq]
    omega
  have hd := List.getElem?_eq_getElem hlt'
  obtain ⟨hblank, hnewline⟩ := hshown j hj _ hd
  rcases Source.getElem?_maskedText_of_comment hc hcline hindex hle hle' hd with h | h
  · exact hblank h
  · exact hnewline h

end Stands

/-- Where a definition that is found in the masked text of a file stands in the file, and on which
lines its declaration starts and ends. -/
structure Definition.Stands (s : Source) (p : Definition) (d : Declaration) : Prop where
  word : (s.text.drop p.start).take 3 = ['d', 'e', 'f']
  line : d.line = (s.location p.start).1
  comment : ∀ c ∈ s.comments, c.line = d.line → p.start + 3 ≤ c.start
  line_le : d.line ≤ d.parametersEndLine
  end_le : d.parametersEndLine ≤ s.lines.length

/-- Places further on are on lines further down, all of them in the source. -/
theorem Source.fst_location_le {s : Source} {offset offset' : Nat} (hle : offset ≤ offset')
    (hlength : offset' ≤ s.text.length) :
    (s.location offset).1 ≤ (s.location offset').1 ∧ (s.location offset').1 ≤ s.lines.length := by
  have hnames := (s.location_eq_iff (Nat.le_trans hle hlength) _).1 rfl
  have hnames' := (s.location_eq_iff hlength _).1 rfl
  refine ⟨hnames.line_le hnames' hle, ?_⟩
  obtain ⟨index, line, hline, hnumber, -⟩ := hnames'
  have hindex := (List.getElem?_eq_some_iff.1 hline).1
  omega

/-- A definition of the masked text stands in the source as it is declared (`Definition.Stands`). -/
theorem Definition.stands {s : Source} {p : Definition} (hp : p ∈ definitions s.maskedText) :
    p.Stands s (p.declaration fun offset => (s.location offset).1) := by
  have hstart := Source.start_lt_of_definition hp
  have hself := Source.fst_location_le (s := s) (Nat.le_refl p.start) (by omega)
  obtain ⟨rest, hword⟩ := Source.exists_word_of_definition hp
  have hend : (s.location p.start).1 ≤
        (p.declaration fun offset => (s.location offset).1).parametersEndLine ∧
      (p.declaration fun offset => (s.location offset).1).parametersEndLine ≤ s.lines.length := by
    rw [Definition.declaration]
    cases hclose : p.close with
    | none => exact hself
    | some close =>
      obtain ⟨hle, hlength⟩ := (Source.in_of_mem_definitions hp).close close hclose
      rw [s.shows_maskedText.length_eq] at hlength
      exact Source.fst_location_le hle hlength
  exact ⟨by rw [hword]; rfl, rfl, fun c hc hline => Source.start_le_of_definition hp hc hline,
    hend.1, hend.2⟩

/-- **Masking keeps places.** There is one masked line for each line, which for each character shows
it or a blank. Comments are listed by increasing lines; each stands at a hash sign, and from there
on the masked line is blank. So the declarations of a file come from the places at which the word
`def` stands in the file, in front of the comment of the line; each starts on the line of its word
and ends on that line or on a later one of the file, and they are listed in the order of their
lines. -/
theorem masking_keeps_places :
    (∀ lines : List (List Char),
      List.Forall₂ (fun masked line => Shows masked.text line) (maskLines lines) lines ∧
      (commentPlaces (maskLines lines)).Pairwise (fun a b => a.1 < b.1) ∧
      ∀ k c, (k, c) ∈ commentPlaces (maskLines lines) →
        ∃ code text shown, lines[k]? = some (code ++ '#' :: text) ∧ code.length = c ∧
          shown.length = c ∧
          (maskLines lines)[k]? = some ⟨shown ++ Text.blanks (text.length + 1), some c⟩) ∧
    ∀ s : Source, List.Forall₂ (Definition.Stands s) (definitions s.maskedText) s.declarations ∧
      s.declarations.Pairwise (fun a b => a.line ≤ b.line) := by
  refine ⟨fun lines => ⟨forall₂_maskAll Place.start lines, pairwise_commentPlaces _,
    fun k c h => getElem?_maskLines_of_mem h⟩, fun s => ?_⟩
  have hdeclarations : s.declarations =
      (definitions s.maskedText).map (·.declaration fun offset => (s.location offset).1) := rfl
  rw [hdeclarations, List.forall₂_map_right_iff, List.pairwise_map]
  refine ⟨List.forall₂_same.2 fun p hp => Definition.stands hp, ?_⟩
  refine (finds_definitionsFrom [] s.maskedText none).pairwise.imp_of_mem fun {a b} _ hb hlt => ?_
  have hstart := Source.start_lt_of_definition hb
  exact (Source.fst_location_le (Nat.le_of_lt hlt) (by omega)).1

end TypeNotes.Ruby
