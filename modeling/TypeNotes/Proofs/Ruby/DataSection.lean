import Mathlib.Data.List.TakeWhile
import TypeNotes.Proofs.Lint.Translation
import TypeNotes.Proofs.Ruby.Padding

/-!
# Files with a data section

From the end marker on, a file holds data: the scanner hides every line (`EndsAt.maskedLines`), so no
comment is found there (`EndsAt.comments`) and the masked text goes on with blanks and line ends only.

**Declarations.** Hidden text does not change the name, the line or the parameters of a declaration
above it. What it can change is where the parameters end: parentheses that are still open at the end
of the code stay open to the end of the file. Lines behind the code are not told apart by
`Declaration.cutAt`, and up to that the declarations are those of the code alone
(`EndsAt.declarations`).
-/

namespace TypeNotes.Ruby

open Unicode

/-! ### Hidden text -/

/-- Text of which nothing is shown. -/
def Hidden (e : List Char) : Prop := ∀ c ∈ e, c = ' ' ∨ c = '\n'

/-- A hidden text ends a line (`endsLine`). -/
theorem Hidden.endsLine {e : List Char} (he : Hidden e) : endsLine e = true := by
  induction e with
  | nil => rfl
  | cons c e ih =>
    obtain ⟨rfl | rfl, hmore⟩ := List.forall_mem_cons.1 he
    · exact ih hmore
    · rfl

/-- A hidden text is white space. -/
theorem Hidden.isSpace {e : List Char} (he : Hidden e) : ∀ c ∈ e, isSpace c = true := by
  intro c hc
  rcases he c hc with rfl | rfl
  · exact isSpace_blank
  · exact isSpace_newline

/-- White space behind a text does not change `wordsFrom` it. -/
theorem wordsFrom_append_space {e : List Char} (he : ∀ c ∈ e, isSpace c = true)
    (current s : List Char) : Text.wordsFrom current (s ++ e) = Text.wordsFrom current s := by
  induction s generalizing current with
  | nil =>
    rw [List.nil_append]
    induction e generalizing current with
    | nil => rfl
    | cons c e ih =>
      obtain ⟨hc, he⟩ := List.forall_mem_cons.1 he
      have hrest : Text.wordsFrom [] e = [] := ih he []
      simp only [Text.wordsFrom, hc, if_true, hrest]
  | cons c s ih => rw [List.cons_append, Text.wordsFrom, Text.wordsFrom, ih, ih]

/-! ### Parameters before hidden text -/

/-- `splitAtClose` finds a bracket that closes before whatever follows it. -/
theorem splitAtClose_append {depth : Nat} {s : List Char} (h : (splitAtClose depth s).2 ≠ [])
    (e : List Char) : (splitAtClose depth (s ++ e)).1 = (splitAtClose depth s).1 := by
  fun_induction splitAtClose depth s with
  | case1 => exact absurd rfl h
  | case2 c rest hclose => rw [List.cons_append, splitAtClose, if_pos hclose]
  | case3 c rest hclose depth parts ih =>
    rw [List.cons_append, splitAtClose, if_pos hclose]
    exact congrArg (c :: ·) (ih h)
  | case4 depth c rest hclose depth' parts ih =>
    rw [List.cons_append, splitAtClose.eq_def]
    simp only [hclose]
    exact congrArg (c :: ·) (ih h)

/-- No parenthesis is closed in a hidden text. -/
theorem Hidden.splitAtClose {e : List Char} (he : Hidden e) (depth : Nat) :
    (splitAtClose depth e).1 = e := by
  induction e with
  | nil => rfl
  | cons c e ih =>
    obtain ⟨rfl | rfl, hmore⟩ := List.forall_mem_cons.1 he
    · exact congrArg (' ' :: ·) (ih hmore)
    · exact congrArg ('\n' :: ·) (ih hmore)

/-- Brackets that are open at the end of a text stay open for `splitAtClose` in hidden text. -/
theorem splitAtClose_append_of_open {depth : Nat} {s : List Char}
    (h : (splitAtClose depth s).2 = []) {e : List Char} (he : Hidden e) :
    (splitAtClose depth (s ++ e)).1 = s ++ e := by
  fun_induction splitAtClose depth s with
  | case1 depth => exact he.splitAtClose depth
  | case2 => cases h
  | case3 c rest hclose depth parts ih =>
    rw [List.cons_append, splitAtClose, if_pos hclose]
    exact congrArg (c :: ·) (ih h)
  | case4 depth c rest hclose depth' parts ih =>
    rw [List.cons_append, splitAtClose.eq_def]
    simp only [hclose]
    exact congrArg (c :: ·) (ih h)

/-- Blanks to the end of a text, or up to a character that is none. -/
theorem exists_inlineBlanks (s : List Char) : (∀ c ∈ s, isInlineBlank c = true) ∨
    ∃ a c t, (∀ d ∈ a, isInlineBlank d = true) ∧ isInlineBlank c = false ∧ s = a ++ c :: t := by
  have hparts := List.takeWhile_append_dropWhile (p := isInlineBlank) (l := s)
  cases hdrop : s.dropWhile isInlineBlank with
  | nil => exact .inl (List.dropWhile_eq_nil_iff.1 hdrop)
  | cons c t =>
    have hc := List.head?_dropWhile_not isInlineBlank s
    rw [hdrop] at hc hparts
    exact .inr ⟨_, c, t, fun _ hd => List.mem_takeWhile_imp hd, by simpa using hc, hparts.symm⟩

/-- At the end of a line there is no `parameterText`. -/
theorem parameterText_blanks {s : List Char} (hs : ∀ c ∈ s, isInlineBlank c = true) {e : List Char}
    (he : endsLine e = true) : parameterText (s ++ e) = ([], none) := by
  refine parameterText_of_endsLine ?_
  rw [endsLine, List.dropWhile_append_of_pos hs]
  exact he

/-- Parameters before hidden text have the same words as without it, and end on the same line, if
lines in the hidden text are not told apart. -/
theorem parameterText_append {e : List Char} (he : Hidden e) (s : List Char) :
    Text.words (parameterText (s ++ e)).1 = Text.words (parameterText s).1 ∧
      ((parameterText (s ++ e)).2.map fun distance =>
          min (((s ++ e).take distance).count '\n') (s.count '\n')) =
        (parameterText s).2.map fun distance => min ((s.take distance).count '\n') (s.count '\n') := by
  rcases exists_inlineBlanks s with hs | ⟨a, c, t, ha, hc, rfl⟩
  · have halone := parameterText_blanks hs (e := []) rfl
    rw [List.append_nil] at halone
    rw [parameterText_blanks hs he.endsLine, halone]
    exact ⟨rfl, rfl⟩
  · rw [List.append_assoc, List.cons_append]
    by_cases hopen : c = '('
    · subst hopen
      rw [parameterText_open ha, parameterText_open ha, Option.map_some, Option.map_some,
        take_append_open, take_append_open]
      by_cases hclosed : (splitAtClose 0 t).2 = []
      · -- The parentheses stay open, and all of the text is inside.
        have hinside : (splitAtClose 0 t).1 = t := by
          have hparts := splitAtClose_eq_append 0 t
          rwa [hclosed, List.append_nil, eq_comm] at hparts
        rw [splitAtClose_append_of_open hclosed he, hinside]
        refine ⟨wordsFrom_append_space he.isSpace [] t, congrArg some ?_⟩
        simp only [List.count_append, List.count_cons]
        omega
      · rw [splitAtClose_append hclosed]
        exact ⟨rfl, rfl⟩
    · rw [parameterText_bare ha hc hopen, parameterText_bare ha hc hopen]
      split
      · exact ⟨rfl, rfl⟩
      · refine ⟨?_, rfl⟩
        rw [← List.cons_append, List.takeWhile_append]
        split
        · rename_i hlength
          rw [(List.takeWhile_sublist _).eq_of_length hlength]
          refine wordsFrom_append_space (fun d hd => ?_) [] (c :: t)
          exact he.isSpace d ((List.takeWhile_sublist _).subset hd)
        · rfl

/-! ### Declarations before hidden text -/

/-- A declaration in which lines behind the first ones are not told apart. -/
def Declaration.cutAt (count : Nat) (d : Declaration) : Declaration :=
  { d with parametersEndLine := min d.parametersEndLine (count + 1) }

/-- Hidden text behind a definition at most moves the end of its parameters past the last line of
the code. -/
theorem DefinitionHead.cutAt_declaration_append {e : List Char} (he : Hidden e)
    (head : DefinitionHead) {line count : Nat} (hcount : line + head.rest.count '\n' = count + 1) :
    ({ head with rest := head.rest ++ e }.declaration line).cutAt count =
      (head.declaration line).cutAt count := by
  obtain ⟨hwords, hclose⟩ := parameterText_append he head.rest
  have hend : ∀ close : Option Nat,
      min ((close.map (line + ·)).getD line) (count + 1) =
        line + ((close.map (min · (head.rest.count '\n'))).getD 0) := by
    intro close
    cases close with
    | none => simp only [Option.map_none, Option.getD_none]; omega
    | some k => simp only [Option.map_some, Option.getD_some]; omega
  have hmap : ∀ s : List Char, (parameterText s).2.map
      (fun distance => line + (s.take distance).count '\n') =
        ((parameterText s).2.map fun distance => (s.take distance).count '\n').map (line + ·) := by
    intro s
    rw [Option.map_map]
    rfl
  simp only [DefinitionHead.declaration, Declaration.cutAt, parseParameters_congr hwords, hmap, hend,
    Declaration.mk.injEq, true_and, and_true]
  rw [Option.map_map, Option.map_map]
  exact congrArg (fun close : Option Nat => line + close.getD 0) hclose

/-- Nothing is declared in a hidden text. -/
theorem declarationsFrom_hidden {e : List Char} (he : Hidden e) (line : Nat)
    (previous : Option Char) : declarationsFrom line previous e = [] := by
  induction e generalizing line previous with
  | nil => rw [declarationsFrom]
  | cons c e ih =>
    have hnone : headAfter? previous (c :: e) = none := by
      have happend := headAfter?_append he.endsLine previous []
      rw [List.nil_append] at happend
      rw [happend, Option.map_eq_none_iff]
      unfold headAfter?
      split <;> rfl
    rw [declarationsFrom_of_none hnone]
    exact ih (List.forall_mem_cons.1 he).2 _ _

/-- Hidden text has no declarations and changes those before it only in where they end
(`Declaration.cutAt`). -/
theorem map_cutAt_declarationsFrom_append {e : List Char} (he : Hidden e) {a : List Char}
    {line count : Nat} (hcount : line + a.count '\n' = count + 1) (previous : Option Char) :
    (declarationsFrom line previous (a ++ e)).map (Declaration.cutAt count) =
      (declarationsFrom line previous a).map (Declaration.cutAt count) := by
  induction hlen : a.length using Nat.strongRecOn generalizing a line previous with
  | ind n ih =>
    subst hlen
    have happend := headAfter?_append he.endsLine previous a
    cases hhead : headAfter? previous a with
    | none =>
      rw [hhead, Option.map_none] at happend
      cases a with
      | nil => rw [List.nil_append, declarationsFrom_hidden he, declarationsFrom]
      | cons c a =>
        rw [List.cons_append] at happend ⊢
        rw [declarationsFrom_of_none happend, declarationsFrom_of_none hhead]
        refine ih a.length (Nat.lt_succ_self _) ?_ _ rfl
        rw [List.count_cons] at hcount
        split at hcount
        · rename_i hc
          rw [if_pos hc]
          omega
        · rename_i hc
          rw [if_neg hc]
          omega
    | some head =>
      obtain ⟨hparts, hnewline, hne⟩ := DefinitionHead.eq_append_of_headAfter? hhead
      have hrest : line + head.rest.count '\n' = count + 1 := by
        rwa [hparts, List.count_append, List.count_eq_zero.2 hnewline, Nat.zero_add] at hcount
      have hlt : head.rest.length < a.length := by
        rw [hparts, List.length_append]
        have hpos := List.length_pos_iff.2 hne
        omega
      rw [hhead, Option.map_some] at happend
      rw [declarationsFrom_of_some happend, declarationsFrom_of_some hhead, List.map_cons,
        List.map_cons, head.cutAt_declaration_append he hrest, ih _ hlt hrest _ rfl]

/-! ### The data section -/

/-- The code of a file ends with these lines, at the top level, and the end marker follows. -/
structure EndsAt (s : Source) (code : List (List Char)) (marker : List Char) : Prop where
  lines : ∃ data, s.lines = code ++ marker :: data
  after : Place.start.after code = Place.start
  marker : Text.dropReturns marker = endMarker

/-- In a data section `Place.maskAll` hides all lines. -/
theorem Place.maskAll_data (frames : List Frame) (lines : List (List Char)) :
    (Place.mk .data frames).maskAll lines = lines.map MaskedLine.hidden := by
  induction lines with
  | nil => rfl
  | cons line lines ih => exact congrArg (MaskedLine.hidden line :: ·) ih

/-- The end marker starts a data section, and is hidden. -/
theorem Place.mask_marker {marker : List Char} (h : Text.dropReturns marker = endMarker) :
    Place.start.mask marker = (.hidden marker, ⟨.data, []⟩) := by
  obtain ⟨returns, hmarker⟩ := exists_dropReturns marker
  rw [h] at hmarker
  have hbegin : Text.startsWith marker "=begin" = false := by
    rw [hmarker]
    rfl
  simp [Place.mask, Place.start, hbegin, h]

/-- Hidden lines make a hidden text. -/
theorem hidden_unlines (lines : List (List Char)) :
    Hidden (Text.unlines (lines.map fun line => (MaskedLine.hidden line).text)) := by
  induction lines with
  | nil => simp [Hidden, Text.unlines]
  | cons line lines ih =>
    have hline : Hidden (MaskedLine.hidden line).text :=
      fun c hc => .inl (List.eq_of_mem_replicate hc)
    rw [List.map_cons]
    by_cases hmore : lines = []
    · rw [hmore]
      exact hline
    · rw [unlines_cons _ (by simpa using hmore)]
      intro c hc
      rcases List.mem_append.1 hc with hc | hc
      · exact hline c hc
      · rcases List.mem_cons.1 hc with rfl | hc
        · exact .inr rfl
        · exact ih c hc

/-- The lines above a line all have their ends. -/
theorem unlines_append_cons (above : List (List Char)) (line : List Char)
    (below : List (List Char)) :
    Text.unlines (above ++ line :: below) = endLines above ++ Text.unlines (line :: below) := by
  induction above with
  | nil => rfl
  | cons first above ih =>
    rw [List.cons_append, unlines_cons first (by simp), ih, endLines_cons]

/-- In `endLines` there are as many line ends as lines. -/
theorem count_endLines {lines : List (List Char)} (h : ∀ line ∈ lines, '\n' ∉ line) :
    (endLines lines).count '\n' = lines.length := by
  induction lines with
  | nil => rfl
  | cons line lines ih =>
    obtain ⟨hline, hlines⟩ := List.forall_mem_cons.1 h
    have hcons := endLines_cons line lines []
    rw [List.append_nil, List.append_nil] at hcons
    rw [hcons, List.count_append, List.count_eq_zero.2 hline, List.count_cons_self, ih hlines,
      List.length_cons, Nat.zero_add]

namespace EndsAt

variable {s : Source} {code : List (List Char)} {marker : List Char} (h : EndsAt s code marker)

include h

/-- Everything from the end marker on is hidden. -/
theorem maskedLines : ∃ data : List (List Char), s.lines = code ++ marker :: data ∧
    s.maskedLines = maskLines code ++ (marker :: data).map MaskedLine.hidden := by
  obtain ⟨data, hlines⟩ := h.lines
  refine ⟨data, hlines, ?_⟩
  rw [Source.maskedLines, hlines, maskLines, Place.maskAll_append, h.after, Place.maskAll,
    Place.mask_marker h.marker, Place.maskAll_data]
  rfl

/-- The comments of a source are those of its code. -/
theorem comments : s.comments = commentsFrom ⟨1, 0, 0⟩ (code.zip (maskLines code)) := by
  obtain ⟨data, hlines, hmasked⟩ := h.maskedLines
  have hlength : (maskLines code).length = code.length := (forall₂_maskAll _ code).length_eq
  have hnone : ∀ y ∈ (marker :: data).zip ((marker :: data).map MaskedLine.hidden),
      y.2.comment = none := by
    intro y hy
    obtain ⟨line, -, hline⟩ := List.mem_map.1 (List.of_mem_zip hy).2
    rw [← hline]
    rfl
  rw [Source.comments, hlines, hmasked, List.zip_append hlength.symm, commentsFrom_append,
    commentsFrom_eq_nil _ hnone, List.append_nil]

/-- Comments stand in the code. -/
theorem line_le {c : Comment} (hc : c ∈ s.comments) : c.line ≤ code.length := by
  rw [h.comments] at hc
  obtain ⟨index, line, p, hline, hnumber, -, before, text, -, rfl⟩ :=
    exists_line_of_mem_commentsFrom hc
  have hindex := (List.getElem?_eq_some_iff.1 hline).1
  simp only [Comment.ofLine]
  simp only at hnumber
  omega

/-- Up to where they end (`Declaration.cutAt`), the declarations are those of the code alone. -/
theorem declarations : s.declarations.map (Declaration.cutAt code.length) =
    (declarationsFrom 1 none (endLines ((maskLines code).map (·.text)))).map
      (Declaration.cutAt code.length) := by
  obtain ⟨data, -, hmasked⟩ := h.maskedLines
  have hlength : (maskLines code).length = code.length := (forall₂_maskAll _ code).length_eq
  have hnewline : ∀ masked ∈ (maskLines code).map (·.text), '\n' ∉ masked := by
    intro masked hmem
    refine s.map_maskedLines.1 masked ?_
    rw [hmasked, List.map_append]
    exact List.mem_append_left _ hmem
  have hcount := count_endLines hnewline
  rw [List.length_map, hlength] at hcount
  have htext : s.maskedText = endLines ((maskLines code).map (·.text)) ++
      Text.unlines ((marker :: data).map fun line => (MaskedLine.hidden line).text) := by
    rw [Source.maskedText, hmasked, List.map_append, List.map_map, List.map_cons, List.map_cons,
      unlines_append_cons]
    rfl
  rw [Source.declarations_eq, htext]
  refine map_cutAt_declarationsFrom_append (hidden_unlines _) ?_ none
  rw [hcount, Nat.add_comm]

/-- The end marker is not blank. -/
theorem isBlank_marker : Text.isBlank (Text.dropReturns marker) = false := by
  rw [h.marker]
  decide

end EndsAt

end TypeNotes.Ruby
