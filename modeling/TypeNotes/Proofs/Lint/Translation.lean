import TypeNotes.Proofs.Ruby.Location
import TypeNotes.Proofs.Rule.Motion

/-!
# Lines put above a file

Lines with neither a comment nor a definition in them, after which the scanner is where it started,
do not change what is found below them: linting reports the same violations, as many lines further
down as there are lines above (`lint_below`).

**Relocation.** Masking goes on below the lines as it would from the start of a file
(`Place.maskAll_append`). So the file with the lines above it is the file itself, moved
(`Inert.carries`): lines by their number, characters and bytes by those of the lines with their
ends, which differ as soon as there are characters of several bytes.
-/

namespace TypeNotes.Ruby

open Utf8

/-! ### Where the scanner is after some lines -/

/-- Where the scanner is after some lines. -/
def Place.after (p : Place) (lines : List (List Char)) : Place :=
  lines.foldl (fun p line => (p.mask line).2) p

/-- Lines are masked by going on from where the scanner is after those above (`Place.after`). -/
theorem Place.maskAll_append (p : Place) (above below : List (List Char)) :
    p.maskAll (above ++ below) = p.maskAll above ++ (p.after above).maskAll below := by
  induction above generalizing p with
  | nil => rfl
  | cons line above ih =>
    rw [List.cons_append, Place.maskAll, Place.maskAll, ih, List.cons_append]
    rfl

/-- Lines that have nothing to lint in them and leave the scanner where it started: no comment, no
definition, and after them neither an open literal, nor a heredoc, nor an embedded document, nor the
data section. -/
structure Inert (lines : List (List Char)) : Prop where
  newline : ∀ line ∈ lines, '\n' ∉ line
  comment : ∀ masked ∈ maskLines lines, masked.comment = none
  definitions : definitions (Text.unlines ((maskLines lines).map (·.text))) = []
  after : Place.start.after lines = Place.start

/-- The text of lines, each with its end. -/
def endLines (lines : List (List Char)) : List Char := lines.flatMap (· ++ ['\n'])

/-- In `endLines` the first line stands in front of its line end. -/
theorem endLines_cons (line : List Char) (lines : List (List Char)) (t : List Char) :
    endLines (line :: lines) ++ t = line ++ '\n' :: (endLines lines ++ t) := by
  simp [endLines]

/-- `endLines` in front of a text are the first lines of the whole. -/
theorem lines_endLines_append {lines : List (List Char)} (h : ∀ line ∈ lines, '\n' ∉ line)
    (t : List Char) : Text.lines (endLines lines ++ t) = lines ++ Text.lines t := by
  induction lines with
  | nil => rfl
  | cons line lines ih =>
    obtain ⟨hline, hlines⟩ := List.forall_mem_cons.1 h
    rw [endLines_cons, Text.lines_append_newline hline, ih hlines, List.cons_append]

/-- An ended line has one character more than the line. -/
theorem length_endLines_cons (line : List Char) (lines : List (List Char)) :
    (endLines (line :: lines)).length = line.length + 1 + (endLines lines).length := by
  rw [endLines, List.flatMap_cons, List.length_append, List.length_append, List.length_singleton]
  rfl

/-- An ended line has one byte more than the line. -/
theorem size_endLines_cons (line : List Char) (lines : List (List Char)) :
    size (endLines (line :: lines)) = size line + 1 + size (endLines lines) := by
  rw [endLines, List.flatMap_cons, size_append, size_append]
  rfl

/-- `Text.unlines` puts a line end between lines above and lines below. -/
theorem unlines_append {above below : List (List Char)} (habove : above ≠ []) (hbelow : below ≠ []) :
    Text.unlines (above ++ below) = Text.unlines above ++ '\n' :: Text.unlines below := by
  induction above with
  | nil => exact absurd rfl habove
  | cons line above ih =>
    have hne : above ++ below ≠ [] := List.append_ne_nil_of_right_ne_nil above hbelow
    rw [List.cons_append, unlines_cons line hne]
    cases above with
    | nil => rfl
    | cons next above =>
      rw [ih (List.cons_ne_nil next above), unlines_cons line (List.cons_ne_nil next above),
        List.append_assoc, List.cons_append]

/-- `Text.unlines` has one line end less than lines. -/
theorem count_unlines {lines : List (List Char)} (hne : lines ≠ [])
    (h : ∀ line ∈ lines, '\n' ∉ line) : (Text.unlines lines).count '\n' + 1 = lines.length := by
  induction lines with
  | nil => exact absurd rfl hne
  | cons line lines ih =>
    obtain ⟨hline, hlines⟩ := List.forall_mem_cons.1 h
    have hzero : line.count '\n' = 0 := List.count_eq_zero.2 hline
    cases lines with
    | nil => rw [Text.unlines, hzero, List.length_singleton]
    | cons next lines =>
      have hrest := ih (List.cons_ne_nil next lines) hlines
      rw [unlines_cons line (List.cons_ne_nil next lines), List.count_append, hzero,
        List.count_cons_self, List.length_cons, ← hrest]
      omega

/-! ### Positions below the lines -/

/-- Lines that are numbered from further down, `locateFrom` locates further down. -/
theorem locateFrom_add (number count offset : Nat) (lines : List (List Char)) :
    locateFrom (number + count) offset lines =
      ((locateFrom number offset lines).1 + count, (locateFrom number offset lines).2) := by
  fun_induction locateFrom number offset lines with
  | case1 => rfl
  | case2 => rfl
  | case3 number offset line next more hle => rw [locateFrom, if_pos hle]
  | case4 number offset line next more hle ih =>
    rw [locateFrom, if_neg hle, ← ih]
    congr 1
    omega

/-- A place behind some lines, `locateFrom` finds in the lines below them. -/
theorem locateFrom_below (number offset : Nat) (above : List (List Char)) {lines : List (List Char)}
    (hne : lines ≠ []) :
    locateFrom number (offset + (endLines above).length) (above ++ lines) =
      ((locateFrom number offset lines).1 + above.length, (locateFrom number offset lines).2) := by
  induction above generalizing number with
  | nil => rfl
  | cons line above ih =>
    have hrest : above ++ lines ≠ [] := List.append_ne_nil_of_right_ne_nil above hne
    obtain ⟨next, more, hmore⟩ := List.exists_cons_of_ne_nil hrest
    have hlength := length_endLines_cons line above
    have hgt : ¬ offset + (endLines (line :: above)).length ≤ line.length := by omega
    have hoffset : offset + (endLines (line :: above)).length - (line.length + 1) =
        offset + (endLines above).length := by omega
    rw [List.cons_append, hmore, locateFrom, if_neg hgt, hoffset, ← hmore, ih, locateFrom_add,
      List.length_cons]
    simp only [Prod.mk.injEq, and_true]
    omega

/-- `lineStart` of a line below some lines is behind them. -/
theorem lineStart_below (above lines : List (List Char)) (index : Nat) :
    lineStart (above ++ lines) (index + above.length) =
      lineStart lines index + (endLines above).length := by
  induction above with
  | nil => rfl
  | cons line above ih =>
    rw [List.cons_append, List.length_cons, ← Nat.add_assoc, lineStart_cons_succ, ih,
      length_endLines_cons]
    omega

/-! ### Comments below the lines -/

/-- `commentsFrom` lines are those of the lines above, and those of the lines below with their
places counted on. -/
theorem commentsFrom_append (p : LinePlace) (above below : List (List Char × MaskedLine)) :
    commentsFrom p (above ++ below) =
      commentsFrom p above ++ commentsFrom (above.foldl (fun p y => p.next y.1) p) below := by
  induction above generalizing p with
  | nil => rfl
  | cons y above ih =>
    obtain ⟨line, masked⟩ := y
    rw [List.cons_append, commentsFrom, commentsFrom, ih, List.append_assoc]
    rfl

/-- Lines that are masked without a comment have none. -/
theorem commentsFrom_eq_nil (p : LinePlace) {pairs : List (List Char × MaskedLine)}
    (h : ∀ y ∈ pairs, y.2.comment = none) : commentsFrom p pairs = [] := by
  induction pairs generalizing p with
  | nil => rfl
  | cons y pairs ih =>
    obtain ⟨line, masked⟩ := y
    obtain ⟨hmasked, hpairs⟩ := List.forall_mem_cons.1 h
    simp only at hmasked
    rw [commentsFrom, hmasked, ih _ hpairs]
    rfl

/-- `LinePlace.next` leads behind all characters and bytes of the lines it is given. -/
theorem foldl_next (p : LinePlace) {lines : List (List Char)} {maskeds : List MaskedLine}
    (h : lines.length ≤ maskeds.length) :
    (lines.zip maskeds).foldl (fun p y => p.next y.1) p =
      ⟨p.number + lines.length, p.start + (endLines lines).length,
        p.byteStart + size (endLines lines)⟩ := by
  induction lines generalizing p maskeds with
  | nil => rfl
  | cons line lines ih =>
    cases maskeds with
    | nil => simp at h
    | cons masked maskeds =>
      have hle : lines.length ≤ maskeds.length := by simpa using h
      rw [List.zip_cons_cons, List.foldl_cons, ih _ hle, length_endLines_cons, size_endLines_cons]
      simp only [LinePlace.next, LinePlace.mk.injEq, List.length_cons]
      omega

end TypeNotes.Ruby

namespace TypeNotes

open Ruby Utf8

/-! ### The motion -/

/-- Everything moves down by some lines, with their characters and their bytes. -/
def Motion.below (above : List (List Char)) : Motion where
  lines := above.length
  char offset := offset + (endLines above).length
  byte offset := offset + size (endLines above)
  strictMono_char _ _ hlt := Nat.add_lt_add_right hlt _
  strictMono_byte _ _ hlt := Nat.add_lt_add_right hlt _

/-- Comments counted on from below some lines are moved by `Motion.below`. -/
theorem Motion.commentsFrom_below (above : List (List Char)) (p : LinePlace)
    (pairs : List (List Char × MaskedLine)) :
    commentsFrom ⟨p.number + above.length, p.start + (endLines above).length,
        p.byteStart + size (endLines above)⟩ pairs =
      (commentsFrom p pairs).map (Motion.below above).comment := by
  induction pairs generalizing p with
  | nil => rfl
  | cons y pairs ih =>
    obtain ⟨line, masked⟩ := y
    have hnext := ih (p.next line)
    simp only [LinePlace.next] at hnext
    rw [commentsFrom, commentsFrom, List.map_append, Option.toList_map, Option.toList_map,
      List.map_map, LinePlace.next, LinePlace.next, ← hnext]
    congr 1
    · congr 1
      funext column
      simp only [Comment.ofLine, Function.comp_apply, comment, below, Comment.mk.injEq, true_and,
        and_true]
      omega
    · congr 1
      simp only [LinePlace.mk.injEq]
      omega

namespace Ruby.Inert

variable {q : List (List Char)} (h : Inert q)

include h

/-- Below ended lines a source has the same lines. -/
theorem lines_below (path : String) (t : List Char) :
    (Source.mk path (endLines q ++ t)).lines = q ++ (Source.mk path t).lines :=
  lines_endLines_append h.newline t

/-- Below inert lines (`Inert`) a source is masked the same way. -/
theorem maskedLines_below (path : String) (t : List Char) :
    (Source.mk path (endLines q ++ t)).maskedLines = maskLines q ++ (Source.mk path t).maskedLines := by
  rw [Source.maskedLines, h.lines_below, maskLines, Place.maskAll_append, h.after]
  rfl

/-- Below inert lines a source has the same comments, moved down (`Motion.below`). -/
theorem comments_below (path : String) (t : List Char) :
    (Source.mk path (endLines q ++ t)).comments =
      (Source.mk path t).comments.map (Motion.below q).comment := by
  have hlength : (maskLines q).length = q.length := (forall₂_maskAll Place.start q).length_eq
  have hnone : ∀ y ∈ q.zip (maskLines q), y.2.comment = none :=
    fun y hy => h.comment y.2 (List.of_mem_zip hy).2
  have hbelow := Motion.commentsFrom_below q ⟨1, 0, 0⟩
    ((Source.mk path t).lines.zip (Source.mk path t).maskedLines)
  rw [Source.comments, h.lines_below, h.maskedLines_below, List.zip_append hlength.symm,
    commentsFrom_append, commentsFrom_eq_nil _ hnone, List.nil_append,
    foldl_next _ (Nat.le_of_eq hlength.symm)]
  exact hbelow

/-- Below inert lines a source has the same declarations, moved down. -/
theorem declarations_below (hq : q ≠ []) (path : String) (t : List Char) :
    (Source.mk path (endLines q ++ t)).declarations =
      (Source.mk path t).declarations.map (Motion.below q).declaration := by
  have hlength : (maskLines q).length = q.length := (forall₂_maskAll Place.start q).length_eq
  have habove : (maskLines q).map (·.text) ≠ [] := by
    intro hnil
    rw [List.map_eq_nil_iff] at hnil
    rw [hnil] at hlength
    exact hq (List.length_eq_zero_iff.1 hlength.symm)
  have hbelow : (Source.mk path t).maskedLines.map (·.text) ≠ [] := by
    intro hnil
    have hmasked := (Source.mk path t).map_maskedLines.2
    rw [hnil, List.map_nil] at hmasked
    exact Text.lines_ne_nil t (List.map_eq_nil_iff.1 hmasked.symm)
  -- No definition is found above, and what is found below does not start there.
  have hnone : declarationsFrom 1 none (Text.unlines ((maskLines q).map (·.text))) = [] := by
    have hmap := map_definitionsFrom _ [] none (Text.unlines ((maskLines q).map (·.text))) rfl
    have hdefinitions := h.definitions
    rw [Ruby.definitions] at hdefinitions
    rw [List.length_nil, hdefinitions, List.map_nil] at hmap
    exact hmap.symm
  have hnewline : ∀ masked ∈ (maskLines q).map (·.text), '\n' ∉ masked := by
    intro masked hmasked
    have hlines := (Source.mk path (endLines q ++ t)).map_maskedLines.1
    rw [h.maskedLines_below, List.map_append] at hlines
    exact hlines masked (List.mem_append_left _ hmasked)
  have hglues : (some '\n').any gluesWord = none.any gluesWord := by decide
  have hcount := count_unlines habove hnewline
  rw [List.length_map, hlength] at hcount
  rw [Source.declarations_eq, Source.declarations_eq, Source.maskedText, h.maskedLines_below,
    List.map_append, unlines_append habove hbelow, declarationsFrom_append hnone, Nat.add_assoc,
    hcount, declarationsFrom_add, declarationsFrom_congr 1 hglues]
  rfl

/-- Below inert lines a line has the same span, moved down. -/
theorem lineSpan?_below (path : String) (t : List Char) (number : Nat) :
    (Source.mk path (endLines q ++ t)).lineSpan? ((number + 1 + q.length : Nat) : Int) =
      ((Source.mk path t).lineSpan? ((number + 1 : Nat) : Int)).map (Motion.below q).span := by
  rw [Nat.add_right_comm, Source.lineSpan?_succ, Source.lineSpan?_succ, h.lines_below]
  simp only [lineStart_below]
  rw [List.getElem?_append_right (Nat.le_add_left _ _), Nat.add_sub_cancel, Option.map_map]
  congr 1
  funext line
  simp only [Function.comp_apply, Motion.span, Motion.below, Range.mk.injEq, true_and]
  omega

/-- The file with the lines above it is the file, moved down (`Motion.Carries`). -/
theorem carries (hq : q ≠ []) (path : String) (t : List Char) :
    (Motion.below q).Carries ⟨path, t⟩ ⟨path, endLines q ++ t⟩ where
  path := rfl
  comments := h.comments_below path t
  keeps c _ := {
    char := fun k _ => by simp only [Motion.below]; omega
    byte := fun k _ => by simp only [Motion.below]; omega }
  declarations := h.declarations_below hq path t
  line? number := by
    have hnumber : number + 1 + (Motion.below q).lines = number + q.length + 1 := by
      simp only [Motion.below]
      omega
    rw [hnumber, Source.line?, Source.line?, h.lines_below,
      List.getElem?_append_right (Nat.le_add_left _ _), Nat.add_sub_cancel]
  lineSpan? := h.lineSpan?_below path t
  location offset := by
    rw [Source.location, h.lines_below]
    exact locateFrom_below 1 offset q (Text.lines_ne_nil t)

end Ruby.Inert

/-- **Translation.** Below lines in which nothing is found, and after which the scanner is where it
started, the violations of a text are those of the text alone, as many lines further down as there
are lines above. Columns, rules, severities, messages and their order are the same. -/
theorem lint_below {q : List (List Char)} (hq : q ≠ []) (h : Inert q) (rules : RuleSet)
    (path : String) (t : List Char) :
    lint rules ⟨path, endLines q ++ t⟩ =
      (lint rules ⟨path, t⟩).map (Violation.moveDown q.length) :=
  (h.carries hq path t).lint rules

/-- A note that names no parameter, below a heredoc with a hash sign and characters of several bytes
in it. -/
theorem lint_below_heredoc :
    lint [(.unmatchedNotes, .warning)] ⟨"a.rb", endLines ["é = <<~X".toList, "# ü".toList, "X".toList] ++
        "# @rbs あ: A\n# @rbs x: A\ndef m(y); end".toList⟩ =
      [⟨"a.rb", 5, 8, "unmatched-annotations", .warning, "target parameter not found: `x`."⟩] := by
  have hinert : Inert ["é = <<~X".toList, "# ü".toList, "X".toList] :=
    ⟨by decide, by decide +kernel, by decide +kernel, by decide +kernel⟩
  have hbelow := lint_below (by decide) hinert [(.unmatchedNotes, .warning)] "a.rb"
    "# @rbs あ: A\n# @rbs x: A\ndef m(y); end".toList
  have halone : lint [(.unmatchedNotes, .warning)]
      ⟨"a.rb", "# @rbs あ: A\n# @rbs x: A\ndef m(y); end".toList⟩ =
        [⟨"a.rb", 2, 8, "unmatched-annotations", .warning, "target parameter not found: `x`."⟩] := by
    decide +kernel
  rw [hbelow, halone]
  rfl

end TypeNotes
