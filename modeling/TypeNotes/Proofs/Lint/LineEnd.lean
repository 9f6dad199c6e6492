import TypeNotes.Proofs.Ruby.Location
import TypeNotes.Proofs.Ruby.Padding
import TypeNotes.Proofs.Rule.Motion

/-!
# Line ends with carriage returns

A file may end its lines with a carriage return and a line feed, or with a line feed alone. Linting
does not tell the two apart: with a carriage return put before every line end, it reports the same
violations, in the same lines and columns and in the same order (`lint_withReturns`).

**The motion.** Each return moves everything after its line by one character and one byte, and
nothing on its line (`moveReturns`). What is masked, commented or declared is the same on all lines
(`Place.mask_append_return`, `Padded.declarationsFrom_eq`), so the file with returns is the file
itself, moved (`carries_withReturns`). Places on a line keep their columns, and so do violations.
-/

namespace TypeNotes.Ruby

open Utf8

/-! ### Texts and lines with returns -/

/-- A text with a carriage return before each line end. -/
def withReturns (text : List Char) : List Char :=
  text.flatMap fun c => if c == '\n' then ['\r', '\n'] else [c]

/-- Lines with a carriage return at the end of all but the last one. -/
def returnLines : List (List Char) → List (List Char)
  | [] => []
  | [line] => [line]
  | line :: next :: more => (line ++ ['\r']) :: returnLines (next :: more)

theorem returnLines_cons (line : List Char) {more : List (List Char)} (h : more ≠ []) :
    returnLines (line :: more) = (line ++ ['\r']) :: returnLines more := by
  obtain ⟨next, more, rfl⟩ := List.exists_cons_of_ne_nil h
  rfl

theorem lines_withReturns (text : List Char) :
    Text.lines (withReturns text) = returnLines (Text.lines text) := by
  induction text with
  | nil => rfl
  | cons c text ih =>
    have hne := Text.lines_ne_nil text
    by_cases hc : c = '\n'
    · subst hc
      have hcons : withReturns ('\n' :: text) = ['\r'] ++ '\n' :: withReturns text := rfl
      have hlines : Text.lines ('\n' :: text) = [] :: Text.lines text := rfl
      rw [hcons, Text.lines_append_newline (by decide), hlines, returnLines_cons _ hne, ih]
      rfl
    · have hbeq : (c == '\n') = false := by simpa using hc
      have hcons : withReturns (c :: text) = c :: withReturns text := by
        simp [withReturns, hc]
      rw [hcons, Text.lines, Text.lines, hbeq, ih]
      cases Text.lines text with
      | nil => rfl
      | cons line more =>
        cases more with
        | nil => rfl
        | cons next more => rfl

theorem returnLines_ne_nil {lines : List (List Char)} (h : lines ≠ []) : returnLines lines ≠ [] := by
  match lines, h with
  | [_], _ => exact List.cons_ne_nil _ _
  | _ :: _ :: _, _ => exact List.cons_ne_nil _ _

theorem map_dropReturns_returnLines (lines : List (List Char)) :
    (returnLines lines).map Text.dropReturns = lines.map Text.dropReturns := by
  fun_induction returnLines lines with
  | case1 => rfl
  | case2 => rfl
  | case3 line next more ih =>
    rw [List.map_cons, ih, dropReturns_append_return]
    rfl

/-! ### Where places go -/

/-- Where the returns of earlier lines move a place, with lines measured in characters or in
bytes. -/
def moveReturns (measure : List Char → Nat) : List (List Char) → Nat → Nat
  | [], offset => offset
  | [_], offset => offset
  | line :: next :: more, offset =>
    if offset ≤ measure line then offset
    else measure line + 2 + moveReturns measure (next :: more) (offset - (measure line + 1))

section MoveReturns

variable (measure : List Char → Nat)

theorem moveReturns_of_le {line : List Char} {offset : Nat} (h : offset ≤ measure line)
    (more : List (List Char)) : moveReturns measure (line :: more) offset = offset := by
  cases more with
  | nil => rfl
  | cons next more => rw [moveReturns, if_pos h]

theorem moveReturns_next (line : List Char) {more : List (List Char)} (h : more ≠ []) (offset : Nat) :
    moveReturns measure (line :: more) (measure line + 1 + offset) =
      measure line + 2 + moveReturns measure more offset := by
  obtain ⟨next, more, rfl⟩ := List.exists_cons_of_ne_nil h
  rw [moveReturns, if_neg (by omega), Nat.add_sub_cancel_left]

theorem strictMono_moveReturns (lines : List (List Char)) : StrictMono (moveReturns measure lines) := by
  intro i j hij
  fun_induction moveReturns measure lines i generalizing j with
  | case1 => exact hij
  | case2 => exact hij
  | case3 line next more i hle =>
    rw [moveReturns]
    split
    · exact hij
    · omega
  | case4 line next more i hle ih =>
    rw [moveReturns, if_neg (by omega)]
    have hrest := ih (j := j - (measure line + 1)) (by omega)
    omega

end MoveReturns

/-- `locateFrom` gives a place that has moved the location of the place. -/
theorem locateFrom_moveReturns (number offset : Nat) (lines : List (List Char)) :
    locateFrom number (moveReturns List.length lines offset) (returnLines lines) =
      locateFrom number offset lines := by
  fun_induction locateFrom number offset lines with
  | case1 => rfl
  | case2 => rfl
  | case3 number offset line next more hle =>
    obtain ⟨first, rest, hrest⟩ :=
      List.exists_cons_of_ne_nil (returnLines_ne_nil (List.cons_ne_nil next more))
    rw [moveReturns_of_le _ hle, returnLines, hrest, locateFrom, if_pos]
    rw [List.length_append]
    omega
  | case4 number offset line next more hle ih =>
    obtain ⟨first, rest, hrest⟩ :=
      List.exists_cons_of_ne_nil (returnLines_ne_nil (List.cons_ne_nil next more))
    rw [moveReturns, if_neg hle, returnLines, hrest, locateFrom, List.length_append,
      List.length_singleton, if_neg (by omega), ← hrest, ← ih]
    congr 1
    omega

/-- `moveReturns` takes the places of a line to the same line. -/
theorem moveReturns_lineStart {lines : List (List Char)} {index : Nat} {line : List Char}
    (hline : lines[index]? = some line) {k : Nat} (hk : k ≤ line.length) :
    moveReturns List.length lines (lineStart lines index + k) =
      lineStart (returnLines lines) index + k := by
  induction lines generalizing index with
  | nil => simp at hline
  | cons first more ih =>
    cases index with
    | zero =>
      obtain rfl : first = line := by simpa using hline
      rw [lineStart_zero, lineStart_zero, Nat.zero_add, moveReturns_of_le _ hk]
    | succ index =>
      have hmore : more[index]? = some line := by simpa using hline
      have hne : more ≠ [] := by
        rintro rfl
        simp at hmore
      rw [lineStart_cons_succ, returnLines_cons first hne, lineStart_cons_succ, Nat.add_assoc,
        moveReturns_next _ first hne, ih hmore, List.length_append, List.length_singleton]
      omega

/-! ### Masked text -/

theorem padded_unlines_maskAll {p : Place} (hp : p.Visible) {lines : List (List Char)}
    (hlines : ∀ line ∈ lines, '\n' ∉ line) :
    Padded (Text.unlines ((p.maskAll lines).map (·.text)))
      (Text.unlines ((p.maskAll (returnLines lines)).map (·.text))) := by
  induction lines generalizing p with
  | nil => exact .nil
  | cons line more ih =>
    obtain ⟨hline, hmore⟩ := List.forall_mem_cons.1 hlines
    have hmasked : '\n' ∉ (p.mask line).1.text := (shows_mask p line).not_mem_newline hline
    cases more with
    | nil =>
      have hself := Padded.nil.append hmasked
      rwa [List.append_nil] at hself
    | cons next more =>
      obtain ⟨x, hx, hmask⟩ := Place.mask_append_return hp line
      have hrest := ih (Place.visible_mask hp line) hmore
      have hne : ∀ (p : Place) {ls : List (List Char)}, ls ≠ [] → (p.maskAll ls).map (·.text) ≠ [] := by
        intro p ls hls
        obtain ⟨first, rest, rfl⟩ := List.exists_cons_of_ne_nil hls
        exact List.cons_ne_nil _ _
      have hmaskAll : ∀ l ls, p.maskAll (l :: ls) = (p.mask l).1 :: (p.mask l).2.maskAll ls :=
        fun _ _ => rfl
      have hnext := List.cons_ne_nil next more
      rw [returnLines, hmaskAll, hmaskAll, hmask, List.map_cons, List.map_cons,
        unlines_cons _ (hne _ hnext), unlines_cons _ (hne _ (returnLines_ne_nil hnext)),
        List.append_assoc, List.singleton_append]
      exact (Padded.newline hx hrest).append hmasked

end TypeNotes.Ruby

namespace TypeNotes

open Ruby Utf8

/-! ### The motion -/

/-- Everything moves by the returns of the lines before it. -/
def Motion.returns (lines : List (List Char)) : Motion where
  lines := 0
  char := moveReturns List.length lines
  byte := moveReturns size lines
  strictMono_char := strictMono_moveReturns _ lines
  strictMono_byte := strictMono_moveReturns _ lines

namespace Motion

variable {m : Motion}

/-- The comment of a line whose places all move together. -/
theorem comment_ofLine (hlines : m.lines = 0) {p p' : LinePlace} {line line' : List Char}
    (hnumber : p'.number = p.number) (hdrop : Text.dropReturns line' = Text.dropReturns line)
    (hchar : ∀ k ≤ line.length, m.char (p.start + k) = p'.start + k)
    (hbyte : ∀ k ≤ size line, m.byte (p.byteStart + k) = p'.byteStart + k) {column : Nat}
    (hcolumn : column ≤ (Text.dropReturns line).length) :
    Comment.ofLine p' line' column = m.comment (.ofLine p line column) ∧
      m.Keeps (.ofLine p line column) := by
  obtain ⟨returns, hreturns⟩ := exists_dropReturns line
  have hlength := congrArg List.length hreturns
  have hsize := congrArg size hreturns
  have hparts : size ((Text.dropReturns line).take column) +
      size ((Text.dropReturns line).drop column) = size (Text.dropReturns line) := by
    rw [← size_append, List.take_append_drop]
  rw [List.length_append] at hlength
  rw [size_append] at hsize
  have hstart := hchar column (by omega)
  have hstop := hchar (Text.dropReturns line).length (by omega)
  have hbyteStart := hbyte (size ((Text.dropReturns line).take column)) (by omega)
  have hbyteStop := hbyte (size (Text.dropReturns line)) (by omega)
  refine ⟨?_, ?_, ?_⟩
  · simp only [Comment.ofLine, comment, hdrop, hstart, hstop, hbyteStart, hnumber, hlines,
      Nat.add_zero, Comment.mk.injEq, true_and, and_true]
    rw [Nat.add_assoc, Nat.add_assoc, hparts, hbyteStop]
  · intro k hk
    simp only [Comment.ofLine, List.length_drop] at hk ⊢
    have hplace := hchar (column + k) (by omega)
    rw [Nat.add_assoc, hplace, hstart, Nat.add_assoc]
  · intro k hk
    simp only [Comment.ofLine] at hk ⊢
    have hplace := hbyte (size ((Text.dropReturns line).take column) + k) (by omega)
    rw [Nat.add_assoc, hplace, hbyteStart, Nat.add_assoc]

/-- `commentsFrom` lines with returns are the comments of the lines, moved. -/
theorem commentsFrom_returnLines (hlines : m.lines = 0) (lines : List (List Char)) {place : Place}
    (hplace : place.Visible) (p p' : LinePlace) (hnumber : p'.number = p.number)
    (hchar : ∀ k, m.char (p.start + k) = p'.start + moveReturns List.length lines k)
    (hbyte : ∀ k, m.byte (p.byteStart + k) = p'.byteStart + moveReturns size lines k) :
    commentsFrom p' ((returnLines lines).zip (place.maskAll (returnLines lines))) =
        (commentsFrom p (lines.zip (place.maskAll lines))).map m.comment ∧
      ∀ c ∈ commentsFrom p (lines.zip (place.maskAll lines)), m.Keeps c := by
  induction lines generalizing place p p' with
  | nil => exact ⟨rfl, by simp [commentsFrom]⟩
  | cons line more ih =>
    -- The comment of the first line, with a return at its end or without.
    have hfirst : ∀ line', Text.dropReturns line' = Text.dropReturns line →
        ((place.mask line).1.comment.map (Comment.ofLine p' line')).toList =
            ((place.mask line).1.comment.map (Comment.ofLine p line)).toList.map m.comment ∧
          ∀ c ∈ ((place.mask line).1.comment.map (Comment.ofLine p line)).toList, m.Keeps c := by
      intro line' hdrop
      cases hcomment : (place.mask line).1.comment with
      | none => exact ⟨rfl, by simp⟩
      | some column =>
        obtain ⟨code, text, hline, rfl⟩ := exists_hash_of_mask hcomment
        have hcolumn : code.length ≤ (Text.dropReturns line).length := by
          rw [hline, dropReturns_append (by decide : '#' ≠ '\r'), List.length_append]
          omega
        have hchar' : ∀ k ≤ line.length, m.char (p.start + k) = p'.start + k := by
          intro k hk
          rw [hchar, moveReturns_of_le _ hk]
        have hbyte' : ∀ k ≤ size line, m.byte (p.byteStart + k) = p'.byteStart + k := by
          intro k hk
          rw [hbyte, moveReturns_of_le _ hk]
        obtain ⟨heq, hkeeps⟩ := comment_ofLine hlines hnumber hdrop hchar' hbyte' hcolumn
        simp only [Option.map_some, Option.toList_some, List.map_cons, List.map_nil, heq,
          List.mem_singleton, forall_eq, hkeeps, and_self]
    cases more with
    | nil =>
      obtain ⟨heq, hkeeps⟩ := hfirst line rfl
      have hsingle : ∀ q : LinePlace, commentsFrom q ([line].zip (place.maskAll [line])) =
          ((place.mask line).1.comment.map (Comment.ofLine q line)).toList := by
        intro q
        exact List.append_nil _
      rw [returnLines, hsingle, hsingle]
      exact ⟨heq, hkeeps⟩
    | cons next more =>
      obtain ⟨x, -, hmask⟩ := Place.mask_append_return hplace line
      obtain ⟨heq, hkeeps⟩ := hfirst (line ++ ['\r']) (dropReturns_append_return line)
      have hnext := List.cons_ne_nil next more
      have hsize : size (line ++ ['\r']) = size line + 1 := by rw [size_append]; rfl
      obtain ⟨hrest, hrestKeeps⟩ := ih (Place.visible_mask hplace line) (p.next line)
        (p'.next (line ++ ['\r'])) (by simp only [LinePlace.next, hnumber])
        (by
          intro k
          have hmove := hchar (line.length + 1 + k)
          rw [moveReturns_next _ line hnext] at hmove
          simp only [LinePlace.next, List.length_append, List.length_singleton]
          rw [Nat.add_assoc, Nat.add_assoc, ← Nat.add_assoc line.length, hmove]
          omega)
        (by
          intro k
          have hmove := hbyte (size line + 1 + k)
          rw [moveReturns_next _ line hnext] at hmove
          simp only [LinePlace.next, hsize]
          rw [Nat.add_assoc, Nat.add_assoc, ← Nat.add_assoc (size line), hmove]
          omega)
      have hmaskAll : ∀ l ls, place.maskAll (l :: ls) =
          (place.mask l).1 :: (place.mask l).2.maskAll ls := fun _ _ => rfl
      rw [returnLines, hmaskAll, hmaskAll, hmask, List.zip_cons_cons, List.zip_cons_cons,
        commentsFrom, commentsFrom, List.map_append, heq, hrest]
      refine ⟨rfl, fun c hc => ?_⟩
      rcases List.mem_append.1 hc with hc | hc
      · exact hkeeps c hc
      · exact hrestKeeps c hc

end Motion

/-! ### The file with returns -/

theorem lineSpan?_withReturns (path : String) (text : List Char) (number : Nat) :
    (Source.mk path (withReturns text)).lineSpan? ((number + 1 : Nat) : Int) =
      ((Source.mk path text).lineSpan? ((number + 1 : Nat) : Int)).map
        (Motion.returns (Text.lines text)).span := by
  have hlines : (Source.mk path (withReturns text)).lines = returnLines (Text.lines text) :=
    lines_withReturns text
  have hlines' : (Source.mk path text).lines = Text.lines text := rfl
  rw [Source.lineSpan?_succ, Source.lineSpan?_succ, hlines, hlines']
  -- Both files have the line, without its returns, or neither has it.
  have hdrop : (returnLines (Text.lines text))[number]?.map Text.dropReturns =
      (Text.lines text)[number]?.map Text.dropReturns := by
    rw [← List.getElem?_map, map_dropReturns_returnLines, List.getElem?_map]
  cases hline : (Text.lines text)[number]? with
  | none =>
    rw [hline, Option.map_none, Option.map_eq_none_iff] at hdrop
    rw [hdrop]
    rfl
  | some line =>
    rw [hline, Option.map_some, Option.map_eq_some_iff] at hdrop
    obtain ⟨line', hline', hreturns⟩ := hdrop
    obtain ⟨returns, hparts⟩ := exists_dropReturns line
    have hlength := congrArg List.length hparts
    rw [List.length_append] at hlength
    have hstart := moveReturns_lineStart hline (Nat.zero_le _)
    have hstop := moveReturns_lineStart hline (k := (Text.dropReturns line).length) (by omega)
    rw [Nat.add_zero, Nat.add_zero] at hstart
    rw [hline']
    simp only [Option.map_some, hreturns, Motion.span, Motion.returns, hstart, hstop]

/-- The file with returns is the file, moved by them (`Carries`). -/
theorem carries_withReturns (path : String) (text : List Char) :
    (Motion.returns (Text.lines text)).Carries ⟨path, text⟩ ⟨path, withReturns text⟩ := by
  have hlines : (Source.mk path (withReturns text)).lines = returnLines (Text.lines text) :=
    lines_withReturns text
  have hvisible : Place.start.Visible := by simp [Place.Visible, Place.start]
  obtain ⟨hcomments, hkeeps⟩ := Motion.commentsFrom_returnLines (m := .returns (Text.lines text)) rfl
    (Text.lines text) hvisible ⟨1, 0, 0⟩ ⟨1, 0, 0⟩ rfl
    (fun k => by rw [Nat.zero_add, Nat.zero_add]; rfl)
    (fun k => by rw [Nat.zero_add, Nat.zero_add]; rfl)
  refine ⟨rfl, ?_, hkeeps, ?_, ?_, ?_, ?_⟩
  · rw [Source.comments, Source.maskedLines, hlines]
    exact hcomments
  · have hpadded := padded_unlines_maskAll hvisible fun line (hline : line ∈ Text.lines text) =>
      not_mem_of_mem_lines hline
    have hmove : (Motion.returns (Text.lines text)).declaration = id := rfl
    rw [Source.declarations_eq, Source.declarations_eq, Source.maskedText, Source.maskedLines, hlines,
      hmove, List.map_id]
    exact hpadded.declarationsFrom_eq 1 none
  · intro number
    have hline := congrArg (·[number]?) (map_dropReturns_returnLines (Text.lines text))
    simp only [List.getElem?_map] at hline
    have hnumber : number + 1 + (Motion.returns (Text.lines text)).lines = number + 1 := rfl
    rw [hnumber, Source.line?, Source.line?, hlines]
    exact hline
  · exact lineSpan?_withReturns path text
  · intro offset
    rw [Source.location, hlines]
    exact locateFrom_moveReturns 1 offset (Text.lines text)

/-- **Line ends make no difference.** With a carriage return before every line end, a file has the
same violations: the same lines, columns, rules, severities and messages, in the same order. -/
theorem lint_withReturns (rules : RuleSet) (path : String) (text : List Char) :
    lint rules ⟨path, withReturns text⟩ = lint rules ⟨path, text⟩ := by
  have hlint := (carries_withReturns path text).lint rules
  have hmove : Violation.moveDown (Motion.returns (Text.lines text)).lines = id := rfl
  rwa [hmove, List.map_id] at hlint

end TypeNotes
