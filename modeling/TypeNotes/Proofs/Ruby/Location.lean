import TypeNotes.Proofs.Ruby.Comment

/-!
# Coordinates of a file

A place in a file has several coordinates: the number of characters before it, the number of bytes
before it, and its line with its column. They are kept apart and are computed apart, and here they
are shown to agree, for every mixture of characters of one to four bytes, carriage returns, empty
lines, and a last line with or without an end.

**Lines and columns.** `Names lines offset place` says that a line and a column name a position:
the column counts from the start of the line, and the position is not behind the line end. Every
position up to the end of the text is named by its location and by no other pair
(`Source.location_eq_iff`), and pairs follow the order of positions (`Names.lt`).

**Comments.** The coordinates of a comment are taken from the line it stands on
(`Source.exists_line_of_mem_comments`). All of them name the same piece of the text
(`Comment.Placed`).
-/

namespace TypeNotes.Ruby

open Utf8

/-! ### Starts of lines -/

theorem lineStart_zero (lines : List (List Char)) : lineStart lines 0 = 0 := rfl

theorem lineStart_cons_succ (line : List Char) (more : List (List Char)) (index : Nat) :
    lineStart (line :: more) (index + 1) = line.length + 1 + lineStart more index := rfl

/-- A line ends before any later one starts. -/
theorem lineStart_add_length_lt {lines : List (List Char)} {i j : Nat} {line : List Char}
    (hline : lines[i]? = some line) (hij : i < j) :
    lineStart lines i + line.length < lineStart lines j := by
  induction lines generalizing i j with
  | nil => simp at hline
  | cons first more ih =>
    obtain ⟨j, rfl⟩ : ∃ j', j = j' + 1 := ⟨j - 1, by omega⟩
    rw [lineStart_cons_succ]
    cases i with
    | zero =>
      have hfirst : first = line := by simpa using hline
      rw [lineStart_zero, hfirst]
      omega
    | succ i =>
      have hmore : more[i]? = some line := by simpa using hline
      have hlt := ih hmore (Nat.lt_of_succ_lt_succ hij)
      rw [lineStart_cons_succ]
      omega

theorem lineStart_add_length_le {lines : List (List Char)} {i : Nat} {line : List Char}
    (hline : lines[i]? = some line) :
    lineStart lines i + line.length ≤ (Text.unlines lines).length := by
  induction lines generalizing i with
  | nil => simp at hline
  | cons first more ih =>
    cases i with
    | zero =>
      have hfirst : first = line := by simpa using hline
      rw [lineStart_zero, Nat.zero_add, hfirst]
      cases more with
      | nil => exact Nat.le_refl _
      | cons next more =>
        rw [Text.unlines, List.length_append]
        · exact Nat.le_add_right _ _
        · exact List.cons_ne_nil next more
    | succ i =>
      have hmore : more[i]? = some line := by simpa using hline
      have hne : more ≠ [] := by
        rintro rfl
        simp at hmore
      have hle := ih hmore
      rw [lineStart_cons_succ, Text.unlines, List.length_append, List.length_cons]
      · omega
      · exact hne

/-! ### Locations -/

/-- A line and a column, both counted from one, name a position: the line exists, the column counts
from its start, and the position is not behind the line end. -/
def Names (lines : List (List Char)) (offset : Nat) (place : Nat × Nat) : Prop :=
  ∃ index line, lines[index]? = some line ∧ place.1 = index + 1 ∧ 1 ≤ place.2 ∧
    offset + 1 = lineStart lines index + place.2 ∧ offset ≤ lineStart lines index + line.length

/-- The line of an earlier position is not a later one. -/
theorem Names.line_le {lines : List (List Char)} {offset offset' : Nat} {place place' : Nat × Nat}
    (h : Names lines offset place) (h' : Names lines offset' place') (hle : offset ≤ offset') :
    place.1 ≤ place'.1 := by
  obtain ⟨i, line, -, hnumber, hcolumn, hoffset, -⟩ := h
  obtain ⟨j, line', hline', hnumber', -, -, hstop'⟩ := h'
  rcases Nat.lt_or_ge j i with hji | hij
  · have hstart := lineStart_add_length_lt hline' hji
    omega
  · omega

/-- A position has one name (`Names`). -/
theorem Names.unique {lines : List (List Char)} {offset : Nat} {place place' : Nat × Nat}
    (h : Names lines offset place) (h' : Names lines offset place') : place = place' := by
  have hle := h.line_le h' (Nat.le_refl offset)
  have hge := h'.line_le h (Nat.le_refl offset)
  have hline : place.1 = place'.1 := Nat.le_antisymm hle hge
  obtain ⟨i, -, -, hnumber, -, hoffset, -⟩ := h
  obtain ⟨j, -, -, hnumber', -, hoffset', -⟩ := h'
  obtain rfl : i = j := by omega
  exact Prod.ext hline (by omega)

/-- A pair names one position. -/
theorem Names.offset_eq {lines : List (List Char)} {offset offset' : Nat} {place : Nat × Nat}
    (h : Names lines offset place) (h' : Names lines offset' place) : offset = offset' := by
  obtain ⟨i, -, -, hnumber, -, hoffset, -⟩ := h
  obtain ⟨j, -, -, hnumber', -, hoffset', -⟩ := h'
  obtain rfl : i = j := by omega
  omega

/-- Names follow the order of positions: by line, and on one line by column. -/
theorem Names.lt {lines : List (List Char)} {offset offset' : Nat} {place place' : Nat × Nat}
    (h : Names lines offset place) (h' : Names lines offset' place') (hlt : offset < offset') :
    Prod.Lex (· < ·) (· < ·) place place' := by
  have hle := h.line_le h' (Nat.le_of_lt hlt)
  rw [Prod.lex_def]
  rcases Nat.lt_or_eq_of_le hle with hline | hline
  · exact .inl hline
  · obtain ⟨i, -, -, hnumber, -, hoffset, -⟩ := h
    obtain ⟨j, -, -, hnumber', -, hoffset', -⟩ := h'
    obtain rfl : i = j := by omega
    exact .inr ⟨hline, by omega⟩

/-- `locateFrom` ends at a line that names the position, counted from the first number. -/
theorem names_locateFrom (number : Nat) {offset : Nat} {lines : List (List Char)}
    (hne : lines ≠ []) (hle : offset ≤ (Text.unlines lines).length) :
    number < (locateFrom (number + 1) offset lines).1 ∧
      Names lines offset ((locateFrom (number + 1) offset lines).1 - number,
        (locateFrom (number + 1) offset lines).2) := by
  induction lines generalizing number offset with
  | nil => exact absurd rfl hne
  | cons line more ih =>
    have hhere : offset ≤ line.length →
        Names (line :: more) offset (number + 1 - number, offset + 1) := by
      intro hline
      exact ⟨0, line, rfl, by omega, by omega, by rw [lineStart_zero]; omega,
        by rw [lineStart_zero]; omega⟩
    cases more with
    | nil => exact ⟨Nat.lt_succ_self number, hhere hle⟩
    | cons next more =>
      rw [locateFrom]
      split
      · rename_i hline
        exact ⟨Nat.lt_succ_self number, hhere hline⟩
      · rename_i hline
        have hrest : offset - (line.length + 1) ≤ (Text.unlines (next :: more)).length := by
          rw [Text.unlines, List.length_append, List.length_cons] at hle
          · omega
          · exact List.cons_ne_nil next more
        obtain ⟨hnumber, index, found, hfound, hindex, hcolumn, hoffset, hstop⟩ :=
          ih (number + 1) (List.cons_ne_nil next more) hrest
        simp only at hindex hcolumn hoffset hstop
        refine ⟨Nat.lt_of_succ_lt hnumber, index + 1, found, hfound, ?_, hcolumn, ?_, ?_⟩
        · simp only
          omega
        · rw [lineStart_cons_succ]
          simp only
          omega
        · rw [lineStart_cons_succ]
          omega

/-- `Source.location` of a position is the only pair that names it. -/
theorem Source.location_eq_iff (s : Source) {offset : Nat} (hle : offset ≤ s.text.length)
    (place : Nat × Nat) : s.location offset = place ↔ Names s.lines offset place := by
  have hunlines : offset ≤ (Text.unlines s.lines).length := by
    rwa [Source.lines, Text.unlines_lines]
  obtain ⟨-, hnames⟩ := names_locateFrom 0 (Text.lines_ne_nil s.text) hunlines
  have hlocation : Names s.lines offset (s.location offset) := hnames
  constructor
  · intro heq
    exact heq ▸ hlocation
  · intro hplace
    exact hlocation.unique hplace

/-- Whatever has a name lies in the file, and is located by it. -/
theorem Source.location_of_names {s : Source} {offset : Nat} {place : Nat × Nat}
    (h : Names s.lines offset place) : s.location offset = place := by
  have hle : offset ≤ s.text.length := by
    obtain ⟨index, line, hline, -, -, -, hstop⟩ := h
    have hlength := lineStart_add_length_le hline
    rw [Source.lines, Text.unlines_lines] at hlength
    exact Nat.le_trans hstop hlength
  exact (s.location_eq_iff hle place).2 h

/-! ### Lines of comments -/

/-- A comment comes from a line of the file, and takes its coordinates from that line. -/
theorem exists_line_of_mem_commentsFrom {lines : List (List Char)} {place : Place} {p : LinePlace}
    {c : Comment} (h : c ∈ commentsFrom p (lines.zip (place.maskAll lines))) :
    ∃ index line p', lines[index]? = some line ∧ p'.number = p.number + index ∧
      p'.start = p.start + lineStart lines index ∧ ∃ code text, line = code ++ '#' :: text ∧
        c = .ofLine p' line code.length := by
  induction lines generalizing place p with
  | nil => simp [commentsFrom] at h
  | cons line more ih =>
    rw [Place.maskAll, List.zip_cons_cons, commentsFrom] at h
    rcases List.mem_append.1 h with hmem | hmem
    · obtain ⟨column, hcolumn, hc⟩ := Option.map_eq_some_iff.1 (Option.mem_toList.1 hmem)
      obtain ⟨code, text, hline, rfl⟩ := exists_hash_of_mask hcolumn
      exact ⟨0, line, p, rfl, rfl, rfl, code, text, hline, hc.symm⟩
    · obtain ⟨index, found, p', hfound, hnumber, hstart, hhash⟩ := ih hmem
      refine ⟨index + 1, found, p', hfound, ?_, ?_, hhash⟩
      · simp only [LinePlace.next] at hnumber
        omega
      · simp only [LinePlace.next] at hstart
        rw [hstart, lineStart_cons_succ]
        omega

/-- A comment of a file stands on one of its lines, in its column, and reaches to the end of the
line without its carriage returns. -/
theorem Source.exists_line_of_mem_comments {s : Source} {c : Comment} (h : c ∈ s.comments) :
    ∃ index line, s.lines[index]? = some line ∧ c.line = index + 1 ∧
      c.start = lineStart s.lines index + c.column ∧ c.byteStop = c.byteStart + size c.text ∧
      c.text = (Text.dropReturns line).drop c.column ∧ c.column < (Text.dropReturns line).length := by
  obtain ⟨index, line, p, hline, hnumber, hstart, code, text, hhash, hc⟩ :=
    exists_line_of_mem_commentsFrom h
  subst hc
  have hdrop := dropReturns_append (by decide : '#' ≠ '\r') code text
  refine ⟨index, line, hline, ?_, ?_, rfl, rfl, ?_⟩
  · simp only [Comment.ofLine, hnumber]
    omega
  · simp only [Comment.ofLine, hstart]
    omega
  · rw [hhash, hdrop]
    simp [Comment.ofLine]

/-- `Text.dropReturns` leaves no carriage return at the end. -/
theorem getLast?_dropReturns (s : List Char) : (Text.dropReturns s).getLast? ≠ some '\r' := by
  intro hlast
  rw [Text.dropReturns, List.getLast?_reverse] at hlast
  have hhead := List.head?_dropWhile_not (· == '\r') s.reverse
  rw [hlast] at hhead
  simp at hhead

/-! ### All coordinates of a comment -/

/-- The coordinates of a comment all name the same piece of the file, from a hash sign up to the end
of the line, where neither a line end nor a carriage return belongs to it. -/
structure Comment.Placed (s : Source) (c : Comment) : Prop where
  slice : (s.text.take c.stop).drop c.start = c.text
  head : c.text.head? = some '#'
  newline : '\n' ∉ c.text
  returns : c.text.getLast? ≠ some '\r'
  bytes : ((encode s.text).take c.byteStop).drop c.byteStart = encode c.text
  characterOffset_start : s.characterOffset c.byteStart = c.start
  characterOffset_stop : s.characterOffset c.byteStop = c.stop
  location : s.location c.start = (c.line, c.column + 1)

theorem Source.placed_of_mem_comments {s : Source} {c : Comment} (h : c ∈ s.comments) :
    c.Placed s := by
  obtain ⟨before, body, after, htext, hc, hbody, hstart, hstop, hbyteStart⟩ :=
    Source.in_of_mem_comments h
  obtain ⟨index, line, hline, hnumber, hcolumn, hbyteStop, hrest, hlt⟩ :=
    Source.exists_line_of_mem_comments h
  have hparts : s.text = before ++ c.text ++ after := by rw [htext, hc, List.append_assoc]
  have hlength : c.stop = (before ++ c.text).length := by
    rw [hstop, hc, List.length_append, List.length_cons]
  have hsize : c.byteStop = size (before ++ c.text) := by rw [hbyteStop, hbyteStart, size_append]
  have hencode : encode s.text = encode (before ++ c.text) ++ encode after := by
    rw [hparts, encode_append]
  have hnewline : '\n' ∉ c.text := by
    rw [hc, List.mem_cons, not_or]
    exact ⟨by decide, hbody⟩
  refine ⟨?_, by rw [hc]; rfl, hnewline, ?_, ?_, ?_, ?_, ?_⟩
  · rw [hlength, hparts, List.take_left, hstart, List.drop_left]
  · rw [hrest, List.getLast?_drop, if_neg (by omega)]
    exact getLast?_dropReturns line
  · rw [hsize, ← length_encode, hencode, List.take_left, hbyteStart, ← length_encode, encode_append,
      List.drop_left]
  · rw [Source.characterOffset, hbyteStart, hparts, List.append_assoc, characterOffset_size, hstart]
  · rw [Source.characterOffset, hsize, hparts, characterOffset_size, hlength]
  · have hle : c.start ≤ s.text.length := by
      rw [htext, hstart, List.length_append]
      omega
    obtain ⟨returns, hreturns⟩ := exists_dropReturns line
    have hlineLength := congrArg List.length hreturns
    rw [List.length_append] at hlineLength
    rw [Source.location_eq_iff s hle]
    exact ⟨index, line, hline, hnumber, by simp, by simp only; omega, by omega⟩

/-! ### The agreement of all coordinates -/

/-- **Coordinates agree.** The coordinates of every comment name one piece of the file, and comments
come one after another, on later and later lines. The bytes before a character lead to it, and one
byte more leads to the next character, however many bytes the character has. A location is the one
pair that names its position, and locations follow the order of positions. -/
theorem Source.coordinates_agree (s : Source) :
    (∀ c ∈ s.comments, c.Placed s) ∧
    s.comments.Pairwise (fun a b => a.line < b.line ∧ a.start < b.start ∧ a.stop < b.start) ∧
    (∀ i ≤ s.text.length, s.characterOffset (size (s.text.take i)) = i) ∧
    (∀ i < s.text.length, s.characterOffset (size (s.text.take i) + 1) = i + 1) ∧
    (∀ offset ≤ s.text.length, ∀ place, s.location offset = place ↔ Names s.lines offset place) ∧
    (∀ offset offset', offset < offset' → offset' ≤ s.text.length →
      Prod.Lex (· < ·) (· < ·) (s.location offset) (s.location offset')) := by
  refine ⟨fun c hc => Source.placed_of_mem_comments hc, ?_, ?_, ?_, ?_, ?_⟩
  · have hspan : ∀ c ∈ s.comments, c.start ≤ c.stop := by
      intro c hc
      obtain ⟨_, _, _, -, -, -, hstart, hstop, -⟩ := Source.in_of_mem_comments hc
      omega
    refine s.pairwise_comments.imp_of_mem fun {a b} ha hb hbefore => ?_
    have hstop := hbefore.stop
    exact ⟨hbefore.line, Nat.lt_of_le_of_lt (hspan a ha) hstop, hstop⟩
  · intro i hi
    have hsize := characterOffset_size (s.text.take i) (s.text.drop i)
    rwa [List.take_append_drop, List.length_take_of_le hi] at hsize
  · intro i hi
    have hdrop : s.text.drop i = s.text[i] :: s.text.drop (i + 1) := List.drop_eq_getElem_cons hi
    have hsize := characterOffset_size_add_one (s.text.take i) (s.text.drop (i + 1)) s.text[i]
    rwa [← hdrop, List.take_append_drop, List.length_take_of_le (Nat.le_of_lt hi)] at hsize
  · intro offset hle place
    exact s.location_eq_iff hle place
  · intro offset offset' hlt hle'
    have hle : offset ≤ s.text.length := Nat.le_trans (Nat.le_of_lt hlt) hle'
    have hnames := (s.location_eq_iff hle _).1 rfl
    have hnames' := (s.location_eq_iff hle' _).1 rfl
    exact hnames.lt hnames' hlt

/-- A comment behind a character of two bytes, with another one in it and a carriage return after
it. -/
theorem Source.coordinates_agree_two_bytes :
    ∃ c ∈ (Source.ofText "x = 'é' # ü\r\n#".toList).comments, c.start = 8 ∧ c.byteStart = 9 ∧
      c.byteStop = 13 ∧ c.Placed (.ofText "x = 'é' # ü\r\n#".toList) := by
  have hcomment : ∃ c ∈ (Source.ofText "x = 'é' # ü\r\n#".toList).comments,
      c.start = 8 ∧ c.byteStart = 9 ∧ c.byteStop = 13 := by decide +kernel
  obtain ⟨c, hc, hstart, hbyteStart, hbyteStop⟩ := hcomment
  exact ⟨c, hc, hstart, hbyteStart, hbyteStop, (Source.coordinates_agree _).1 c hc⟩

end TypeNotes.Ruby
