import TypeNotes.Ruby.Source

/-!
# Where comments stand

Every comment of a file is a piece of its text, from a hash sign to the end of a line
(`Comment.In`), and the comments of a file come one after another, at most one on each line
(`Comment.Before`).

**Bytes and characters.** A place in a text is told by what stands before it: its number of bytes
or its number of characters. `characterOffset_append` takes the one to the other.
-/

namespace TypeNotes.Ruby

open Utf8

/-! ### Bytes and characters -/

theorem characterOffset_zero (text : List Char) : characterOffset text 0 = 0 := by
  cases text with
  | nil => rfl
  | cons c text =>
    have hpos : 0 < c.utf8Size := Char.utf8Size_pos c
    rw [characterOffset, if_neg (by omega)]

/-- Behind some characters, `characterOffset` counts bytes from there. -/
theorem characterOffset_append (before text : List Char) (offset : Nat) :
    characterOffset (before ++ text) (size before + offset) =
      before.length + characterOffset text offset := by
  induction before with
  | nil => simp
  | cons c before ih =>
    rw [List.cons_append, size_cons, characterOffset, if_pos (by omega),
      show c.utf8Size + size before + offset - c.utf8Size = size before + offset by omega, ih,
      List.length_cons]
    omega

theorem characterOffset_size (before text : List Char) :
    characterOffset (before ++ text) (size before) = before.length := by
  have h := characterOffset_append before text 0
  rwa [characterOffset_zero] at h

/-- `characterOffset` of one byte further is one character further, however many bytes the character
has. -/
theorem characterOffset_size_add_one (before text : List Char) (c : Char) :
    characterOffset (before ++ c :: text) (size before + 1) = before.length + 1 := by
  have hpos : 0 < c.utf8Size := Char.utf8Size_pos c
  rw [characterOffset_append, characterOffset]
  split
  · rw [show 1 - c.utf8Size = 0 by omega, characterOffset_zero]
  · rfl

/-! ### Lines -/

theorem not_mem_of_mem_lines {text line : List Char} (h : line ∈ Text.lines text) :
    '\n' ∉ line := by
  induction text generalizing line with
  | nil =>
    rw [Text.lines, List.mem_singleton] at h
    simp [h]
  | cons c text ih =>
    rw [Text.lines] at h
    split at h
    · rcases List.mem_cons.1 h with rfl | h
      · simp
      · exact ih h
    · rename_i hc
      split at h
      · rename_i hnil
        exact absurd hnil (Text.lines_ne_nil text)
      · rename_i first more hlines
        rw [hlines] at ih
        rcases List.mem_cons.1 h with rfl | h
        · intro hmem
          rcases List.mem_cons.1 hmem with rfl | hmem
          · simp at hc
          · exact ih List.mem_cons_self hmem
        · exact ih (List.mem_cons_of_mem _ h)

/-- `Text.dropReturns` leaves out carriage returns only at the end. -/
theorem dropReturns_append {c : Char} (hc : c ≠ '\r') (before after : List Char) :
    Text.dropReturns (before ++ c :: after) = before ++ c :: Text.dropReturns after := by
  simp only [Text.dropReturns, List.reverse_append, List.reverse_cons, List.append_assoc,
    List.singleton_append]
  rw [List.dropWhile_append]
  split
  · rename_i hempty
    rw [List.isEmpty_iff] at hempty
    rw [hempty, List.dropWhile_cons_of_neg (by simpa using hc)]
    simp
  · simp

/-- The end of a line without its carriage returns. -/
theorem exists_dropReturns (line : List Char) :
    ∃ returns, line = Text.dropReturns line ++ returns := by
  refine ⟨(line.reverse.takeWhile (· == '\r')).reverse, ?_⟩
  rw [Text.dropReturns, ← List.reverse_append, List.takeWhile_append_dropWhile, List.reverse_reverse]

/-! ### Hash signs -/

theorem eq_hash_of_step {frames : List Frame} {before rest : List Char} {c : Char}
    (h : step frames before c rest = none) : c = '#' := by
  unfold step at h
  split at h
  · cases h
  · split at h
    · rename_i hc
      exact beq_iff_eq.1 hc
    · cases h

/-- A comment that `scanFrom` finds starts at a hash sign. -/
theorem exists_hash_of_scanFrom {before : List Char} {frames : List Frame}
    {heredocs : List Heredoc} {line : List Char} {column : Nat}
    (h : (scanFrom before frames heredocs line).masked.comment = some column) :
    ∃ code text, line = code ++ '#' :: text ∧ column = before.length + code.length := by
  fun_induction scanFrom before frames heredocs line with
  | case1 => cases h
  | case2 before frames heredocs c rest hstep =>
    obtain rfl := eq_hash_of_step hstep
    refine ⟨[], rest, rfl, ?_⟩
    simpa using h.symm
  | case3 before frames heredocs c rest s hstep ih =>
    obtain ⟨code, text, hdrop, rfl⟩ := ih h
    have hlength : s.more.length < rest.length := by
      have := congrArg List.length hdrop
      simp only [List.length_drop, List.length_append, List.length_cons] at this
      omega
    refine ⟨c :: (rest.take s.more.length ++ code), text, ?_, ?_⟩
    · rw [List.cons_append, List.append_assoc, ← hdrop, List.take_append_drop]
    · simp only [List.length_append, List.length_reverse, List.length_cons, List.length_take]
      omega

/-- A comment that `Place.mask` finds starts at a hash sign of the line. -/
theorem exists_hash_of_mask {p : Place} {line : List Char} {column : Nat}
    (h : (p.mask line).1.comment = some column) :
    ∃ code text, line = code ++ '#' :: text ∧ column = code.length := by
  unfold Place.mask at h
  split at h
  · cases h
  · cases h
  · cases h
  · split at h
    · cases h
    split at h
    · cases h
    · obtain ⟨code, text, hline, hcolumn⟩ := exists_hash_of_scanFrom h
      exact ⟨code, text, hline, by simpa using hcolumn⟩

/-! ### Comments of a file -/

/-- The comment is a piece of the text, from a hash sign on, without line ends in it. -/
def Comment.In (text : List Char) (c : Comment) : Prop :=
  ∃ before body after, text = before ++ ('#' :: body ++ after) ∧ c.text = '#' :: body ∧
    '\n' ∉ body ∧ c.start = before.length ∧ c.stop = before.length + (body.length + 1) ∧
    c.byteStart = size before

theorem Comment.body_eq {c : Comment} {body : List Char} (h : c.text = '#' :: body) :
    c.body = body := by
  rw [Comment.body, h, List.drop_one, List.tail_cons]

theorem Comment.In.text_eq {text : List Char} {c : Comment} (hc : c.In text) :
    c.text = '#' :: c.body := by
  obtain ⟨_, body, _, -, htext, -⟩ := hc
  rw [htext, Comment.body_eq htext]

/-- The first comment stands on a line above that of the second one, and ends before it. -/
structure Comment.Before (a b : Comment) : Prop where
  line : a.line < b.line
  stop : a.stop < b.start
  byteStop : a.byteStop < b.byteStart

theorem Comment.in_ofLine {p : LinePlace} {before line after : List Char} {masked : MaskedLine}
    {column : Nat} {place : Place} (hmask : (place.mask line).1 = masked)
    (hcolumn : masked.comment = some column) (hline : '\n' ∉ line)
    (hstart : p.start = before.length) (hbyteStart : p.byteStart = size before) :
    (Comment.ofLine p line column).In (before ++ (line ++ after)) := by
  subst hmask
  obtain ⟨code, text, rfl, rfl⟩ := exists_hash_of_mask hcolumn
  obtain ⟨returns, hreturns⟩ := exists_dropReturns text
  have hdrop := dropReturns_append (by decide : '#' ≠ '\r') code text
  have hbody : '\n' ∉ Text.dropReturns text := by
    intro hmem
    refine hline (List.mem_append_right _ (List.mem_cons_of_mem _ ?_))
    rw [hreturns]
    exact List.mem_append_left _ hmem
  refine ⟨before ++ code, Text.dropReturns text, returns ++ after, ?_, ?_, hbody, ?_, ?_, ?_⟩
  · calc before ++ (code ++ '#' :: text ++ after)
        = before ++ (code ++ '#' :: (Text.dropReturns text ++ returns) ++ after) := by
          rw [← hreturns]
      _ = before ++ code ++ ('#' :: Text.dropReturns text ++ (returns ++ after)) := by simp
  · simp [Comment.ofLine, hdrop]
  · simp [Comment.ofLine, hstart]
  · simp only [Comment.ofLine, hdrop, hstart, List.length_append, List.length_cons]
    omega
  · simp [Comment.ofLine, hdrop, hbyteStart]

theorem in_of_mem_commentsFrom {ls : List (List Char)} (hls : ∀ line ∈ ls, '\n' ∉ line)
    {place : Place} {p : LinePlace} (before : List Char) (hstart : p.start = before.length)
    (hbyteStart : p.byteStart = size before) {c : Comment}
    (h : c ∈ commentsFrom p (ls.zip (place.maskAll ls))) : c.In (before ++ Text.unlines ls) := by
  induction ls generalizing place p before with
  | nil => cases h
  | cons line more ih =>
    have hmore := fun l hl => hls l (List.mem_cons_of_mem _ hl)
    rw [Place.maskAll, List.zip_cons_cons, commentsFrom] at h
    rcases List.mem_append.1 h with h | h
    · obtain ⟨column, hcolumn, rfl⟩ := Option.map_eq_some_iff.1 (Option.mem_toList.1 h)
      obtain ⟨after, hafter⟩ : ∃ after, Text.unlines (line :: more) = line ++ after := by
        cases more with
        | nil => exact ⟨[], (List.append_nil line).symm⟩
        | cons next more => exact ⟨_, rfl⟩
      rw [hafter]
      exact Comment.in_ofLine rfl hcolumn (hls line List.mem_cons_self) hstart hbyteStart
    · cases more with
      | nil => cases h
      | cons next more =>
        have hin := ih hmore (before ++ (line ++ ['\n'])) ?_ ?_ h
        · simpa [Text.unlines] using hin
        · simp only [LinePlace.next, hstart, List.length_append, List.length_singleton]
          omega
        · have hsize : '\n'.utf8Size = 1 := rfl
          simp only [LinePlace.next, hbyteStart, size_append, size_cons, size_nil, hsize]
          omega

/-- Every comment of a file stands in its text (`Comment.In`). -/
theorem Source.in_of_mem_comments {s : Source} {c : Comment} (h : c ∈ s.comments) :
    c.In s.text := by
  have hin := in_of_mem_commentsFrom (fun line hline => not_mem_of_mem_lines hline) [] rfl rfl h
  rwa [List.nil_append, Text.unlines_lines] at hin

/-- The comment of a line ends on the line. -/
theorem Comment.stop_ofLine_le (p : LinePlace) (line : List Char) (column : Nat) :
    (Comment.ofLine p line column).line = p.number ∧
      p.start ≤ (Comment.ofLine p line column).start ∧
      p.byteStart ≤ (Comment.ofLine p line column).byteStart ∧
      (Comment.ofLine p line column).stop ≤ p.start + line.length ∧
      (Comment.ofLine p line column).byteStop ≤ p.byteStart + size line := by
  obtain ⟨returns, hreturns⟩ := exists_dropReturns line
  have hlength := congrArg List.length hreturns
  have hsize := congrArg size hreturns
  have hparts : size ((Text.dropReturns line).take column) +
      size ((Text.dropReturns line).drop column) = size (Text.dropReturns line) := by
    rw [← size_append, List.take_append_drop]
  rw [List.length_append] at hlength
  rw [size_append] at hsize
  refine ⟨rfl, Nat.le_add_right _ _, Nat.le_add_right _ _, ?_, ?_⟩
  · simp only [Comment.ofLine]
    omega
  · simp only [Comment.ofLine]
    omega

theorem le_of_mem_commentsFrom {p : LinePlace} {pairs : List (List Char × MaskedLine)}
    {c : Comment} (h : c ∈ commentsFrom p pairs) :
    p.number ≤ c.line ∧ p.start ≤ c.start ∧ p.byteStart ≤ c.byteStart := by
  induction pairs generalizing p with
  | nil => cases h
  | cons pair rest ih =>
    obtain ⟨line, masked⟩ := pair
    rw [commentsFrom] at h
    rcases List.mem_append.1 h with h | h
    · obtain ⟨column, -, rfl⟩ := Option.map_eq_some_iff.1 (Option.mem_toList.1 h)
      obtain ⟨hline, hstart, hbyteStart, -⟩ := Comment.stop_ofLine_le p line column
      exact ⟨Nat.le_of_eq hline.symm, hstart, hbyteStart⟩
    · obtain ⟨hline, hstart, hbyteStart⟩ := ih h
      simp only [LinePlace.next] at hline hstart hbyteStart
      exact ⟨by omega, by omega, by omega⟩

theorem pairwise_commentsFrom (p : LinePlace) (pairs : List (List Char × MaskedLine)) :
    (commentsFrom p pairs).Pairwise Comment.Before := by
  induction pairs generalizing p with
  | nil => exact .nil
  | cons pair rest ih =>
    obtain ⟨line, masked⟩ := pair
    rw [commentsFrom, List.pairwise_append]
    refine ⟨?_, ih _, fun a ha b hb => ?_⟩
    · cases masked.comment <;> simp
    · obtain ⟨column, -, rfl⟩ := Option.map_eq_some_iff.1 (Option.mem_toList.1 ha)
      obtain ⟨hline, -, -, hstop, hbyteStop⟩ := Comment.stop_ofLine_le p line column
      obtain ⟨hline', hstart, hbyteStart⟩ := le_of_mem_commentsFrom hb
      simp only [LinePlace.next] at hline' hstart hbyteStart
      exact ⟨by omega, by omega, by omega⟩

/-- The comments of a file come one after another, each on a line of its own. -/
theorem Source.pairwise_comments (s : Source) : s.comments.Pairwise Comment.Before :=
  pairwise_commentsFrom _ _

end TypeNotes.Ruby
