import TypeNotes.Proofs.Checked.Lexer
import TypeNotes.Ruby.Source

/-!
# Loading a file

Everything that is known of a file is made when it is loaded: where its lines start, in characters
and in bytes, where characters of several bytes end, its comments and its declarations. Positions are
translated by looking for the last entry of a table that is not after them. Each look-up has to find
its place in the table.

**Tables.** The lines start at increasing positions of which the first is zero, so that there always
is a last one not after a position (`Loaded.location_ofSource`). The bytes that characters take in
excess of one add up in the other table (`Loaded.characterOffset_ofSource`).
-/

namespace TypeNotes

open Ruby Checked

/-! ### Tables -/

/-- How many entries of an increasing table are not after a value. -/
def bisect (table : List Nat) (value : Nat) : Nat := (table.takeWhile (· ≤ value)).length

/-- Where lines start, if the first starts here and each has this size and a line end. -/
def startsFrom (size : List Char → Nat) (start : Nat) : List (List Char) → List Nat
  | [] => []
  | line :: more => start :: startsFrom size (start + size line + 1) more

/-- The places in bytes at which characters of more than one byte end, each with the number of bytes
in excess up to there. -/
def excessFrom (byte excess : Nat) : List Char → List (Nat × Nat)
  | [] => []
  | c :: rest =>
    if 1 < c.utf8Size then
      (byte + c.utf8Size, excess + c.utf8Size - 1) ::
        excessFrom (byte + c.utf8Size) (excess + c.utf8Size - 1) rest
    else excessFrom (byte + c.utf8Size) excess rest

/-- A loaded file. -/
structure Loaded where
  source : Source
  lines : List (List Char)
  lineStarts : List Nat
  lineByteStarts : List Nat
  excessEnds : List Nat
  excess : List Nat
  comments : List Comment
  declarations : List Declaration

/-! ### Loading -/

/-- The line and column of a position, given where lines start. -/
def locateIn (starts : List Nat) (offset : Nat) : Checked (Nat × Nat) :=
  match bisect starts offset with
  | 0 => .error .index
  | index + 1 => do return (index + 1, offset - (← item starts index) + 1)

/-- The comment in a column of the line with an index. -/
def buildComment (lines : List (List Char)) (starts byteStarts : List Nat) (place : Nat × Nat) :
    Checked Comment := do
  let line ← item lines place.1
  let start ← item starts place.1
  let byteStart ← item byteStarts place.1
  return .ofLine ⟨place.1 + 1, start, byteStart⟩ line place.2

/-- The declaration of a definition. -/
def buildDeclaration (starts : List Nat) (d : Definition) : Checked Declaration := do
  let (line, _) ← locateIn starts d.start
  let endLine ← match d.close with
    | none => .ok line
    | some offset => (locateIn starts offset).map (·.1)
  return ⟨d.name, line, endLine, d.parameters⟩

/-- Loads a text. -/
def load (path : String) (text : List Char) : Checked Loaded := do
  let lines := Text.lines text
  let starts := startsFrom List.length 0 lines
  let byteStarts := startsFrom Utf8.size 0 lines
  let (masked, _) ← Lexer.maskLines lines
  let comments ← (commentPlaces masked).mapM (buildComment lines starts byteStarts)
  let declarations ← (definitions (Text.unlines (masked.map (·.text)))).mapM
    (buildDeclaration starts)
  return ⟨⟨path, text⟩, lines, starts, byteStarts, (excessFrom 0 0 text).map (·.1),
    (excessFrom 0 0 text).map (·.2), comments, declarations⟩

namespace Loaded

/-- The line and column of a position. -/
def location (x : Loaded) (offset : Nat) : Checked (Nat × Nat) := locateIn x.lineStarts offset

/-- The characters of the line with a number. -/
def lineSpan (x : Loaded) : Nat → Checked Span
  | 0 => .error .index
  | index + 1 => do
    let start ← item x.lineStarts index
    let line ← item x.lines index
    return ⟨start, start + (Text.dropReturns line).length⟩

/-- The line with a number, if there is one. -/
def line (x : Loaded) : Nat → Checked (Option (List Char))
  | 0 => .ok none
  | index + 1 =>
    if index < x.lines.length then do return some (Text.dropReturns (← item x.lines index))
    else .ok none

/-- The character position of a byte position. -/
def characterOffset (x : Loaded) (offset : Nat) : Checked Nat :=
  match bisect x.excessEnds offset with
  | 0 => .ok offset
  | index + 1 => do return offset - (← item x.excess index)

/-- A range of bytes as a range of characters. -/
def spanOfBytes (x : Loaded) (start stop : Nat) : Checked Span := do
  return ⟨← x.characterOffset start, ← x.characterOffset stop⟩

/-- What loading a file has to give. -/
def ofSource (s : Source) : Loaded :=
  ⟨s, s.lines, startsFrom List.length 0 s.lines, startsFrom Utf8.size 0 s.lines,
    (excessFrom 0 0 s.text).map (·.1), (excessFrom 0 0 s.text).map (·.2), s.comments,
    s.declarations⟩

end Loaded

/-! ### Lines -/

/-- `bisect` counts an entry at or before the value. -/
theorem bisect_cons_of_le {start value : Nat} (h : start ≤ value) (table : List Nat) :
    bisect (start :: table) value = bisect table value + 1 := by
  rw [bisect, List.takeWhile_cons_of_pos (by simpa using h)]
  rfl

/-- `bisect` counts neither an entry behind the value nor what follows. -/
theorem bisect_cons_of_lt {start value : Nat} (h : value < start) (table : List Nat) :
    bisect (start :: table) value = 0 := by
  rw [bisect, List.takeWhile_cons_of_neg (by simpa using h)]
  rfl

/-- `bisect` finds the entry of the line of a position. -/
theorem exists_bisect_startsFrom {start offset : Nat} (hle : start ≤ offset) (number : Nat)
    (line : List Char) (more : List (List Char)) :
    ∃ index found, bisect (startsFrom List.length start (line :: more)) offset = index + 1 ∧
      (startsFrom List.length start (line :: more))[index]? = some found ∧
      locateFrom number (offset - start) (line :: more) = (number + index, offset - found + 1) := by
  induction more generalizing start number line with
  | nil =>
    refine ⟨0, start, ?_, rfl, rfl⟩
    rw [startsFrom, bisect_cons_of_le hle]
    rfl
  | cons next more ih =>
    rw [startsFrom, bisect_cons_of_le hle, locateFrom]
    by_cases hline : offset - start ≤ line.length
    -- The position is on this line if the next one starts after it.
    · refine ⟨0, start, ?_, rfl, by rw [if_pos hline]; rfl⟩
      rw [startsFrom, bisect_cons_of_lt (by omega)]
    · have hnext : start + line.length + 1 ≤ offset := by omega
      obtain ⟨index, found, hindex, hfound, hlocate⟩ := ih hnext (number + 1) next
      refine ⟨index + 1, found, by rw [hindex], hfound, ?_⟩
      rw [if_neg hline, show offset - start - (line.length + 1) = offset - (start + line.length + 1) by
        omega, hlocate, show number + 1 + index = number + (index + 1) by omega]

/-- `locateIn` looks up places in the table of line starts without failing. -/
theorem locateIn_eq (s : Source) (offset : Nat) :
    locateIn (startsFrom List.length 0 s.lines) offset = .ok (locateFrom 1 offset s.lines) := by
  obtain ⟨line, more, hlines⟩ := List.exists_cons_of_ne_nil (Text.lines_ne_nil s.text)
  obtain ⟨index, found, hindex, hfound, hlocate⟩ :=
    exists_bisect_startsFrom (Nat.zero_le offset) 1 line more
  rw [Nat.sub_zero] at hlocate
  rw [Source.lines, hlines, locateIn, hindex]
  simp only [item_eq_ok hfound, hlocate, ok_bind, pure_eq]
  rw [Nat.add_comm]

/-- `startsFrom` has an entry for each line. -/
theorem getElem?_startsFrom (start : Nat) {lines : List (List Char)} {index : Nat}
    (h : index < lines.length) :
    (startsFrom List.length start lines)[index]? = some (start + lineStart lines index) := by
  induction lines generalizing start index with
  | nil => cases h
  | cons line more ih =>
    cases index with
    | zero => rfl
    | succ index =>
      rw [startsFrom, List.getElem?_cons_succ, ih _ (Nat.lt_of_succ_lt_succ h)]
      simp only [lineStart, List.take_succ_cons, List.foldr_cons]
      rw [Option.some.injEq]
      omega

/-- `lineSpan` of a line that exists can be looked up. -/
theorem Loaded.lineSpan_ofSource {s : Source} {number : Nat} {span : Span}
    (h : s.lineSpan? (number + 1 : Nat) = some span) :
    (Loaded.ofSource s).lineSpan (number + 1) = .ok span := by
  rw [Source.lineSpan?_succ] at h
  obtain ⟨line, hline, rfl⟩ := Option.map_eq_some_iff.1 h
  have hlt : number < s.lines.length := (List.getElem?_eq_some_iff.1 hline).1
  have hstart := getElem?_startsFrom 0 hlt
  rw [Nat.zero_add] at hstart
  rw [Loaded.lineSpan, Loaded.ofSource]
  simp only [item_eq_ok hstart, item_eq_ok hline, ok_bind, pure_eq]

/-- Lines are looked up without failing. -/
theorem Loaded.line_ofSource (s : Source) (number : Nat) :
    (Loaded.ofSource s).line number = .ok (s.line? number) := by
  cases number with
  | zero => rfl
  | succ index =>
    rw [Loaded.line, Source.line?, show (Loaded.ofSource s).lines = s.lines from rfl]
    by_cases hlt : index < s.lines.length
    · have hline : s.lines[index]? = some s.lines[index] := List.getElem?_eq_getElem hlt
      rw [if_pos hlt, item_eq_ok hline, hline]
      rfl
    · rw [if_neg hlt, List.getElem?_eq_none (Nat.le_of_not_lt hlt)]
      rfl

/-! ### Bytes and characters -/

/-- The bytes in excess up to a place, as the table has them. -/
def excessAt (excess : Nat) (table : List (Nat × Nat)) (offset : Nat) : Nat :=
  (((table.takeWhile (·.1 ≤ offset)).getLast?).map (·.2)).getD excess

/-- `excessAt` passes an entry that ends at or before the offset. -/
theorem excessAt_cons_of_le {stop offset : Nat} (h : stop ≤ offset) (excess excess' : Nat)
    (table : List (Nat × Nat)) :
    excessAt excess ((stop, excess') :: table) offset = excessAt excess' table offset := by
  rw [excessAt, List.takeWhile_cons_of_pos (by simpa using h), List.getLast?_cons, excessAt]
  cases (table.takeWhile (·.1 ≤ offset)).getLast? <;> rfl

/-- In front of all entries `excessAt` is what it was. -/
theorem excessAt_of_lt {offset : Nat} {table : List (Nat × Nat)} (excess : Nat)
    (h : ∀ entry ∈ table, offset < entry.1) : excessAt excess table offset = excess := by
  cases table with
  | nil => rfl
  | cons entry table =>
    have hlt := h entry List.mem_cons_self
    rw [excessAt, List.takeWhile_cons_of_neg (by simpa using hlt)]
    rfl

/-- The entries of `excessFrom` lie behind the byte it starts at. -/
theorem lt_of_mem_excessFrom {byte excess : Nat} {text : List Char} {entry : Nat × Nat}
    (h : entry ∈ excessFrom byte excess text) : byte < entry.1 := by
  induction text generalizing byte excess with
  | nil => cases h
  | cons c rest ih =>
    have hpos := Char.utf8Size_pos c
    rw [excessFrom] at h
    split at h
    · rcases List.mem_cons.1 h with rfl | h
      · exact Nat.lt_add_of_pos_right hpos
      · exact Nat.lt_of_le_of_lt (Nat.le_add_right _ _) (ih h)
    · exact Nat.lt_of_le_of_lt (Nat.le_add_right _ _) (ih h)

/-- Taking `excessAt` off a place in bytes gives the place in characters. -/
theorem sub_excessAt {byte excess offset : Nat} (hle : byte ≤ offset) (hexcess : excess ≤ byte)
    (text : List Char) :
    offset - excessAt excess (excessFrom byte excess text) offset =
      byte - excess + Ruby.characterOffset text (offset - byte) := by
  induction text generalizing byte excess with
  | nil =>
    rw [excessFrom, excessAt_of_lt excess (by simp), Ruby.characterOffset]
    omega
  | cons c rest ih =>
    have hpos := Char.utf8Size_pos c
    rw [Ruby.characterOffset]
    by_cases hsize : c.utf8Size ≤ offset - byte
    · -- The character ends before the place.
      rw [if_pos hsize, excessFrom]
      split
      · rw [excessAt_cons_of_le (by omega), ih (by omega) (by omega), Nat.sub_sub]
        omega
      · rw [ih (by omega) (by omega), Nat.sub_sub]
        omega
    · -- The place is inside the character or at its start.
      rw [if_neg hsize, excessAt_of_lt excess]
      · omega
      · intro entry hentry
        rw [excessFrom] at hentry
        split at hentry
        · rcases List.mem_cons.1 hentry with rfl | hentry
          · simp only
            omega
          · have := lt_of_mem_excessFrom hentry
            omega
        · have := lt_of_mem_excessFrom hentry
          omega

/-- Bytes are turned into characters without failing. -/
theorem Loaded.characterOffset_ofSource (s : Source) (offset : Nat) :
    (Loaded.ofSource s).characterOffset offset = .ok (s.characterOffset offset) := by
  have hexcess := sub_excessAt (Nat.zero_le offset) (Nat.le_refl 0) s.text
  have hbisect : bisect ((excessFrom 0 0 s.text).map (·.1)) offset =
      ((excessFrom 0 0 s.text).takeWhile (·.1 ≤ offset)).length := by
    rw [bisect, List.takeWhile_map, List.length_map]
    rfl
  rw [Nat.sub_zero, Nat.zero_add, Nat.sub_zero] at hexcess
  rw [Source.characterOffset, ← hexcess, Loaded.characterOffset, Loaded.ofSource]
  simp only [hbisect]
  split
  · rename_i hzero
    rw [excessAt, List.eq_nil_of_length_eq_zero hzero]
    rfl
  · rename_i index hindex
    -- The entry found is the last of those not after the place.
    have hlt : index < ((excessFrom 0 0 s.text).takeWhile (·.1 ≤ offset)).length := by omega
    obtain ⟨entry, hentry⟩ : ∃ entry,
        ((excessFrom 0 0 s.text).takeWhile (·.1 ≤ offset))[index]? = some entry :=
      ⟨_, List.getElem?_eq_getElem hlt⟩
    have hlast : ((excessFrom 0 0 s.text).takeWhile (·.1 ≤ offset)).getLast? = some entry := by
      rw [List.getLast?_eq_getElem?, hindex, Nat.succ_sub_one, hentry]
    have hitem : ((excessFrom 0 0 s.text).map (·.2))[index]? = some entry.2 := by
      have happend : ((excessFrom 0 0 s.text).takeWhile (·.1 ≤ offset) ++
          (excessFrom 0 0 s.text).dropWhile (·.1 ≤ offset))[index]? = _ :=
        List.getElem?_append_left hlt
      rw [List.takeWhile_append_dropWhile, hentry] at happend
      rw [List.getElem?_map, happend]
      rfl
    rw [item_eq_ok hitem, excessAt, hlast]
    rfl

/-- Spans of bytes are turned into spans of characters without failing. -/
theorem Loaded.spanOfBytes_ofSource (s : Source) (start stop : Nat) :
    (Loaded.ofSource s).spanOfBytes start stop = .ok (s.spanOfBytes start stop) := by
  rw [Loaded.spanOfBytes, Loaded.characterOffset_ofSource, Loaded.characterOffset_ofSource]
  rfl

/-- Places are located without failing. -/
theorem Loaded.location_ofSource (s : Source) (offset : Nat) :
    (Loaded.ofSource s).location offset = .ok (s.location offset) := locateIn_eq s offset

/-! ### Loading -/

/-- The item at an index is the first one that dropping leaves. -/
theorem getElem?_of_drop {α : Type} {l rest : List α} {a : α} {k : Nat} (h : l.drop k = a :: rest) :
    l[k]? = some a ∧ l.drop (k + 1) = rest := by
  refine ⟨?_, ?_⟩
  · have hzero := congrArg (·[0]?) h
    simpa [List.getElem?_drop] using hzero
  · rw [← List.drop_drop, h]
    rfl

/-- `buildComment` builds comments from the tables as they are built from their lines. -/
theorem mapM_buildComment {lines : List (List Char)} {starts byteStarts : List Nat}
    (ls : List (List Char)) (masked : List MaskedLine) (p : LinePlace) {k : Nat}
    (hnumber : p.number = k + 1) (hlines : lines.drop k = ls)
    (hstarts : starts.drop k = startsFrom List.length p.start ls)
    (hbyteStarts : byteStarts.drop k = startsFrom Utf8.size p.byteStart ls)
    (hlength : masked.length = ls.length) :
    ((masked.zipIdx k).filterMap fun (line, index) =>
        line.comment.map fun column => (index, column)).mapM
      (buildComment lines starts byteStarts) = .ok (commentsFrom p (ls.zip masked)) := by
  -- Line by line, the tables from here on are those of the remaining lines.
  induction ls generalizing masked p k with
  | nil =>
    rw [List.eq_nil_of_length_eq_zero hlength]
    rfl
  | cons line ls ih =>
    cases masked with
    | nil => cases hlength
    | cons first masked =>
      obtain ⟨hline, hlines'⟩ := getElem?_of_drop hlines
      obtain ⟨hstart, hstarts'⟩ := getElem?_of_drop hstarts
      obtain ⟨hbyteStart, hbyteStarts'⟩ := getElem?_of_drop hbyteStarts
      have hrest := ih masked (p.next line) (by rw [LinePlace.next, hnumber]) hlines' hstarts'
        hbyteStarts' (Nat.succ.inj hlength)
      rw [List.zipIdx_cons, List.zip_cons_cons, commentsFrom]
      cases hcomment : first.comment with
      | none =>
        rw [List.filterMap_cons_none (by simp only [hcomment, Option.map_none])]
        exact hrest
      | some column =>
        have hbuild : buildComment lines starts byteStarts (k, column) =
            .ok (.ofLine p line column) := by
          rw [buildComment, item_eq_ok hline, item_eq_ok hstart, item_eq_ok hbyteStart]
          simp only [ok_bind, pure_eq]
          rw [← hnumber]
        rw [List.filterMap_cons_some (b := (k, column)) (by simp only [hcomment, Option.map_some]),
          List.mapM_cons, hbuild, ok_bind, hrest]
        rfl

/-- `buildDeclaration` never fails. -/
theorem buildDeclaration_eq (s : Source) (d : Definition) :
    buildDeclaration (startsFrom List.length 0 s.lines) d =
      .ok ⟨d.name, (locateFrom 1 d.start s.lines).1,
        (d.close.map fun offset => (locateFrom 1 offset s.lines).1).getD
          (locateFrom 1 d.start s.lines).1, d.parameters⟩ := by
  rw [buildDeclaration, locateIn_eq, ok_bind]
  cases d.close with
  | none => rfl
  | some offset =>
    simp only [locateIn_eq]
    rfl

/-- `maskAll` gives as many lines as it is given. -/
theorem length_maskAll (p : Place) (lines : List (List Char)) :
    (p.maskAll lines).length = lines.length := by
  induction lines generalizing p with
  | nil => rfl
  | cons line lines ih => rw [Place.maskAll, List.length_cons, List.length_cons, ih]

/-- `load` never fails, and gives the comments and declarations of a text. -/
theorem load_eq (s : Source) : load s.path s.text = .ok (Loaded.ofSource s) := by
  obtain ⟨stack, hmask, -⟩ := Lexer.exists_maskLines s.lines
  have hcomments : (commentPlaces (Ruby.maskLines s.lines)).mapM (buildComment s.lines
      (startsFrom List.length 0 s.lines) (startsFrom Utf8.size 0 s.lines)) = .ok s.comments :=
    mapM_buildComment s.lines _ ⟨1, 0, 0⟩ rfl rfl rfl rfl (length_maskAll _ _)
  have hdeclarations := mapM_eq_ok fun d (_ : d ∈ definitions s.maskedText) =>
    buildDeclaration_eq s d
  rw [load, show Text.lines s.text = s.lines from rfl, hmask]
  simp only [ok_bind, hcomments]
  rw [show Text.unlines ((Ruby.maskLines s.lines).map (·.text)) = s.maskedText from rfl,
    hdeclarations]
  rfl

end TypeNotes
