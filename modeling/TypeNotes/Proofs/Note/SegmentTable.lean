import TypeNotes.Proofs.Checked.Note
import TypeNotes.Proofs.Ruby.Location
import TypeNotes.Proofs.Signature.Margin

/-!
# The bytes of an entry in the file

The text of an entry is put together from the ends of several comments, with line ends between them,
and each byte of it has a place in the file. Here the map from one to the other is told byte by byte:
on the byte with the number `k` line ends before it, it leads into the comment with the number `k`, to
the byte itself; on line ends and at the end of the text it leads to the end of that comment
(`Entry.TracedIn`). It follows the order of the bytes strictly.

**Tables.** Line by line, the text is gathered together with a table of its segments (`TracedText`),
in which places are looked up. This is the same map (`Entry.traced_eq`), and it is not changed by
blanking a start of the text, because a blank is put in for every byte.
-/

namespace TypeNotes

open Ruby Utf8

/-- The byte of a line end. -/
def newline : UInt8 := Signature.byte '\n'

/-! ### Line ends among bytes -/

/-- A text on one line has no byte of a line end. -/
theorem newline_not_mem_encode {text : List Char} (h : '\n' ∉ text) : newline ∉ encode text := by
  induction text with
  | nil => exact List.not_mem_nil
  | cons c text ih =>
    rw [List.mem_cons, not_or] at h
    obtain ⟨hc, htext⟩ := h
    rw [encode_cons, List.mem_append, not_or]
    refine ⟨fun hmem => ?_, ih htext⟩
    rcases Nat.lt_or_ge c.toNat 128 with hlt | hge
    · rw [encodeChar_of_lt hlt, List.mem_singleton] at hmem
      have hcode := congrArg UInt8.toNat hmem
      rw [newline, Signature.toNat_byte (by decide), Signature.toNat_byte hlt] at hcode
      exact hc (Char.toNat_inj.1 hcode)
    · have hbyte := le_of_mem_encodeChar hge hmem
      exact absurd hbyte (by decide)

theorem count_newline_encode {text : List Char} (h : '\n' ∉ text) :
    (encode text).count newline = 0 :=
  List.count_eq_zero.2 (newline_not_mem_encode h)

theorem encode_newline_cons (text : List Char) :
    encode ('\n' :: text) = newline :: encode text := rfl

/-! ### Segments in a row -/

namespace Segment

/-- The lines before a segment, with their ends. -/
def before (segs : List Segment) : List Char := segs.flatMap fun seg => seg.text ++ ['\n']

/-- The lines behind a segment, each behind a line end. -/
def behind (segs : List Segment) : List Char := segs.flatMap fun seg => '\n' :: seg.text

/-- The lines before a segment, with one more in front. -/
theorem size_before_cons (seg : Segment) (pre : List Segment) :
    size (before (seg :: pre)) = size seg.text + 1 + size (before pre) := by
  rw [before, List.flatMap_cons, size_append, size_append]
  rfl

/-- The lines before a segment, with one more behind. -/
theorem size_before_concat (pre : List Segment) (seg : Segment) :
    size (before (pre ++ [seg])) = size (before pre) + size seg.text + 1 := by
  rw [before, List.flatMap_append, List.flatMap_singleton, size_append, size_append,
    ← Nat.add_assoc]
  rfl

theorem unlines_cons_eq (seg : Segment) (more : List Segment) :
    Text.unlines ((seg :: more).map (·.text)) = seg.text ++ behind more := by
  induction more generalizing seg with
  | nil => exact (List.append_nil _).symm
  | cons next more ih => rw [unlines_cons_cons, ih next]; rfl

/-- The text of an entry, cut at one of its segments. -/
theorem unlines_append_eq (pre : List Segment) (seg : Segment) (post : List Segment) :
    Text.unlines ((pre ++ seg :: post).map (·.text)) = before pre ++ (seg.text ++ behind post) := by
  induction pre with
  | nil => exact unlines_cons_eq seg post
  | cons first pre ih =>
    obtain ⟨next, more, hmore⟩ : ∃ next more, pre ++ seg :: post = next :: more :=
      List.exists_cons_of_ne_nil (by simp)
    rw [List.cons_append, hmore, unlines_cons_cons, ← hmore, ih]
    simp [before]

/-- Behind the lines before a segment, `fileOffset` counts from its start. -/
theorem fileOffset_append {first : Segment} {more pre post : List Segment} {seg : Segment}
    (h : first :: more = pre ++ seg :: post) (k : Nat) :
    first.fileOffset more (size (before pre) + k) = seg.fileOffset post k := by
  induction pre generalizing first more with
  | nil =>
    obtain ⟨rfl, rfl⟩ := List.cons.inj h
    rw [before, List.flatMap_nil, size_nil, Nat.zero_add]
  | cons p pre ih =>
    obtain ⟨rfl, hmore⟩ := List.cons.inj h
    obtain ⟨next, rest, rfl⟩ : ∃ next rest, more = next :: rest :=
      List.exists_cons_of_ne_nil (by simp [hmore])
    rw [fileOffset, size_before_cons, if_neg (by omega), ← ih hmore]
    congr 1
    omega

/-- Every place in the text of segments is in one of them, or at its end. -/
theorem exists_of_le (first : Segment) (more : List Segment) {offset : Nat}
    (h : offset ≤ size (Text.unlines ((first :: more).map (·.text)))) :
    ∃ pre seg post k, first :: more = pre ++ seg :: post ∧ k ≤ size seg.text ∧
      offset = size (before pre) + k := by
  induction more generalizing first offset with
  | nil => exact ⟨[], first, [], offset, rfl, h, (Nat.zero_add _).symm⟩
  | cons next more ih =>
    by_cases hle : offset ≤ size first.text
    · exact ⟨[], first, next :: more, offset, rfl, hle, (Nat.zero_add _).symm⟩
    · have hsize : '\n'.utf8Size = 1 := rfl
      rw [unlines_cons_cons, size_append, size_cons, hsize] at h
      obtain ⟨pre, seg, post, k, hsegments, hk, hoffset⟩ :=
        ih next (show offset - (size first.text + 1) ≤ _ by omega)
      refine ⟨first :: pre, seg, post, k, by rw [hsegments]; rfl, hk, ?_⟩
      rw [size_before_cons]
      omega

/-- There is one line end for each segment before. -/
theorem count_newline_before {pre : List Segment} (h : ∀ seg ∈ pre, '\n' ∉ seg.text) :
    (encode (before pre)).count newline = pre.length := by
  induction pre with
  | nil => rfl
  | cons seg pre ih =>
    obtain ⟨hseg, hpre⟩ := List.forall_mem_cons.1 h
    have hrest := ih hpre
    rw [before] at hrest
    rw [before, List.flatMap_cons, List.append_assoc, encode_append, List.count_append,
      count_newline_encode hseg, List.singleton_append, encode_newline_cons, List.count_cons_self,
      hrest, Nat.zero_add]
    rfl

/-- A segment of a comment reaches to the end of the comment, and starts behind its hash sign. -/
theorem byteStart_ofBody {s : Source} {c : Comment} (hc : c ∈ s.comments) (skipped : Nat) :
    c.byteStart < (ofBody c skipped).byteStart ∧
      (ofBody c skipped).byteStart + size (ofBody c skipped).text = c.byteStop := by
  obtain ⟨-, -, -, -, -, hbyteStop, -⟩ := Source.exists_line_of_mem_comments hc
  have htext := (Source.in_of_mem_comments hc).text_eq
  have hparts : size (c.body.take skipped) + size (c.body.drop skipped) = size c.body := by
    rw [← size_append, List.take_append_drop]
  have hsize : '#'.utf8Size = 1 := rfl
  rw [htext, size_cons, hsize] at hbyteStop
  simp only [ofBody]
  omega

end Segment

/-! ### Traced entries -/

/-- How many line ends stand before a byte of a text. -/
def lineOfByte (text : List Char) (offset : Nat) : Nat :=
  ((encode text).take offset).count newline

/-- The bytes of an entry are those of the file at their places, in the comments that they come
from. -/
structure Entry.TracedIn (s : Source) (e : Entry) : Prop where
  /-- The line ends in the text are those between the comments. -/
  lines : (encode e.text).count newline + 1 = e.comments.length
  /-- Every other byte is found at its place in the file, inside the comment that it comes from. -/
  inside : ∀ offset b, (encode e.text)[offset]? = some b → b ≠ newline →
    ∃ c, e.comments[lineOfByte e.text offset]? = some c ∧
      (encode s.text)[e.fileOffset offset]? = some b ∧
      c.byteStart < e.fileOffset offset ∧ e.fileOffset offset < c.byteStop
  /-- A line end, or the end of the text, leads to the end of the comment before it. -/
  closing : ∀ offset, (encode e.text)[offset]? = some newline ∨ offset = size e.text →
    ∃ c, e.comments[lineOfByte e.text offset]? = some c ∧ e.fileOffset offset = c.byteStop
  strictMono : ∀ offset offset', offset < offset' → offset' ≤ size e.text →
    e.fileOffset offset < e.fileOffset offset'
  /-- Behind the end of the text there is nothing but the end of the last comment. -/
  beyond : ∀ offset, size e.text ≤ offset →
    ∃ c, e.comments.getLast? = some c ∧ e.fileOffset offset = c.byteStop

/-! ### Places in the segments of an entry -/

namespace Entry

section Place

variable {e : Entry} {pre post : List Segment} {seg : Segment}
  (h : e.segments = pre ++ seg :: post)

include h

theorem mem_segments_of_eq : seg ∈ e.segments := by simp [h]

/-- The comment of a segment has the number of the segment. -/
theorem getElem?_comments_of_eq : e.comments[pre.length]? = some seg.comment := by
  simp [comments, h]

/-- The bytes of an entry, cut at one of its segments. -/
theorem encode_text_of_eq : encode e.text =
    encode (Segment.before pre) ++ (encode seg.text ++ encode (Segment.behind post)) := by
  rw [text, h, Segment.unlines_append_eq, encode_append, encode_append]

theorem size_text_of_eq : size e.text =
    size (Segment.before pre) + (size seg.text + size (Segment.behind post)) := by
  rw [text, h, Segment.unlines_append_eq, size_append, size_append]

/-- For a byte of a segment, `fileOffset` is the byte of its comment. -/
theorem fileOffset_of_eq {k : Nat} (hk : k ≤ size seg.text) :
    e.fileOffset (size (Segment.before pre) + k) = seg.byteStart + k := by
  rw [fileOffset, Segment.fileOffset_append h, Segment.fileOffset_of_le hk]

/-- A byte of a segment is found in the segment. -/
theorem getElem?_encode_text_of_eq (k : Nat) :
    (encode e.text)[size (Segment.before pre) + k]? =
      (encode seg.text ++ encode (Segment.behind post))[k]? := by
  rw [encode_text_of_eq h, ← length_encode, List.getElem?_append_right (Nat.le_add_right _ _),
    Nat.add_sub_cancel_left]

/-- The bytes of a segment are bytes of the text. -/
theorem getElem?_encode_text_of_lt {k : Nat} (hk : k < size seg.text) :
    (encode e.text)[size (Segment.before pre) + k]? = (encode seg.text)[k]? := by
  rw [getElem?_encode_text_of_eq h, List.getElem?_append_left (by rwa [length_encode])]

/-- Behind a segment the text has a line end, or ends. -/
theorem getElem?_encode_text_end :
    (encode e.text)[size (Segment.before pre) + size seg.text]? = post.head?.map fun _ => newline := by
  rw [getElem?_encode_text_of_eq h, ← length_encode seg.text,
    List.getElem?_append_right (Nat.le_refl _), Nat.sub_self]
  cases post with
  | nil => rfl
  | cons next post => rfl

/-- Inside a segment and at its end, `lineOfByte` is the number of the segment. -/
theorem lineOfByte_of_eq (hlines : ∀ seg ∈ e.segments, '\n' ∉ seg.text) {k : Nat}
    (hk : k ≤ size seg.text) : lineOfByte e.text (size (Segment.before pre) + k) = pre.length := by
  have hpre : ∀ seg ∈ pre, '\n' ∉ seg.text := fun seg' hseg' => hlines seg' (by simp [h, hseg'])
  have hseg : newline ∉ (encode seg.text).take k := fun hmem =>
    newline_not_mem_encode (hlines seg (mem_segments_of_eq h)) (List.mem_of_mem_take hmem)
  rw [lineOfByte, encode_text_of_eq h, ← length_encode, List.take_length_add_append,
    List.take_append_of_le_length (by rwa [length_encode]), List.count_append,
    Segment.count_newline_before hpre, List.count_eq_zero.2 hseg, Nat.add_zero]

end Place

/-- Every place in the text of an entry is in a segment, or at its end. -/
theorem exists_place_of_le (e : Entry) {offset : Nat} (h : offset ≤ size e.text) :
    ∃ pre seg post k, e.segments = pre ++ seg :: post ∧ k ≤ size seg.text ∧
      offset = size (Segment.before pre) + k :=
  Segment.exists_of_le e.first e.more h

/-- An entry ends with a segment. -/
theorem exists_last_segment (e : Entry) : ∃ pre seg, e.segments = pre ++ [seg] ∧
    size e.text = size (Segment.before pre) + size seg.text := by
  obtain ⟨pre, seg, h⟩ := (List.eq_nil_or_concat' e.segments).resolve_left (List.cons_ne_nil _ _)
  exact ⟨pre, seg, h, size_text_of_eq h⟩

end Entry

/-! ### Tracing places to the file -/

namespace Entry.From

variable {s : Source} {e : Entry} (he : e.From s.comments)

include he

/-- A segment is the end of its comment, behind the hash sign at least. -/
theorem byteStart_of_mem_segments {seg : Segment} (hseg : seg ∈ e.segments) :
    seg.comment.byteStart < seg.byteStart ∧
      seg.byteStart + size seg.text = seg.comment.byteStop := by
  obtain ⟨skipped, hbody⟩ := he.ofBody seg hseg
  have hc := he.sublist.subset (List.mem_map_of_mem hseg)
  have hplace := Segment.byteStart_ofBody hc skipped
  rwa [← hbody] at hplace

/-- The bytes of a segment are those of the file at their places. -/
theorem getElem?_file {seg : Segment} (hseg : seg ∈ e.segments) {k : Nat} (hk : k < size seg.text) :
    (encode s.text)[seg.byteStart + k]? = (encode seg.text)[k]? := by
  obtain ⟨before, after, htext, hstart, -⟩ := he.exists_place hseg (List.nil_append seg.text).symm
  rw [size_nil, Nat.add_zero, ← length_encode before] at hstart
  rw [htext, encode_append, encode_append, hstart,
    List.getElem?_append_right (Nat.le_add_right _ _), Nat.add_sub_cancel_left,
    List.getElem?_append_left (by rwa [length_encode])]

/-- For a byte of a segment, `lineOfByte` is the line of this segment. -/
theorem lineOfByte_eq {pre post : List Segment} {seg : Segment}
    (h : e.segments = pre ++ seg :: post) {k : Nat} (hk : k ≤ size seg.text) :
    lineOfByte e.text (size (Segment.before pre) + k) = pre.length :=
  lineOfByte_of_eq h (fun _ hseg => he.not_mem_text hseg) hk

/-- The next place in the text leads further in the file with `fileOffset`. -/
theorem fileOffset_lt_succ {offset : Nat} (h : offset < size e.text) :
    e.fileOffset offset < e.fileOffset (offset + 1) := by
  obtain ⟨pre, seg, post, k, hsegments, hk, rfl⟩ := e.exists_place_of_le (Nat.le_of_lt h)
  rw [fileOffset_of_eq hsegments hk]
  rcases Nat.lt_or_eq_of_le hk with hlt | rfl
  · rw [Nat.add_assoc, fileOffset_of_eq hsegments hlt]
    exact Nat.lt_succ_self _
  · -- The place is the end of a comment, and the next one is in the comment below.
    cases post with
    | nil =>
      rw [size_text_of_eq hsegments] at h
      exact absurd h (Nat.lt_irrefl _)
    | cons next post =>
      have hnext : e.segments = (pre ++ [seg]) ++ next :: post := by
        rw [hsegments, List.append_assoc, List.singleton_append]
      have hoffset := fileOffset_of_eq hnext (Nat.zero_le _)
      rw [Nat.add_zero, Segment.size_before_concat] at hoffset
      have hbefore : seg.comment.Before next.comment := by
        have hpairwise := he.pairwise_comments
        rw [Entry.comments, hsegments, List.map_append, List.pairwise_append] at hpairwise
        exact (List.pairwise_cons.1 hpairwise.2.1).1 _ List.mem_cons_self
      have hbyteStop := hbefore.byteStop
      have hend := (he.byteStart_of_mem_segments (mem_segments_of_eq hsegments)).2
      have hstart := (he.byteStart_of_mem_segments (mem_segments_of_eq hnext)).1
      rw [hoffset]
      omega

/-- `fileOffset` keeps the order of the bytes of an entry. -/
theorem fileOffset_lt {offset offset' : Nat} (hlt : offset < offset')
    (hle : offset' ≤ size e.text) : e.fileOffset offset < e.fileOffset offset' := by
  induction offset' with
  | zero => exact absurd hlt (Nat.not_lt_zero _)
  | succ n ih =>
    have hsucc := he.fileOffset_lt_succ hle
    rcases Nat.lt_succ_iff_lt_or_eq.1 hlt with hlt | rfl
    · exact Nat.lt_trans (ih hlt (Nat.le_of_lt hle)) hsucc
    · exact hsucc

/-- **Bytes of an entry.** All places of an entry are traced to the file it is gathered from
(`Entry.TracedIn`). -/
theorem tracedIn : e.TracedIn s where
  lines := by
    obtain ⟨pre, seg, hsegments, hsize⟩ := e.exists_last_segment
    have hline := he.lineOfByte_eq hsegments (Nat.le_refl _)
    rw [lineOfByte, ← hsize, ← length_encode, List.take_length] at hline
    simp [hline, Entry.comments, hsegments]
  inside offset b hb hne := by
    have hlt := (List.getElem?_eq_some_iff.1 hb).1
    rw [length_encode] at hlt
    obtain ⟨pre, seg, post, k, hsegments, hk, rfl⟩ := e.exists_place_of_le (Nat.le_of_lt hlt)
    have hseg := mem_segments_of_eq hsegments
    obtain ⟨hstart, hstop⟩ := he.byteStart_of_mem_segments hseg
    rcases Nat.lt_or_eq_of_le hk with hk' | rfl
    · rw [getElem?_encode_text_of_lt hsegments hk'] at hb
      refine ⟨seg.comment, ?_, ?_, ?_, ?_⟩
      · rw [he.lineOfByte_eq hsegments hk, getElem?_comments_of_eq hsegments]
      · rw [fileOffset_of_eq hsegments hk, he.getElem?_file hseg hk', hb]
      · rw [fileOffset_of_eq hsegments hk]
        omega
      · rw [fileOffset_of_eq hsegments hk]
        omega
    · rw [getElem?_encode_text_end hsegments] at hb
      obtain ⟨next, -, rfl⟩ := Option.map_eq_some_iff.1 hb
      exact absurd rfl hne
  closing offset hoffset := by
    have hle : offset ≤ size e.text := by
      rcases hoffset with hb | rfl
      · have hlt := (List.getElem?_eq_some_iff.1 hb).1
        rw [length_encode] at hlt
        exact Nat.le_of_lt hlt
      · exact Nat.le_refl _
    obtain ⟨pre, seg, post, k, hsegments, hk, rfl⟩ := e.exists_place_of_le hle
    have hseg := mem_segments_of_eq hsegments
    have hend : k = size seg.text := by
      rcases hoffset with hb | hsize
      · refine Nat.le_antisymm hk (Nat.le_of_not_lt fun hlt => ?_)
        rw [getElem?_encode_text_of_lt hsegments hlt] at hb
        exact newline_not_mem_encode (he.not_mem_text hseg) (List.mem_of_getElem? hb)
      · rw [size_text_of_eq hsegments] at hsize
        omega
    refine ⟨seg.comment, ?_, ?_⟩
    · rw [he.lineOfByte_eq hsegments hk, getElem?_comments_of_eq hsegments]
    · rw [fileOffset_of_eq hsegments hk, hend]
      exact (he.byteStart_of_mem_segments hseg).2
  strictMono _ _ := he.fileOffset_lt
  beyond offset hle := by
    obtain ⟨pre, seg, hsegments, hsize⟩ := e.exists_last_segment
    obtain ⟨extra, rfl⟩ : ∃ extra, offset = size (Segment.before pre) + (size seg.text + extra) :=
      ⟨offset - size e.text, by omega⟩
    refine ⟨seg.comment, by simp [Entry.comments, hsegments], ?_⟩
    rw [Entry.fileOffset, Segment.fileOffset_append hsegments, Segment.fileOffset,
      Nat.min_eq_right (Nat.le_add_right _ _)]
    exact (he.byteStart_of_mem_segments (mem_segments_of_eq hsegments)).2

end Entry.From

/-! ### Tables of segments -/

/-- A text gathered line by line, with the comments it is from and a table of its segments. -/
structure TracedText where
  comments : List Comment
  text : List Char
  rows : List Checked.Row

namespace TracedText

/-- The text of one segment. -/
def ofSegment (seg : Segment) : TracedText :=
  ⟨[seg.comment], seg.text, [⟨0, size seg.text, seg.byteStart⟩]⟩

/-- One more line, behind a line end. -/
def extend (u : TracedText) (seg : Segment) : TracedText where
  comments := u.comments ++ [seg.comment]
  text := u.text ++ '\n' :: seg.text
  rows := u.rows ++ [⟨size u.text + 1, size seg.text, seg.byteStart⟩]

/-- The text with its first characters blanked out, byte by byte. -/
def masked (u : TracedText) (count : Nat) : TracedText :=
  { u with text := Text.blanks (size (u.text.take count)) ++ u.text.drop count }

/-- The byte of the file for a byte of the text, looked up in the table. -/
def fileOffset (u : TracedText) (offset : Nat) : Checked Nat := Checked.lookUp u.rows offset

/-- A text with the same bytes behind a place and blanks in front of it, which leads to the same
places in the file. -/
structure BlankedTo (m u : TracedText) (place : Nat) : Prop where
  length : (encode m.text).length = (encode u.text).length
  blank : (encode m.text).take place = List.replicate place (Signature.byte ' ')
  kept : (encode m.text).drop place = (encode u.text).drop place
  comments : m.comments = u.comments
  fileOffset : ∀ offset, m.fileOffset offset = u.fileOffset offset

/-- `TracedText.masked` keeps the bytes of a text, blanks out its start, and leads to the same
places. -/
theorem blankedTo_masked (u : TracedText) (count : Nat) :
    (u.masked count).BlankedTo u (size (u.text.take count)) := by
  have hmasked : encode (u.masked count).text =
      List.replicate (size (u.text.take count)) (Signature.byte ' ') ++
        encode (u.text.drop count) := by
    rw [masked, encode_append, Text.blanks, Signature.encode_replicate (by decide)]
  have htext : encode u.text = encode (u.text.take count) ++ encode (u.text.drop count) := by
    rw [← encode_append, List.take_append_drop]
  refine ⟨?_, ?_, ?_, rfl, fun _ => rfl⟩
  · rw [hmasked, htext, List.length_append, List.length_append, List.length_replicate,
      length_encode (u.text.take count)]
  · rw [hmasked, List.take_left' List.length_replicate]
  · rw [hmasked, htext, List.drop_left' List.length_replicate, List.drop_left' (length_encode _)]

end TracedText

/-- The text of an entry, gathered line by line. -/
def Entry.traced (e : Entry) : TracedText :=
  e.more.foldl TracedText.extend (TracedText.ofSegment e.first)

/-- Gathered line by line with `TracedText.extend`, the text has the rows of all segments. -/
theorem TracedText.foldl_extend (u : TracedText) (more : List Segment) :
    more.foldl TracedText.extend u =
      ⟨u.comments ++ more.map (·.comment), u.text ++ Segment.behind more,
        u.rows ++ Checked.rowsFrom (size u.text + 1) more⟩ := by
  induction more generalizing u with
  | nil => simp [Segment.behind, Checked.rowsFrom]
  | cons seg more ih =>
    have hsize : size (u.text ++ '\n' :: seg.text) = size u.text + 1 + size seg.text := by
      rw [size_append, size_cons, Nat.add_assoc]
      rfl
    rw [List.foldl_cons, ih]
    simp [TracedText.extend, Segment.behind, Checked.rowsFrom, hsize]

/-- `Entry.traced` has the text of the entry and the table of its segments. -/
theorem Entry.traced_eq (e : Entry) :
    e.traced = ⟨e.comments, e.text, Checked.rowsFrom 0 e.segments⟩ := by
  rw [traced, TracedText.foldl_extend, text, segments, Segment.unlines_cons_eq]
  simp [TracedText.ofSegment, comments, segments, Checked.rowsFrom]

/-- The gathered table leads to the places of the entry. -/
theorem Entry.fileOffset_traced (e : Entry) (offset : Nat) :
    e.traced.fileOffset offset = .ok (e.fileOffset offset) := by
  rw [traced_eq]
  exact Checked.fileOffset_eq e offset

/-- **Segment tables.** For every entry of a file, the table of its segments leads from each byte of
its text to the same byte of the file, in the comment that it comes from, and from line ends and the
end of the text to the end of that comment, strictly in order. A start of the text is blanked out
byte by byte, and the table leads to the same places. -/
theorem Entry.segmentTable_faithful {s : Source} {b : CommentBlock} (hb : b ∈ s.blocks) {e : Entry}
    (he : e ∈ b.entries) :
    e.TracedIn s ∧
    (e.traced.text = e.text ∧ e.traced.comments = e.comments ∧
      ∀ offset, e.traced.fileOffset offset = .ok (e.fileOffset offset)) ∧
    ∀ count, (e.traced.masked count).text = e.blankedTo count ∧
      (e.traced.masked count).BlankedTo e.traced (size (e.text.take count)) := by
  have hfrom : e.From s.comments :=
    (CommentBlock.from_of_mem_entries he).mono (CommentBlock.sublist_of_mem_group hb)
  have htext : e.traced.text = e.text := by rw [traced_eq]
  have hcomments : e.traced.comments = e.comments := by rw [traced_eq]
  refine ⟨hfrom.tracedIn, ⟨htext, hcomments, e.fileOffset_traced⟩, fun count => ⟨?_, ?_⟩⟩
  · rw [TracedText.masked, htext, blankedTo]
  · rw [← htext]
    exact e.traced.blankedTo_masked count

/-- A note of three lines, of which the one in the middle is empty, with letters of two bytes. -/
theorem Entry.segmentTable_faithful_empty_line :
    ∃ b ∈ (Source.ofText "# é\n# @rbs ü: Ä |\n#\n#   ß\nx".toList).blocks, ∃ e ∈ b.entries,
      (List.range 18).map e.fileOffset =
        [11, 12, 13, 14, 15, 16, 17, 18, 19, 20, 22, 24, 25, 26, 27, 28, 29, 29] ∧
      e.TracedIn (.ofText "# é\n# @rbs ü: Ä |\n#\n#   ß\nx".toList) ∧
      (e.traced.masked 5).text = "        |\n\n   ß".toList ∧
      (e.traced.masked 5).BlankedTo e.traced 7 := by
  have hentry : ∃ b ∈ (Source.ofText "# é\n# @rbs ü: Ä |\n#\n#   ß\nx".toList).blocks,
      ∃ e ∈ b.entries, (List.range 18).map e.fileOffset =
        [11, 12, 13, 14, 15, 16, 17, 18, 19, 20, 22, 24, 25, 26, 27, 28, 29, 29] ∧
      e.blankedTo 5 = "        |\n\n   ß".toList ∧ size (e.text.take 5) = 7 := by
    decide +kernel
  obtain ⟨b, hb, e, he, hplaces, hblanked, hsize⟩ := hentry
  obtain ⟨htraced, -, hmasked⟩ := Entry.segmentTable_faithful hb he
  obtain ⟨htext, hkept⟩ := hmasked 5
  rw [hsize] at hkept
  exact ⟨b, hb, e, he, hplaces, htraced, htext.trans hblanked, hkept⟩

end TypeNotes
