import Mathlib.Order.MinMax
import TypeNotes.Proofs.Note.Error
import TypeNotes.Proofs.Note.Heading

/-!
# Notes of a file whose places have moved

Text that is put before a file, or between its lines, moves everything in the file to other places.
A `Motion` says where places go: characters, bytes, and lines each in their own way. It moves
whatever has a place in a file, down to the errors in its notes.

**Carried files.** `m.Carries s s'` says that the comments, declarations and lines of one file are
those of another, moved. What is gathered and read from comments moves with them: their blocks
(`Motion.group_map`), their entries (`Motion.Carries.entries`) and their notes
(`Motion.Carries.notes`). The one thing needed is that comments are kept in one piece, so that
places inside of them move as their starts do.

**Places of notes.** From bytes to characters one may go before or after moving, at all places that
notes have: where a name or an error in a comment starts or ends (`Motion.Carries.characterOffset`).
-/

namespace TypeNotes

open Ruby Signature Utf8

/-! ### Motions -/

/-- Where the places of a file go: lines move down by a number, characters and bytes in their
order. -/
structure Motion where
  lines : Nat
  char : Nat → Nat
  byte : Nat → Nat
  strictMono_char : StrictMono char
  strictMono_byte : StrictMono byte

namespace Motion

variable (m : Motion)

/-- A range of characters, moved. -/
def span (r : Span) : Span := ⟨m.char r.start, m.char r.stop⟩

/-- A comment, moved. It keeps its text and its column. -/
def comment (c : Comment) : Comment :=
  { c with
    start := m.char c.start
    stop := m.char c.stop
    byteStart := m.byte c.byteStart
    byteStop := m.byte c.byteStop
    line := c.line + m.lines }

/-- A block of comments, moved. -/
def block (b : CommentBlock) : CommentBlock := ⟨m.comment b.first, b.more.map m.comment⟩

/-- A segment, moved. -/
def segment (seg : Segment) : Segment :=
  ⟨m.comment seg.comment, seg.text, m.byte seg.byteStart⟩

/-- An entry, moved. -/
def entry (e : Entry) : Entry := ⟨e.kind, m.segment e.first, e.more.map m.segment⟩

/-- An error in a file, moved. -/
def error (e : Error) : Error :=
  ⟨e.cause, m.byte e.offset, m.byte (e.offset + e.length) - m.byte e.offset⟩

/-- A name in a file with its type, moved. -/
def named (n : NamedType) : NamedType := { n with offset := m.byte n.offset }

/-- What a note says, moved. -/
def content : Content → Content
  | .parameter n => .parameter (m.named n)
  | .objectVariable n => .objectVariable (m.named n)
  | .block n => .block (m.named n)
  | .result n => .result (m.named n)
  | c => c

/-- A note, moved. -/
def note (n : Note) : Note :=
  ⟨m.comment n.first, n.more.map m.comment, n.signature, n.error.map m.error, m.content n.content⟩

/-- A declaration, moved. -/
def declaration (d : Declaration) : Declaration := d.moveDown m.lines

/-- A comment is kept in one piece: its characters and its bytes stay next to each other. -/
structure Keeps (c : Comment) : Prop where
  char : ∀ k ≤ c.text.length, m.char (c.start + k) = m.char c.start + k
  byte : ∀ k ≤ size c.text, m.byte (c.byteStart + k) = m.byte c.byteStart + k

/-- The second file is the first one, moved: its comments, its declarations, and its lines, with
the positions on them. -/
structure Carries (s s' : Source) : Prop where
  path : s'.path = s.path
  comments : s'.comments = s.comments.map m.comment
  keeps : ∀ c ∈ s.comments, m.Keeps c
  declarations : s'.declarations = s.declarations.map m.declaration
  line? : ∀ number, s'.line? (number + 1 + m.lines) = s.line? (number + 1)
  lineSpan? : ∀ number : Nat, s'.lineSpan? ((number + 1 + m.lines : Nat) : Int) =
    (s.lineSpan? ((number + 1 : Nat) : Int)).map m.span
  location : ∀ offset, s'.location (m.char offset) =
    ((s.location offset).1 + m.lines, (s.location offset).2)

/-! ### Blocks -/

theorem line_comment (c : Comment) : (m.comment c).line = c.line + m.lines := rfl

theorem comments_block (b : CommentBlock) : (m.block b).comments = b.comments.map m.comment := rfl

/-- The last comment of a block moves with it (`Motion.block`). -/
theorem last_block (b : CommentBlock) : (m.block b).last = m.comment b.last := by
  simp only [CommentBlock.last, block, List.getLastD_eq_getLast?, List.getLast?_map]
  cases b.more.getLast? with
  | none => rfl
  | some c => rfl

/-- The last line of a block moves down with it. -/
theorem lastLine_block (b : CommentBlock) : (m.block b).lastLine = b.lastLine + m.lines := by
  rw [CommentBlock.lastLine, last_block, line_comment, CommentBlock.lastLine]

/-- A block stays alone on its lines, or does not. -/
theorem isLeading_block (b : CommentBlock) : (m.block b).isLeading = b.isLeading := by
  rw [CommentBlock.isLeading, comments_block, List.all_map]
  rfl

/-- Two comments join (`joins`) if and only if they did before both moved. -/
theorem joins_comment (a b : Comment) :
    CommentBlock.joins (m.comment a) (m.comment b) = CommentBlock.joins a b := by
  have hline : (a.line + m.lines + 1 == b.line + m.lines) = (a.line + 1 == b.line) := by
    rw [Bool.eq_iff_iff, beq_iff_eq, beq_iff_eq]
    omega
  simp only [CommentBlock.joins, comment, hline]

/-- For comments that have moved, `group` gives the same blocks, moved. -/
theorem group_map (cs : List Comment) :
    CommentBlock.group (cs.map m.comment) = (CommentBlock.group cs).map m.block := by
  induction cs with
  | nil => rfl
  | cons c rest ih =>
    rw [List.map_cons, CommentBlock.group, CommentBlock.group, ih]
    cases CommentBlock.group rest with
    | nil => rfl
    | cons b more =>
      have hjoins : CommentBlock.joins (m.comment c) (m.block b).first =
          CommentBlock.joins c b.first := m.joins_comment c b.first
      simp only [List.map_cons, hjoins]
      split
      · rfl
      · rfl

/-! ### Entries -/

/-- `Motion.entry` keeps the text of an entry. -/
theorem text_entry (e : Entry) : (m.entry e).text = e.text := by
  simp only [Entry.text, Entry.segments, entry, List.map_cons, List.map_map]
  rfl

theorem comments_note (n : Note) : (m.note n).comments = n.comments.map m.comment := rfl

/-- The last comment of a note moves with it (`Motion.note`). -/
theorem last_note (n : Note) : (m.note n).last = m.comment n.last := by
  simp only [Note.last, note, List.getLastD_eq_getLast?, List.getLast?_map]
  cases n.more.getLast? with
  | none => rfl
  | some c => rfl

theorem contentOfName_named (n : NamedType) :
    Entry.contentOfName (m.named n) = m.content (Entry.contentOfName n) := by
  rw [Entry.contentOfName, Entry.contentOfName, apply_ite m.content]
  rfl

namespace Carries

variable {m : Motion} {s s' : Source} (h : m.Carries s s')

include h

/-- The blocks of the file are the same, moved. -/
theorem blocks : s'.blocks = s.blocks.map m.block := by
  rw [Source.blocks, Source.blocks, h.comments, group_map]

/-- A segment of a comment that has moved is the segment, moved. -/
theorem ofBody {c : Comment} (hc : c ∈ s.comments) (skipped : Nat) :
    Segment.ofBody (m.comment c) skipped = m.segment (.ofBody c skipped) := by
  obtain ⟨_, body, _, -, htext, -⟩ := Source.in_of_mem_comments hc
  have hbody := Comment.body_eq htext
  have hsize : size c.text = 1 + size body := by rw [htext, size_cons]; rfl
  have htake : size (body.take skipped) ≤ size body := by
    conv => rhs; rw [← List.take_append_drop skipped body, size_append]
    omega
  have hbyte := (h.keeps c hc).byte (1 + size (body.take skipped)) (by omega)
  have hbody' : (m.comment c).body = body := hbody
  simp only [Segment.ofBody, segment, hbody, hbody', Segment.mk.injEq, true_and]
  rw [Nat.add_assoc, Nat.add_assoc, hbyte]
  rfl

/-- `Entry.gather` may be done before or after the comments are moved. -/
theorem gather {cs : List Comment} (hcs : ∀ c ∈ cs, c ∈ s.comments) :
    Entry.gather (cs.map m.comment) = (Entry.gather cs).map m.entry := by
  fun_induction Entry.gather cs with
  | case1 => rw [List.map_nil, Entry.gather, List.map_nil]
  | case2 c rest marker hmarker ih =>
    obtain ⟨hc, hrest⟩ := List.forall_mem_cons.1 hcs
    have howns : marker.owns ∘ m.comment = marker.owns := rfl
    have hmarker' : Marker.ofBody? (m.comment c).body = some marker := hmarker
    have htake : ∀ d ∈ rest.takeWhile marker.owns, d ∈ s.comments := fun d hd =>
      hrest d ((List.takeWhile_sublist _).subset hd)
    have hdrop : ∀ d ∈ rest.dropWhile marker.owns, d ∈ s.comments := fun d hd =>
      hrest d ((List.dropWhile_sublist _).subset hd)
    have hentry : marker.entry (m.comment c) ((rest.takeWhile marker.owns).map m.comment) =
        m.entry (marker.entry c (rest.takeWhile marker.owns)) := by
      simp only [Marker.entry, entry, h.ofBody hc, List.map_map, Entry.mk.injEq, true_and]
      exact List.map_congr_left fun d hd => h.ofBody (htake d hd) 0
    rw [List.map_cons, Entry.gather, hmarker']
    simp only [List.takeWhile_map, List.dropWhile_map, howns, hentry, ih hdrop, List.map_cons]
  | case3 c rest hmarker hcolon ih =>
    obtain ⟨hc, hrest⟩ := List.forall_mem_cons.1 hcs
    have hmarker' : Marker.ofBody? (m.comment c).body = none := hmarker
    have hcolon' : isColonLine (m.comment c) = true := hcolon
    rw [List.map_cons, Entry.gather, hmarker']
    simp only [if_pos hcolon', ih hrest, List.map_cons, h.ofBody hc]
    rfl
  | case4 c rest hmarker hcolon ih =>
    obtain ⟨-, hrest⟩ := List.forall_mem_cons.1 hcs
    have hmarker' : Marker.ofBody? (m.comment c).body = none := hmarker
    have hcolon' : ¬ isColonLine (m.comment c) = true := hcolon
    rw [List.map_cons, Entry.gather, hmarker']
    simp only [if_neg hcolon', ih hrest]

/-- The entries of a block that has moved are its entries, moved. -/
theorem entries {b : CommentBlock} (hb : b ∈ s.blocks) :
    (m.block b).entries = b.entries.map m.entry := by
  have hcs : ∀ c ∈ b.comments, c ∈ s.comments :=
    fun c hc => (CommentBlock.sublist_of_mem_group hb).subset hc
  have happlication : (m.block b).isApplication = b.isApplication := by
    simp only [CommentBlock.isApplication, block, List.isEmpty_map]
    rfl
  unfold CommentBlock.entries
  rw [happlication]
  split
  · have hfirst := h.ofBody (hcs b.first List.mem_cons_self) 0
    have hentry : Segment.ofBody (m.block b).first 0 = m.segment (.ofBody b.first 0) := hfirst
    simp only [hentry, List.map_cons, List.map_nil, entry]
  · exact h.gather hcs

/-! ### Places in the text of an entry -/

/-- A segment is in one comment, so its bytes stay next to each other. -/
theorem byte_segment {seg : Segment} {c : Comment} (hc : c ∈ s.comments) {skipped : Nat}
    (hseg : seg = .ofBody c skipped) {k : Nat} (hk : k ≤ size seg.text) :
    m.byte (seg.byteStart + k) = m.byte seg.byteStart + k := by
  obtain ⟨_, body, _, -, htext, -⟩ := Source.in_of_mem_comments hc
  have hbody := Comment.body_eq htext
  have hsize : size c.text = 1 + (size (body.take skipped) + size (body.drop skipped)) := by
    rw [htext, size_cons, ← size_append, List.take_append_drop]
    rfl
  subst hseg
  simp only [Segment.ofBody, hbody] at hk ⊢
  have hstart := (h.keeps c hc).byte (1 + size (body.take skipped)) (by omega)
  have hplace := (h.keeps c hc).byte (1 + size (body.take skipped) + k) (by omega)
  rw [Nat.add_assoc c.byteStart, Nat.add_assoc c.byteStart, hplace, hstart, ← Nat.add_assoc]

/-- A place in the text of segments has the same byte in the file, moved. -/
theorem fileOffset_segment {seg : Segment} {more : List Segment}
    (hsegs : ∀ sg ∈ seg :: more, sg.comment ∈ s.comments ∧ ∃ skipped, sg = .ofBody sg.comment skipped)
    (offset : Nat) :
    (m.segment seg).fileOffset (more.map m.segment) offset = m.byte (seg.fileOffset more offset) := by
  induction more generalizing seg offset with
  | nil =>
    obtain ⟨hc, skipped, hseg⟩ := hsegs seg List.mem_cons_self
    rw [List.map_nil, Segment.fileOffset, Segment.fileOffset,
      h.byte_segment hc hseg (Nat.min_le_right _ _)]
    rfl
  | cons next more ih =>
    obtain ⟨⟨hc, skipped, hseg⟩, hmore⟩ := List.forall_mem_cons.1 hsegs
    rw [List.map_cons, Segment.fileOffset, Segment.fileOffset]
    have htext : (m.segment seg).text = seg.text := rfl
    rw [htext]
    split
    · rename_i hle
      rw [h.byte_segment hc hseg hle]
      rfl
    · exact ih hmore _

variable {e : Entry} (he : e.From s.comments)

include he

/-- Places in the text of an entry come to lie where the motion takes them. -/
theorem fileOffset (offset : Nat) : (m.entry e).fileOffset offset = m.byte (e.fileOffset offset) := by
  refine h.fileOffset_segment ?_ offset
  intro seg hseg
  exact ⟨he.sublist.subset (List.mem_map_of_mem hseg), he.ofBody seg hseg⟩

/-- A character of an entry has the same byte in the file, moved. -/
theorem fileOffsetOfCharacter (index : Nat) :
    (m.entry e).fileOffsetOfCharacter index = m.byte (e.fileOffsetOfCharacter index) := by
  rw [Entry.fileOffsetOfCharacter, text_entry, h.fileOffset he]
  rfl

/-- With `Entry.relocate`, an error is placed in the file before or after moving. -/
theorem relocate (err : Error) : (m.entry e).relocate err = m.error (e.relocate err) := by
  simp only [Entry.relocate, error, h.fileOffset he, Error.mk.injEq, true_and]
  rcases Nat.le_total (e.fileOffset err.offset) (e.fileOffset (err.offset + err.length)) with
    hle | hle
  · rw [Nat.add_sub_cancel' hle]
  · have hbyte := m.strictMono_byte.monotone hle
    rw [Nat.sub_eq_zero_of_le hle, Nat.add_zero, Nat.sub_self, Nat.sub_eq_zero_of_le hbyte]

/-! ### Reading -/

theorem note (signature : List Char) (err : Option Error) (c : Content) :
    (m.entry e).note signature err (m.content c) = m.note (e.note signature err c) := by
  have hmore : (m.entry e).more.map (·.comment) = (e.more.map (·.comment)).map m.comment := by
    simp only [entry, List.map_map]
    rfl
  have herror : err.map (m.entry e).relocate = (err.map e.relocate).map m.error := by
    rw [Option.map_map]
    exact congrArg (Option.map · err) (funext (h.relocate he))
  rw [Entry.note, hmore, herror]
  rfl

/-- A note that holds no place moves with its entry alone. -/
theorem note_of_eq {c : Content} (hc : m.content c = c) (signature : List Char)
    (err : Option Error) : (m.entry e).note signature err c = m.note (e.note signature err c) := by
  have hnote := h.note he signature err c
  rwa [hc] at hnote

/-- `Entry.namedNote` gives the same note about a name, moved with its name. -/
theorem namedNote (content : NamedType → Content)
    (hcontent : ∀ n, content (m.named n) = m.content (content n)) (head : Heading)
    (script : Script String) :
    (m.entry e).namedNote head script content = m.note (e.namedNote head script content) := by
  have hblanked : (m.entry e).blankedTo head.stop = e.blankedTo head.stop := by
    rw [Entry.blankedTo, text_entry]
    rfl
  simp only [Entry.namedNote, hblanked, text_entry, h.fileOffsetOfCharacter he]
  rw [← h.note he, ← hcontent]
  rfl

/-- `Entry.keywordNote` gives the same note, moved. -/
theorem keywordNote {α : Type} {content : Option α → Content}
    (hcontent : ∀ a, m.content (content a) = content a) (head : Heading) (script : Script α) :
    (m.entry e).keywordNote head script content = m.note (e.keywordNote head script content) := by
  have hblanked : (m.entry e).blankedTo head.stop = e.blankedTo head.stop := by
    rw [Entry.blankedTo, text_entry]
    rfl
  simp only [Entry.keywordNote, hblanked, text_entry]
  exact h.note_of_eq he (hcontent _) _ _

theorem readNamed? : (m.entry e).readNamed? = e.readNamed?.map m.note := by
  have hvariable := h.namedNote he .objectVariable fun _ => rfl
  have hblock := h.namedNote he .block fun _ => rfl
  have hparameter := h.namedNote he .parameter fun _ => rfl
  have hname := h.namedNote he Entry.contentOfName m.contentOfName_named
  simp only [Entry.readNamed?, text_entry, Option.orElse_eq_orElse, Option.orElse_eq_or,
    Option.map_or, Option.map_map, Function.comp_def, hvariable, hblock, hparameter, hname]

theorem readLone? : (m.entry e).readLone? = e.readLone?.map m.note := by
  have hnote := fun c (hc : m.content c = c) => h.note_of_eq he hc (Text.trim e.text) none
  simp only [Entry.readLone?, text_entry, hnote .override rfl, hnote .skip rfl]
  split
  · rfl
  split
  · rfl
  · rfl

theorem readKeyword? : (m.entry e).readKeyword? = e.readKeyword?.map m.note := by
  unfold Entry.readKeyword?
  simp only [text_entry]
  split
  all_goals first
    | exact congrArg some (h.keywordNote he (fun _ => rfl) _ _)
    | rfl

theorem readMethodType? : (m.entry e).readMethodType? = e.readMethodType?.map m.note := by
  unfold Entry.readMethodType?
  simp only [text_entry]
  split
  · refine congrArg some ?_
    split
    all_goals exact h.note_of_eq he rfl _ _
  · rfl

theorem readBare? : (m.entry e).readBare? = e.readBare?.map m.note := by
  simp only [Entry.readBare?, text_entry, Option.map_map, h.fileOffsetOfCharacter he]
  refine congrArg (Option.map · _) (funext fun head => ?_)
  rw [Function.comp_apply, ← h.note he, ← contentOfName_named]
  rfl

theorem readAssertion : (m.entry e).readAssertion = m.note e.readAssertion := by
  unfold Entry.readAssertion
  simp only [text_entry, h.relocate he]
  split
  · exact h.note_of_eq he rfl _ _
  · split
    · exact h.note_of_eq he rfl _ _
    · have hle : ∀ err err' : Error, (m.error err).offset ≤ (m.error err').offset ↔
          err.offset ≤ err'.offset := fun _ _ => m.strictMono_byte.le_iff_le
      simp only [hle]
      exact h.note_of_eq he rfl _ _

/-- `Entry.read?` reads an entry that has moved as the entry is read, with all places moved. -/
theorem read? : (m.entry e).read? = e.read?.map m.note := by
  unfold Entry.read?
  have hkind : (m.entry e).kind = e.kind := rfl
  simp only [hkind, text_entry]
  split
  · simp only [Entry.readMarked?, Option.orElse_eq_orElse, Option.orElse_eq_or, Option.map_or,
      h.readNamed? he, h.readLone? he, h.readKeyword? he, h.readMethodType? he, h.readBare? he]
  · exact congrArg some (h.note_of_eq he rfl _ _)
  · exact congrArg some (h.readAssertion he)
  · exact congrArg some (h.note_of_eq he rfl _ _)

omit he

/-- The notes of a block that has moved are its notes, moved. -/
theorem notes {b : CommentBlock} (hb : b ∈ s.blocks) : (m.block b).notes = b.notes.map m.note := by
  have hread : ∀ e ∈ b.entries, (m.entry e).read? = e.read?.map m.note := by
    intro e he
    exact h.read? ((CommentBlock.from_of_mem_entries he).mono (CommentBlock.sublist_of_mem_group hb))
  rw [CommentBlock.notes, h.entries hb, List.filterMap_map, CommentBlock.notes, List.map_filterMap]
  exact List.filterMap_congr hread

end Carries

end Motion

/-! ### Places in comments -/

/-- A byte of the file that belongs to a comment: a character of the comment starts there, or the
comment ends, or it is the byte after such a start. -/
def Ruby.Comment.Has (c : Comment) (offset : Nat) : Prop :=
  ∃ before after, c.text = before ++ after ∧ (offset = c.byteStart + size before ∨
    after ≠ [] ∧ offset = c.byteStart + size before + 1)

/-- `characterOffset` counts from the start of a comment to a place in it, and on from there. -/
theorem Ruby.Comment.In.characterOffset {text : List Char} {c : Comment} (hc : c.In text)
    {before after : List Char} (htext : c.text = before ++ after) (extra : Nat) :
    ∃ rest, Ruby.characterOffset text (c.byteStart + size before + extra) =
      c.start + before.length + Ruby.characterOffset (after ++ rest) extra := by
  obtain ⟨lead, body, rest, rfl, hbody, -, hstart, -, hbyteStart⟩ := hc
  refine ⟨rest, ?_⟩
  have hparts : lead ++ ('#' :: body ++ rest) = (lead ++ before) ++ (after ++ rest) := by
    rw [← hbody, htext]
    simp only [List.append_assoc]
  rw [hparts, hbyteStart, ← size_append, characterOffset_append, hstart, List.length_append]

/-- A place in a comment is as many bytes and as many characters behind its start, wherever a comment
with this text stands. -/
theorem Ruby.Comment.Has.exists_place {c : Comment} {offset : Nat} (h : c.Has offset) :
    ∃ bytes ≤ size c.text, ∃ count ≤ c.text.length, offset = c.byteStart + bytes ∧
      ∀ text (c' : Comment), c'.In text → c'.text = c.text →
        Ruby.characterOffset text (c'.byteStart + bytes) = c'.start + count := by
  obtain ⟨before, after, htext, rfl | ⟨hafter, rfl⟩⟩ := h
  · refine ⟨size before, ?_, before.length, ?_, rfl, fun text c' hc' htext' => ?_⟩
    · rw [htext, size_append]
      omega
    · rw [htext, List.length_append]
      omega
    · obtain ⟨rest, hoffset⟩ := hc'.characterOffset (htext'.trans htext) 0
      rwa [characterOffset_zero, Nat.add_zero, Nat.add_zero] at hoffset
  · obtain ⟨d, after, rfl⟩ := List.exists_cons_of_ne_nil hafter
    refine ⟨size before + 1, ?_, before.length + 1, ?_, Nat.add_assoc _ _ _,
      fun text c' hc' htext' => ?_⟩
    · have hpos := Char.utf8Size_pos d
      rw [htext, size_append, size_cons]
      omega
    · rw [htext, List.length_append, List.length_cons]
      omega
    · obtain ⟨rest, hoffset⟩ := hc'.characterOffset (htext'.trans htext) 1
      have hone := characterOffset_size_add_one [] (after ++ rest) d
      simp only [List.nil_append, size_nil, List.length_nil, Nat.zero_add] at hone
      rwa [List.cons_append, hone, Nat.add_assoc, Nat.add_assoc] at hoffset

/-- A place in the text of an entry is one in a comment, where the line goes on as in the text. -/
theorem Entry.From.exists_comment {s : Source} {e : Entry} (he : e.From s.comments)
    {before rest : List Char} (h : e.text = before ++ rest) :
    ∃ c ∈ s.comments, ∃ u, c.text = u ++ Text.firstLine rest ∧
      ∀ k ≤ size (Text.firstLine rest), e.fileOffset (size before + k) = c.byteStart + size u + k := by
  obtain ⟨pre, sg, post, u, v, hsegments, htext, hrest, hoffset⟩ :=
    Segment.exists_segment e.first e.more h
  have hsg : sg ∈ e.segments := by
    rw [Entry.segments, hsegments]
    simp
  obtain rfl := Segment.eq_firstLine (he.not_mem_text hsg) htext hrest
  obtain ⟨skipped, hbody⟩ := he.ofBody sg hsg
  have hc : sg.comment ∈ s.comments := he.sublist.subset (List.mem_map_of_mem hsg)
  obtain ⟨_, body, _, -, hcomment, -⟩ := Source.in_of_mem_comments hc
  have hdrop := Comment.body_eq hcomment
  have hsize : '#'.utf8Size = 1 := rfl
  refine ⟨sg.comment, hc, '#' :: body.take skipped ++ u, ?_, fun k hk => ?_⟩
  · have hsegment := congrArg Segment.text hbody
    rw [htext] at hsegment
    simp only [Segment.ofBody, hdrop] at hsegment
    rw [List.append_assoc, hsegment, List.cons_append, List.take_append_drop, hcomment]
  · have hstart := congrArg Segment.byteStart hbody
    simp only [Segment.ofBody, hdrop] at hstart
    rw [Entry.fileOffset, hoffset, Segment.fileOffset_of_le, hstart, size_append, size_cons, hsize]
    · omega
    · rw [htext, size_append]
      omega

/-- A place in the text of an entry, at which a character starts or the text ends, is one that its
comments have (`Comment.Has`). -/
theorem Entry.From.has {s : Source} {e : Entry} (he : e.From s.comments)
    {before rest : List Char} (h : e.text = before ++ rest) :
    ∃ c ∈ s.comments, c.Has (e.fileOffset (size before)) := by
  obtain ⟨c, hc, u, htext, hoffset⟩ := he.exists_comment h
  exact ⟨c, hc, u, _, htext, .inl (hoffset 0 (Nat.zero_le _))⟩

/-- Where an error of an entry starts and where it ends are places of comments (`Comment.Has`). -/
theorem Entry.From.has_error {s : Source} {e : Entry} (he : e.From s.comments) {err : Error}
    (h : err.Shown e.text) :
    (∃ c ∈ s.comments, c.Has (e.fileOffset err.offset)) ∧
      ∃ c ∈ s.comments, c.Has (e.fileOffset (err.offset + err.length)) := by
  cases h with
  | end_ expected =>
    have hend := he.has (List.append_nil e.text).symm
    exact ⟨hend, hend⟩
  | @token before after ch more expected htext hch =>
    refine ⟨he.has htext, ?_⟩
    rw [← size_append]
    exact he.has (htext.trans (List.append_assoc before _ after).symm)
  | @quotation before after ch htext hch =>
    refine ⟨he.has htext, ?_⟩
    rw [← size_append, ← htext]
    exact he.has (List.append_nil e.text).symm
  | @character before after ch htext hch =>
    -- The byte after the start of the character counts as the next character.
    refine ⟨he.has htext, ?_⟩
    obtain ⟨c, hc, u, hcomment, hoffset⟩ := he.exists_comment htext
    have hne : ch ≠ '\n' := by
      rintro rfl
      cases hch
    have hpos := Char.utf8Size_pos ch
    rw [Text.firstLine_cons hne] at hcomment hoffset
    have hplace := hoffset 1 (by rw [size_cons]; omega)
    exact ⟨c, hc, u, _, hcomment, .inr ⟨by simp, hplace⟩⟩

section Notes

variable {s : Source} {e : Entry} (he : e.From s.comments) {n : Note} (hread : e.read? = some n)

include he hread

/-- Where the error of a note starts and where it ends are places of comments. -/
theorem Entry.From.has_of_error {err : Error} (herr : n.error = some err) :
    (∃ c ∈ s.comments, c.Has err.offset) ∧ ∃ c ∈ s.comments, c.Has (err.offset + err.length) := by
  obtain ⟨shown, hshown, rfl⟩ := (Entry.reads_of_read? hread).error err herr
  obtain ⟨hstart, hstop⟩ := he.has_error hshown
  refine ⟨hstart, ?_⟩
  -- An error in the file ends where it ends in the text, or where it starts.
  simp only [Entry.relocate]
  rcases Nat.le_total (e.fileOffset shown.offset) (e.fileOffset (shown.offset + shown.length)) with
    hle | hle
  · rwa [Nat.add_sub_cancel' hle]
  · rwa [Nat.sub_eq_zero_of_le hle, Nat.add_zero]

/-- The name in a note stands in a comment, at the place that the note tells. -/
theorem Entry.From.exists_comment_of_named? {named : NamedType} (hname : n.named? = some named) :
    ∃ c ∈ s.comments, ∃ u v, c.text = u ++ (named.name ++ v) ∧
      named.offset = c.byteStart + size u := by
  obtain ⟨before, rest, htext, hline, hoffset⟩ := Entry.names_of_read? hread hname
  obtain ⟨c, hc, u, hcomment, hplace⟩ := he.exists_comment htext
  rw [Text.firstLine_append hline] at hcomment
  exact ⟨c, hc, u, _, hcomment, hoffset.trans (hplace 0 (Nat.zero_le _))⟩

end Notes

namespace Motion.Carries

variable {m : Motion} {s s' : Source} (h : m.Carries s s')

include h

/-- A comment of the file is, moved, one of the other file. -/
theorem mem_comments {c : Comment} (hc : c ∈ s.comments) : m.comment c ∈ s'.comments :=
  h.comments ▸ List.mem_map_of_mem hc

/-- From bytes to characters one may go before or after moving. -/
theorem characterOffset {c : Comment} (hc : c ∈ s.comments) {offset : Nat} (hoffset : c.Has offset) :
    s'.characterOffset (m.byte offset) = m.char (s.characterOffset offset) := by
  obtain ⟨bytes, hbytes, count, hcount, rfl, hplace⟩ := hoffset.exists_place
  have hkeeps := h.keeps c hc
  have hhere : s.characterOffset (c.byteStart + bytes) = c.start + count :=
    hplace _ c (Source.in_of_mem_comments hc) rfl
  have hthere : s'.characterOffset (m.byte c.byteStart + bytes) = m.char c.start + count :=
    hplace _ (m.comment c) (Source.in_of_mem_comments (h.mem_comments hc)) rfl
  rw [hhere, hkeeps.byte _ hbytes, hthere, hkeeps.char _ hcount]

end Motion.Carries

end TypeNotes
