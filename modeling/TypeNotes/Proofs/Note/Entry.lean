import TypeNotes.Note.Entry
import TypeNotes.Proofs.Ruby.Comment

/-!
# From the text of an entry to the file

An entry is gathered from comments of a block, in their order, and each of its segments is the rest
of a comment's body (`Entry.From`).

**Places.** A place in a text is told by what stands before it and what stands after it. A place in
the text of an entry is a place in one of its segments (`Segment.exists_segment`), which is a place
in the file (`Segment.exists_place`). Together they tell where the place comes to lie, up to the end
of its line and beyond (`Entry.Lands`).
-/

namespace TypeNotes

open Ruby Utf8

/-! ### Where the segments come from -/

/-- The comments of a block made by `CommentBlock.group` are among those that were grouped, in their
order. -/
theorem CommentBlock.sublist_of_mem_group {l : List Comment} {b : CommentBlock}
    (h : b ∈ CommentBlock.group l) : b.comments.Sublist l := by
  have hsub := List.sublist_flatten_of_mem (List.mem_map_of_mem (f := CommentBlock.comments) h)
  rwa [← List.flatMap_def, CommentBlock.flatMap_comments_group] at hsub

/-- The entry is gathered from these comments. -/
structure Entry.From (e : Entry) (cs : List Comment) : Prop where
  sublist : e.comments.Sublist cs
  ofBody : ∀ seg ∈ e.segments, ∃ skipped, seg = .ofBody seg.comment skipped

/-- An entry from some comments is one from more comments. -/
theorem Entry.From.mono {e : Entry} {cs cs' : List Comment} (h : e.From cs)
    (hsub : cs.Sublist cs') : e.From cs' := ⟨h.sublist.trans hsub, h.ofBody⟩

/-- `Marker.entry` makes an entry from the comment of the marker and those it owns. -/
theorem Marker.entry_from (m : Marker) (c : Comment) (owned : List Comment) :
    (m.entry c owned).From (c :: owned) where
  sublist := by
    have hcomments : (m.entry c owned).comments = c :: owned := by
      simp [Entry.comments, Entry.segments, Marker.entry, Segment.ofBody, Function.comp_def]
    exact hcomments ▸ .refl _
  ofBody seg hseg := by
    rcases List.mem_cons.1 hseg with rfl | hseg
    · exact ⟨m.length, rfl⟩
    · obtain ⟨c', -, rfl⟩ := List.mem_map.1 hseg
      exact ⟨0, rfl⟩

/-- An entry of one comment is made from it. -/
theorem Entry.from_single (kind : EntryKind) (c : Comment) (skipped : Nat) :
    (Entry.mk kind (.ofBody c skipped) []).From [c] where
  sublist := .refl _
  ofBody seg hseg := by
    rw [Entry.segments, List.mem_singleton] at hseg
    exact ⟨skipped, by rw [hseg]; rfl⟩

/-- `Entry.gather` makes entries from the comments it is given. -/
theorem Entry.from_of_mem_gather {cs : List Comment} {e : Entry} (h : e ∈ Entry.gather cs) :
    e.From cs := by
  fun_induction Entry.gather cs with
  | case1 => cases h
  | case2 c rest m hm ih =>
    -- A marker owns comments after it, which are left out of what is gathered then.
    rcases List.mem_cons.1 h with rfl | h
    · exact (m.entry_from c _).mono ((List.takeWhile_sublist _).cons_cons c)
    · exact (ih h).mono ((List.dropWhile_sublist _).cons c)
  | case3 c rest hm hcolon ih =>
    rcases List.mem_cons.1 h with rfl | h
    · exact (Entry.from_single .assertion c 1).mono ((List.nil_sublist rest).cons_cons c)
    · exact (ih h).mono (List.sublist_cons_self c rest)
  | case4 c rest hm hcolon ih => exact (ih h).mono (List.sublist_cons_self c rest)

/-- `CommentBlock.entries` are gathered from the comments of the block. -/
theorem CommentBlock.from_of_mem_entries {b : CommentBlock} {e : Entry} (h : e ∈ b.entries) :
    e.From b.comments := by
  unfold CommentBlock.entries at h
  split at h
  · rw [List.mem_singleton] at h
    rw [h]
    exact (Entry.from_single .application b.first 0).mono ((List.nil_sublist b.more).cons_cons b.first)
  · exact Entry.from_of_mem_gather h

/-! ### Places in segments -/

/-- A place in a segment is a place in the file: after what stands before it there, in the same
comment behind the hash sign, and as far from the end of the comment. -/
theorem Segment.exists_place {text : List Char} {c : Comment} (hc : c.In text) {skipped : Nat}
    {u v : List Char} (h : (Segment.ofBody c skipped).text = u ++ v) :
    ∃ before after, text = before ++ (v ++ after) ∧
      (Segment.ofBody c skipped).byteStart + size u = size before ∧
      c.start < before.length ∧ before.length + v.length = c.stop := by
  obtain ⟨before, body, after, rfl, htext, -, hstart, hstop, hbyteStart⟩ := hc
  have hbody := Comment.body_eq htext
  simp only [Segment.ofBody, hbody] at h ⊢
  -- Before the place stand the hash sign, what is skipped of the comment, and what is not.
  have hparts : body = body.take skipped ++ (u ++ v) := by rw [← h, List.take_append_drop]
  have hsize : '#'.utf8Size = 1 := rfl
  have hlength := congrArg List.length hparts
  simp only [List.length_append] at hlength
  refine ⟨before ++ ('#' :: body.take skipped ++ u), after, ?_, ?_, ?_, ?_⟩
  · conv => lhs; rw [hparts]
    simp
  · simp only [hbyteStart, size_append, size_cons, hsize]
    omega
  · simp only [hstart, List.length_append, List.length_cons]
    omega
  · simp only [hstop, List.length_append, List.length_cons]
    omega

/-- A segment of a comment is on one line. -/
theorem Segment.not_mem_text {text : List Char} {c : Comment} (hc : c.In text) (skipped : Nat) :
    '\n' ∉ (Segment.ofBody c skipped).text := by
  obtain ⟨_, body, _, -, htext, hbody, -⟩ := hc
  have hbody' := Comment.body_eq htext
  intro hmem
  rw [Segment.ofBody, hbody'] at hmem
  exact hbody (List.mem_of_mem_drop hmem)

/-! ### First lines -/

/-- The text up to its first line end. -/
def Text.firstLine (s : List Char) : List Char := s.takeWhile (· != '\n')

/-- In front of more text, a text without line end belongs to `Text.firstLine`. -/
theorem Text.firstLine_append {line : List Char} (h : '\n' ∉ line) (more : List Char) :
    Text.firstLine (line ++ more) = line ++ Text.firstLine more := by
  refine List.takeWhile_append_of_pos fun c hc => ?_
  exact bne_iff_ne.2 fun hn => h (hn ▸ hc)

/-- `Text.firstLine` ends at the first line end. -/
theorem Text.firstLine_append_newline {line : List Char} (h : '\n' ∉ line) (more : List Char) :
    Text.firstLine (line ++ '\n' :: more) = line := by
  rw [Text.firstLine_append h, Text.firstLine, List.takeWhile_cons_of_neg (by simp),
    List.append_nil]

/-- A text without line end is its own `Text.firstLine`. -/
theorem Text.firstLine_of_not_mem {line : List Char} (h : '\n' ∉ line) :
    Text.firstLine line = line := by
  have hline := Text.firstLine_append h []
  rwa [List.append_nil, Text.firstLine, Text.firstLine, List.takeWhile_nil,
    List.append_nil] at hline

/-- What follows a line end is not in `Text.firstLine`. -/
theorem Text.firstLine_append_of_mem {s : List Char} (h : '\n' ∈ s) (more : List Char) :
    Text.firstLine (s ++ more) = Text.firstLine s := by
  obtain ⟨line, rest, rfl, hline⟩ := List.eq_append_cons_of_mem h
  rw [List.append_assoc, List.cons_append, Text.firstLine_append_newline hline,
    Text.firstLine_append_newline hline]

/-- A character that is no line end belongs to the first line. -/
theorem Text.firstLine_cons {c : Char} (h : c ≠ '\n') (s : List Char) :
    Text.firstLine (c :: s) = c :: Text.firstLine s :=
  List.takeWhile_cons_of_pos (by simpa using h)

/-- The first line of a start of the text is a start of its first line. -/
theorem Text.exists_firstLine_append (s more : List Char) :
    ∃ rest, Text.firstLine (s ++ more) = Text.firstLine s ++ rest := by
  by_cases hmem : '\n' ∈ s
  · exact ⟨[], by rw [Text.firstLine_append_of_mem hmem, List.append_nil]⟩
  · exact ⟨_, by rw [Text.firstLine_append hmem, Text.firstLine_of_not_mem hmem]⟩

/-! ### Places in segments that follow each other -/

/-- The texts of segments are joined with line ends. -/
theorem Segment.unlines_cons_cons (seg next : Segment) (more : List Segment) :
    Text.unlines ((seg :: next :: more).map (·.text)) =
      seg.text ++ '\n' :: Text.unlines ((next :: more).map (·.text)) := rfl

/-- A place in the text of segments lies in one of them, and offsets after it can be counted from
the start of that one. -/
theorem Segment.exists_segment (seg : Segment) (more : List Segment) {before rest : List Char}
    (h : Text.unlines ((seg :: more).map (·.text)) = before ++ rest) :
    ∃ pre sg post u v, seg :: more = pre ++ sg :: post ∧ sg.text = u ++ v ∧
      Text.unlines ((sg :: post).map (·.text)) = u ++ rest ∧
      ∀ k, seg.fileOffset more (size before + k) = sg.fileOffset post (size u + k) := by
  induction more generalizing seg before with
  | nil => exact ⟨[], seg, [], before, rest, rfl, h, h, fun _ => rfl⟩
  | cons next more ih =>
    have h' := h
    rw [Segment.unlines_cons_cons] at h'
    rcases List.append_eq_append_iff.1 h' with ⟨a, rfl, ha⟩ | ⟨v, hv, -⟩
    · cases a with
      | nil =>
        rw [List.append_nil] at h ⊢
        exact ⟨[], seg, next :: more, seg.text, [], rfl, by simp, h, fun _ => rfl⟩
      | cons c before =>
        -- The place lies behind the line end after the first segment.
        obtain ⟨rfl, hnext⟩ := List.cons.inj ha
        obtain ⟨pre, sg, post, u, v, hsegments, htext, hrest, hoffset⟩ := ih next hnext
        have hsize : '\n'.utf8Size = 1 := rfl
        refine ⟨seg :: pre, sg, post, u, v, by rw [hsegments]; rfl, htext, hrest, fun k => ?_⟩
        rw [Segment.fileOffset, size_append, size_cons, hsize, if_neg (by omega), ← hoffset k]
        congr 1
        omega
    · exact ⟨[], seg, next :: more, before, v, rfl, hv, h, fun _ => rfl⟩

/-- Up to the end of the first segment, `Segment.fileOffset` counts in its comment. -/
theorem Segment.fileOffset_of_le {seg : Segment} {offset : Nat} (h : offset ≤ size seg.text)
    (more : List Segment) : seg.fileOffset more offset = seg.byteStart + offset := by
  cases more with
  | nil => rw [Segment.fileOffset, Nat.min_eq_left h]
  | cons next more => rw [Segment.fileOffset, if_pos h]

/-- After a place in a segment, its line goes on to the end of the segment. -/
theorem Segment.eq_firstLine {seg : Segment} {more : List Segment} {u v rest : List Char}
    (hline : '\n' ∉ seg.text) (htext : seg.text = u ++ v)
    (h : Text.unlines ((seg :: more).map (·.text)) = u ++ rest) : v = Text.firstLine rest := by
  have hv : '\n' ∉ v := fun hmem => hline (htext ▸ List.mem_append_right u hmem)
  cases more with
  | nil =>
    rw [List.map_singleton, Text.unlines, htext] at h
    rw [← List.append_cancel_left h, Text.firstLine_of_not_mem hv]
  | cons next more =>
    rw [Segment.unlines_cons_cons, htext, List.append_assoc] at h
    rw [← List.append_cancel_left h, Text.firstLine_append_newline hv]

/-! ### Places in entries -/

/-- Where a place in the text of an entry comes to lie in the file: in a comment of the entry, behind
its hash sign, with the same characters after it up to the end of the line, where the comment ends.
Places on later lines lie behind the comment. -/
structure Entry.Lands (e : Entry) (file before rest : List Char) (c : Comment) (pre : List Char) :
    Prop where
  mem : c ∈ e.comments
  fileOffset : ∀ k ≤ size (Text.firstLine rest), e.fileOffset (size before + k) = size pre + k
  line : ∃ post, file = pre ++ (Text.firstLine rest ++ post)
  start : c.start < pre.length
  stop : pre.length + (Text.firstLine rest).length = c.stop
  beyond : ∀ body after, rest = body ++ after → '\n' ∈ body →
    ∃ pre' post', file = pre' ++ post' ∧ e.fileOffset (size before + size body) = size pre' ∧
      c.stop < pre'.length
  last : rest = [] → c ∈ e.comments.getLast?

namespace Entry.From

variable {s : Source} {e : Entry} (he : e.From s.comments)

include he

/-- The comments of an entry stand in the file. -/
theorem in_of_mem_segments {seg : Segment} (hseg : seg ∈ e.segments) : seg.comment.In s.text :=
  Source.in_of_mem_comments (he.sublist.subset (List.mem_map_of_mem hseg))

/-- The segments of an entry are on one line each. -/
theorem not_mem_text {seg : Segment} (hseg : seg ∈ e.segments) : '\n' ∉ seg.text := by
  obtain ⟨skipped, hbody⟩ := he.ofBody seg hseg
  rw [hbody]
  exact Segment.not_mem_text (he.in_of_mem_segments hseg) skipped

/-- What stands in a segment stands in the file, inside of the comment of the segment. -/
theorem exists_place {seg : Segment} (hseg : seg ∈ e.segments) {u v : List Char}
    (htext : seg.text = u ++ v) :
    ∃ before after, s.text = before ++ (v ++ after) ∧ seg.byteStart + size u = size before ∧
      seg.comment.start < before.length ∧ before.length + v.length = seg.comment.stop := by
  obtain ⟨skipped, hbody⟩ := he.ofBody seg hseg
  rw [hbody] at htext ⊢
  exact Segment.exists_place (he.in_of_mem_segments hseg) htext

/-- The comments of an entry stand in order. -/
theorem pairwise_comments : e.comments.Pairwise Comment.Before :=
  s.pairwise_comments.sublist he.sublist

end Entry.From

/-- Every place in the text of an entry lies in the file that the entry is gathered from
(`Entry.Lands`). -/
theorem Entry.exists_lands {s : Source} {e : Entry} (he : e.From s.comments)
    {before rest : List Char} (h : e.text = before ++ rest) :
    ∃ c pre, e.Lands s.text before rest c pre := by
  obtain ⟨pre, sg, post, u, v, hsegments, htext, hrest, hoffset⟩ :=
    Segment.exists_segment e.first e.more h
  have hsegments' : e.segments = pre ++ sg :: post := hsegments
  have hsg : sg ∈ e.segments := by simp [hsegments']
  obtain rfl := Segment.eq_firstLine (he.not_mem_text hsg) htext hrest
  obtain ⟨filePre, filePost, hfile, hbyte, hstart, hstop⟩ := he.exists_place hsg htext
  refine ⟨sg.comment, filePre, List.mem_map_of_mem hsg, fun k hk => ?_, ⟨filePost, hfile⟩, hstart,
    hstop, fun body after hbody hmem => ?_, fun hnil => ?_⟩
  · rw [Entry.fileOffset, hoffset, Segment.fileOffset_of_le, ← Nat.add_assoc, hbyte]
    rw [htext, size_append]
    omega
  · rw [hbody, ← List.append_assoc] at hrest
    obtain ⟨pre', sg', post', u', v', hsegments₂, htext₂, hrest₂, hoffset₂⟩ :=
      Segment.exists_segment sg post hrest
    -- The segment of the later place is another one: no line end is in a segment.
    have hsg' : sg' ∈ post := by
      cases pre' with
      | nil =>
        obtain ⟨rfl, rfl⟩ := List.cons.inj hsegments₂
        rw [hrest] at hrest₂
        have hu := List.append_cancel_right hrest₂
        refine absurd ?_ (he.not_mem_text hsg)
        rw [htext₂, ← hu]
        exact List.mem_append_left _ (List.mem_append_right _ hmem)
      | cons seg pre' =>
        obtain ⟨rfl, rfl⟩ := List.cons.inj hsegments₂
        simp
    have hsg'' : sg' ∈ e.segments := by simp [hsegments', hsg']
    obtain ⟨filePre', filePost', hfile', hbyte', hstart', -⟩ := he.exists_place hsg'' htext₂
    have hbefore : sg.comment.Before sg'.comment := by
      have hpairwise := he.pairwise_comments
      rw [Entry.comments, hsegments', List.map_append, List.pairwise_append, List.map_cons,
        List.pairwise_cons] at hpairwise
      exact hpairwise.2.1.1 _ (List.mem_map_of_mem hsg')
    refine ⟨filePre', v' ++ filePost', hfile', ?_, Nat.lt_trans hbefore.stop hstart'⟩
    have hzero := hoffset₂ 0
    rw [Nat.add_zero, Nat.add_zero, size_append] at hzero
    rw [Entry.fileOffset, hoffset, hzero, Segment.fileOffset_of_le, hbyte']
    rw [htext₂, size_append]
    omega
  · -- At the end of the text no segment follows.
    subst hnil
    have hpost : post = [] := by
      cases post with
      | nil => rfl
      | cons next post =>
        rw [List.append_nil, Segment.unlines_cons_cons, htext] at hrest
        simpa using congrArg List.length hrest
    rw [Entry.comments, hsegments', hpost]
    simp

end TypeNotes
