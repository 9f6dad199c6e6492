import TypeNotes.Proofs.Ruby.CommentText

/-!
# Bodies of heredocs

The heredocs that a line of code opens form a queue. Their bodies follow the line one after another,
each up to the first line that ends its heredoc (`Bodies`), whatever else these lines look like: a
comment, the start of a literal or of an embedded document, the end marker, or the terminator of
another heredoc.

**Opaque bodies.** In the bodies everything is blanked out, and below them the scanner goes on
inside the frames in which the line ended (`Bodies.maskAll`). So bodies of as many lines can stand
for one another (`heredocs_opaque`).
-/

namespace TypeNotes.Ruby

/-! ### Bodies -/

/-- The bodies of heredocs in their order: no line of a body ends its heredoc, and one that does
follows the body. -/
inductive Bodies : List Heredoc → List (List Char) → Prop
  | nil : Bodies [] []
  | cons {h : Heredoc} {next : List Heredoc} {more : List (List Char)}
      (body : List (List Char)) (terminator : List Char)
      (hbody : ∀ line ∈ body, h.endsAt line = false) (hend : h.endsAt terminator = true)
      (hmore : Bodies next more) : Bodies (h :: next) (body ++ terminator :: more)

theorem Place.mask_heredoc (h : Heredoc) (next : List Heredoc) (frames : List Frame)
    (line : List Char) : (Place.mk (.heredoc h next) frames).mask line =
      (.hidden line, ⟨if h.endsAt line then .ofHeredocs next else .heredoc h next, frames⟩) := by
  unfold Place.mask
  simp only
  split <;> rfl

/-- `Place.maskAll` shows nothing of a body, and the scanner stays in it. -/
theorem Place.maskAll_body {h : Heredoc} {body : List (List Char)}
    (hbody : ∀ line ∈ body, h.endsAt line = false) (next : List Heredoc) (frames : List Frame) :
    (Place.mk (.heredoc h next) frames).maskAll body = body.map .hidden ∧
      (Place.mk (.heredoc h next) frames).after body = ⟨.heredoc h next, frames⟩ := by
  induction body with
  | nil => exact ⟨rfl, rfl⟩
  | cons line body ih =>
    obtain ⟨hline, hmore⟩ := List.forall_mem_cons.1 hbody
    obtain ⟨hmasked, hafter⟩ := ih hmore
    have hmask : (Place.mk (.heredoc h next) frames).mask line =
        (.hidden line, ⟨.heredoc h next, frames⟩) := by
      rw [Place.mask_heredoc, hline, if_neg Bool.false_ne_true]
    refine ⟨?_, ?_⟩
    · rw [Place.maskAll, hmask, hmasked, List.map_cons]
    · rw [Place.after, List.foldl_cons, hmask]
      exact hafter

/-- Nothing is shown of the bodies (`Bodies`), and behind them the scanner is in code. -/
theorem Bodies.maskAll {heredocs : List Heredoc} {bodies : List (List Char)}
    (h : Bodies heredocs bodies) (frames : List Frame) :
    (Place.mk (.ofHeredocs heredocs) frames).maskAll bodies = bodies.map .hidden ∧
      (Place.mk (.ofHeredocs heredocs) frames).after bodies = ⟨.code, frames⟩ := by
  induction h with
  | nil => exact ⟨rfl, rfl⟩
  | @cons h next more body terminator hbody hend _ ih =>
    obtain ⟨hmasked, hafter⟩ := Place.maskAll_body hbody next frames
    have hmask : (Place.mk (.heredoc h next) frames).mask terminator =
        (.hidden terminator, ⟨.ofHeredocs next, frames⟩) := by
      rw [Place.mask_heredoc, hend, if_pos rfl]
    rw [Region.ofHeredocs]
    refine ⟨?_, ?_⟩
    · rw [Place.maskAll_append, hmasked, hafter, Place.maskAll, hmask, ih.1, List.map_append,
        List.map_cons]
    · rw [Place.after, List.foldl_append, List.foldl_cons]
      rw [Place.after] at hafter
      rw [hafter, hmask]
      exact ih.2

/-! ### Comments around the bodies -/

theorem commentPlaces_append (above below : List MaskedLine) :
    commentPlaces (above ++ below) = commentPlaces above ++
      (commentPlaces below).map fun place => (place.1 + above.length, place.2) := by
  have hshift : below.zipIdx above.length =
      below.zipIdx.map fun y => (y.1, above.length + y.2) := List.zipIdx_eq_map_add
  rw [commentPlaces, List.zipIdx_append, List.filterMap_append, Nat.zero_add, hshift,
    List.filterMap_map, commentPlaces, commentPlaces, List.map_filterMap]
  refine congrArg (_ ++ ·) (List.filterMap_congr fun y _ => ?_)
  simp only [Function.comp_apply, Option.map_map]
  cases y.1.comment with
  | none => rfl
  | some column => simp [Nat.add_comm]

theorem commentPlaces_hidden (lines : List (List Char)) :
    commentPlaces (lines.map MaskedLine.hidden) = [] := by
  rw [List.eq_nil_iff_forall_not_mem]
  rintro ⟨k, c⟩ hmem
  obtain ⟨masked, hmasked, hcomment⟩ := mem_commentPlaces.1 hmem
  obtain ⟨line, -, rfl⟩ := List.mem_map.1 (List.mem_of_getElem? hmasked)
  cases hcomment

/-- `commentPlaces` behind hidden lines are those behind the first line, further down. -/
theorem commentPlaces_cons_hidden (masked : MaskedLine) (lines : List (List Char))
    (below : List MaskedLine) :
    commentPlaces (masked :: (lines.map MaskedLine.hidden ++ below)) = commentPlaces [masked] ++
      (commentPlaces below).map fun place => (place.1 + (lines.length + 1), place.2) := by
  rw [← List.singleton_append, commentPlaces_append, commentPlaces_append, commentPlaces_hidden,
    List.nil_append, List.map_map, List.length_map, List.length_singleton]
  refine congrArg (commentPlaces [masked] ++ ·) (List.map_congr_left fun place _ => ?_)
  simp only [Function.comp_apply, Nat.add_assoc]

/-! ### Lines that open heredocs -/

/-- A line of code with the body of a heredoc behind it is scanned, and opens that heredoc and those
behind it. -/
theorem Place.scanLine_of_heredoc {p : Place} {line : List Char} {masked : MaskedLine}
    {h : Heredoc} {next : List Heredoc} {frames : List Frame} (hcode : p.region = .code)
    (hopen : p.mask line = (masked, ⟨.heredoc h next, frames⟩)) :
    scanLine p.frames line = ⟨masked, frames, h :: next⟩ := by
  unfold Place.mask at hopen
  rw [hcode] at hopen
  simp only at hopen
  split at hopen
  · cases hopen
  split at hopen
  · cases hopen
  generalize scanLine p.frames line = scanned at hopen ⊢
  obtain ⟨shown, inside, heredocs⟩ := scanned
  cases heredocs with
  | nil => cases hopen
  | cons h' next' =>
    cases hopen
    rfl

/-- **Opaque heredocs.** When a line of code opens heredocs, nothing is shown of their bodies and no
comment is found in them, and the lines below the bodies are scanned as lines of code inside the
frames in which that line ended; only the numbers of lines with comments grow by those of the
bodies. So other bodies of as many lines have the same comments around them. -/
theorem heredocs_opaque {p : Place} {line : List Char} {masked : MaskedLine} {h : Heredoc}
    {next : List Heredoc} {frames : List Frame} (hcode : p.region = .code)
    (hopen : p.mask line = (masked, ⟨.heredoc h next, frames⟩)) :
    scanLine p.frames line = ⟨masked, frames, h :: next⟩ ∧
    ∀ bodies, Bodies (h :: next) bodies →
      p.after (line :: bodies) = ⟨.code, frames⟩ ∧
      ∀ below,
        p.maskAll (line :: (bodies ++ below)) =
          masked :: (bodies.map MaskedLine.hidden ++ (Place.mk .code frames).maskAll below) ∧
        commentPlaces (p.maskAll (line :: (bodies ++ below))) =
          commentPlaces [masked] ++ (commentPlaces ((Place.mk .code frames).maskAll below)).map
            (fun place => (place.1 + (bodies.length + 1), place.2)) ∧
        ∀ others, Bodies (h :: next) others → others.length = bodies.length →
          commentPlaces (p.maskAll (line :: (others ++ below))) =
            commentPlaces (p.maskAll (line :: (bodies ++ below))) := by
  have hlines : ∀ bodies, Bodies (h :: next) bodies → ∀ below,
      p.maskAll (line :: (bodies ++ below)) =
        masked :: (bodies.map MaskedLine.hidden ++ (Place.mk .code frames).maskAll below) := by
    intro bodies hbodies below
    obtain ⟨hmasked, hafter⟩ := hbodies.maskAll frames
    rw [Place.maskAll, hopen]
    refine congrArg (masked :: ·) ?_
    rw [← hmasked, ← hafter, ← Place.maskAll_append]
    rfl
  refine ⟨Place.scanLine_of_heredoc hcode hopen, fun bodies hbodies =>
    ⟨?_, fun below => ⟨hlines bodies hbodies below, ?_, ?_⟩⟩⟩
  · rw [Place.after, List.foldl_cons, hopen]
    exact (hbodies.maskAll frames).2
  · rw [hlines bodies hbodies, commentPlaces_cons_hidden]
  · intro others hothers hlength
    rw [hlines bodies hbodies, hlines others hothers, commentPlaces_cons_hidden,
      commentPlaces_cons_hidden, hlength]

/-- Two heredocs with one terminator, of which the first may be indented. The line ends inside a
literal, which goes on below the bodies and ends in front of the comment. -/
theorem heredocs_opaque_same_terminator :
    Place.start.mask "call(<<~A, <<'A', %w[a".toList =
      (⟨"call(<<~A, <<'A', %w[ ".toList, none⟩,
        ⟨.heredoc ⟨true, ['A']⟩ [⟨false, ['A']⟩], [.literal '[' ']' false 0]⟩) ∧
    Bodies [⟨true, ['A']⟩, ⟨false, ['A']⟩]
      (["# no comment", "=begin", "  A\r", "__END__", "  A", "A"].map String.toList) ∧
    commentPlaces (maskLines (["call(<<~A, <<'A', %w[a", "# no comment", "=begin", "  A\r",
      "__END__", "  A", "A", "#]) # note"].map String.toList)) = [(7, 4)] := by
  have hopen : Place.start.mask "call(<<~A, <<'A', %w[a".toList =
      (⟨"call(<<~A, <<'A', %w[ ".toList, none⟩,
        ⟨.heredoc ⟨true, ['A']⟩ [⟨false, ['A']⟩], [.literal '[' ']' false 0]⟩) := by
    decide +kernel
  have hbodies : Bodies [⟨true, ['A']⟩, ⟨false, ['A']⟩]
      (["# no comment", "=begin", "  A\r", "__END__", "  A", "A"].map String.toList) :=
    .cons (["# no comment", "=begin"].map String.toList) "  A\r".toList (by decide +kernel)
      (by decide +kernel)
      (.cons (["__END__", "  A"].map String.toList) "A".toList (by decide +kernel)
        (by decide +kernel) .nil)
  obtain ⟨-, hall⟩ := heredocs_opaque rfl hopen
  obtain ⟨-, hbelow⟩ := hall _ hbodies
  obtain ⟨-, hcomments, -⟩ := hbelow ["#]) # note".toList]
  exact ⟨hopen, hbodies, hcomments.trans (by decide +kernel)⟩

end TypeNotes.Ruby
