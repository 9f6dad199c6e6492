import TypeNotes.Proofs.Note.Ownership
import TypeNotes.Proofs.Ruby.Written
import TypeNotes.Rule.Shape

/-!
# Markers and the entries they open

A marker is read twice: where entries are gathered, and by the rules that look only at how a comment
is written. Both read the same spelling (`Marker.Spells`), but the rules ask for white space between
the hash sign and the marker, and some of them for white space behind the marker as well
(`Shape.afterMarker?_eq_some_iff`, `Shape.embeddedIndent?_eq_some_iff`).

**Entries.** The entries with a marker are those that the comments with a marker open, each with the
comments below that the marker owns (`CommentBlock.mem_entries_of_marker`,
`CommentBlock.exists_marker_of_mem_entries`).
-/

namespace TypeNotes

open Ruby Unicode

/-! ### How a marker is spelled -/

/-- How the body of a comment with this marker starts: white space, the marker, and either more
white space or nothing. -/
structure Marker.Spells (m : Marker) (body gap rest : List Char) : Prop where
  body : body = gap ++ ("@rbs".toList ++ ((if m.bang then ['!'] else []) ++ rest))
  space : ∀ c ∈ gap, isSpace c
  length : gap.length = m.indent
  atGap : atGap rest

/-- White space in front of the marker is all the white space in front of the text. -/
theorem cut_marker {gap : List Char} (hgap : ∀ c ∈ gap, isSpace c) (rest : List Char) :
    (gap ++ ("@rbs".toList ++ rest)).takeWhile isSpace = gap ∧
      Text.trimLeft (gap ++ ("@rbs".toList ++ rest)) = "@rbs".toList ++ rest := by
  refine cut_run hgap fun c hc => ?_
  obtain rfl : '@' = c := Option.some.inj hc
  decide

namespace Marker.Spells

variable {m : Marker} {body gap rest : List Char} (h : m.Spells body gap rest)

include h

theorem takeWhile : body.takeWhile isSpace = gap := by
  rw [h.body]
  exact (cut_marker h.space _).1

theorem indentation : indentation body = m.indent := by
  rw [TypeNotes.indentation, h.takeWhile, h.length]

theorem ofBody? : Marker.ofBody? body = some m := by
  have hafter : Text.after? "@rbs".toList (Text.trimLeft body) =
      some ((if m.bang then ['!'] else []) ++ rest) := by
    rw [h.body, (cut_marker h.space _).2, after?_eq_some_iff]
  have hindent := h.indentation
  have hgap := h.atGap
  obtain ⟨indent, bang⟩ := m
  cases bang with
  | true => simp_all [Marker.ofBody?]
  | false =>
    rw [Marker.ofBody?, hafter]
    cases rest with
    | nil => simp_all
    | cons c rest =>
      have hc : c ≠ '!' := by
        rintro rfl
        cases hgap
      simp_all

theorem split_length : body.take m.length = gap ++ ("@rbs".toList ++ if m.bang then ['!'] else []) ∧
    body.drop m.length = rest := by
  have hlength : m.length = (gap ++ ("@rbs".toList ++ if m.bang then ['!'] else [])).length := by
    rw [Marker.length, ← h.length]
    split <;> simp
  have hbody : body = (gap ++ ("@rbs".toList ++ if m.bang then ['!'] else [])) ++ rest := by
    rw [h.body, List.append_assoc, List.append_assoc]
  rw [hlength, hbody, List.take_left, List.drop_left]
  exact ⟨rfl, rfl⟩

/-- White space (`isSpace`) stands in front of the marker if the body starts with some. -/
theorem any_head?_iff : body.head?.any isSpace ↔ gap ≠ [] := by
  rw [h.body]
  cases gap with
  | nil =>
    have hat : isSpace '@' = false := by decide
    exact iff_of_false (by simp [hat]) (not_not_intro rfl)
  | cons c gap => exact iff_of_true (h.space c List.mem_cons_self) (List.cons_ne_nil _ _)

end Marker.Spells

theorem Marker.exists_spells {body : List Char} {m : Marker} (h : Marker.ofBody? body = some m) :
    ∃ gap rest, m.Spells body gap rest := by
  have hparts : body.takeWhile isSpace ++ Text.trimLeft body = body :=
    List.takeWhile_append_dropWhile
  have hspace : ∀ c ∈ body.takeWhile isSpace, isSpace c := fun c => List.mem_takeWhile_imp
  unfold Marker.ofBody? at h
  split at h
  · cases h
  · rename_i rest hafter
    obtain ⟨hgap, hm⟩ := Option.ite_none_right_eq_some.1 h
    obtain rfl := Option.some.inj hm
    refine ⟨_, rest, ?_, hspace, rfl, hgap⟩
    rw [if_pos rfl, List.singleton_append, ← after?_eq_some_iff.1 hafter, hparts]
  · rename_i rest _ hafter
    obtain ⟨hgap, hm⟩ := Option.ite_none_right_eq_some.1 h
    obtain rfl := Option.some.inj hm
    refine ⟨_, rest, ?_, hspace, rfl, hgap⟩
    rw [if_neg Bool.false_ne_true, List.nil_append, ← after?_eq_some_iff.1 hafter, hparts]

/-! ### Markers in the shape of a comment -/

namespace Shape

theorem afterSpace?_eq_some_iff {s t : List Char} : afterSpace? s = some t ↔
    ∃ space, s = space ++ t ∧ space ≠ [] ∧ (∀ c ∈ space, isSpace c) ∧
      ∀ c ∈ t.head?, isSpace c = false := by
  constructor
  · intro h
    unfold afterSpace? at h
    split at h
    · rename_i c rest
      obtain ⟨hc, hrest⟩ := Option.ite_none_right_eq_some.1 h
      obtain rfl := Option.some.inj hrest
      refine ⟨c :: rest.takeWhile isSpace, ?_, List.cons_ne_nil _ _, ?_, fun d hd => ?_⟩
      · rw [List.cons_append, Text.trimLeft, List.takeWhile_append_dropWhile]
      · exact List.forall_mem_cons.2 ⟨hc, fun d => List.mem_takeWhile_imp⟩
      · have hnot := List.head?_dropWhile_not isSpace rest
        rw [Text.trimLeft, Option.mem_def] at hd
        rwa [hd] at hnot
    · cases h
  · rintro ⟨space, rfl, hne, hspace, ht⟩
    cases space with
    | nil => exact absurd rfl hne
    | cons c space =>
      obtain ⟨hc, hspace⟩ := List.forall_mem_cons.1 hspace
      rw [List.cons_append, afterSpace?, if_pos hc, Text.trimLeft, (cut_run hspace ht).2]

/-- `afterMarker?` asks for white space on both sides of the marker. -/
theorem afterMarker?_eq_some_iff {s t : List Char} : afterMarker? s = some t ↔
    ∃ body gap rest, s = '#' :: body ∧ gap ≠ [] ∧ Marker.Spells ⟨gap.length, false⟩ body gap rest ∧
      afterSpace? rest = some t := by
  simp only [afterMarker?, Option.bind_eq_bind, Option.bind_eq_some_iff, after?_eq_some_iff]
  constructor
  · rintro ⟨body, rfl, spaced, hspaced, rest, rfl, hrest⟩
    obtain ⟨gap, hbody, hne, hgap, -⟩ := afterSpace?_eq_some_iff.1 hspaced
    refine ⟨body, gap, rest, rfl, hne, ⟨hbody, hgap, rfl, ?_⟩, hrest⟩
    obtain ⟨space, rfl, hspace, hall, -⟩ := afterSpace?_eq_some_iff.1 hrest
    cases space with
    | nil => exact absurd rfl hspace
    | cons c space => exact (List.forall_mem_cons.1 hall).1
  · rintro ⟨body, gap, rest, rfl, hne, hspells, hrest⟩
    refine ⟨body, rfl, "@rbs".toList ++ rest, ?_, rest, rfl, hrest⟩
    refine afterSpace?_eq_some_iff.2 ⟨gap, hspells.body, hne, hspells.space, fun c hc => ?_⟩
    obtain rfl : '@' = c := Option.some.inj hc
    decide

/-- For a comment with a marker, `afterMarker?` shows what stands behind it if white space stands in
front. -/
theorem afterMarker?_eq_some_iff_of_spells {m : Marker} {c : Comment} {gap rest t : List Char}
    (hspells : m.Spells c.body gap rest) (hbang : m.bang = false) (htext : c.text = '#' :: c.body) :
    afterMarker? c.text = some t ↔ gap ≠ [] ∧ afterSpace? rest = some t := by
  rw [afterMarker?_eq_some_iff]
  constructor
  · rintro ⟨body, gap', rest', hbody, hne, hspells', hrest⟩
    obtain rfl : c.body = body := (List.cons.inj (htext.symm.trans hbody)).2
    obtain rfl := Option.some.inj (hspells.ofBody?.symm.trans hspells'.ofBody?)
    rw [← hspells.takeWhile, ← hspells.split_length.2, hspells'.takeWhile, hspells'.split_length.2]
    exact ⟨hne, hrest⟩
  · rintro ⟨hne, hrest⟩
    obtain ⟨indent, bang⟩ := m
    obtain rfl : bang = false := hbang
    obtain rfl : gap.length = indent := hspells.length
    exact ⟨c.body, gap, rest, htext, hne, hspells, hrest⟩

theorem suffix_of_afterMarker? {s t : List Char} (h : afterMarker? s = some t) : t <:+ s := by
  obtain ⟨body, gap, rest, rfl, -, hspells, hrest⟩ := afterMarker?_eq_some_iff.1 h
  obtain ⟨space, rfl, -⟩ := afterSpace?_eq_some_iff.1 hrest
  have hbody : t <:+ body := by
    rw [hspells.body, ← List.append_assoc, ← List.append_assoc, ← List.append_assoc]
    exact List.suffix_append _ t
  exact hbody.trans (List.suffix_cons '#' body)

/-- `embeddedIndent?` asks for the marker of embedded declarations with white space in front of it.
-/
theorem embeddedIndent?_eq_some_iff {s : List Char} {indent : Nat} :
    embeddedIndent? s = some indent ↔
      ∃ body gap rest, s = '#' :: body ∧ gap ≠ [] ∧ Marker.Spells ⟨indent, true⟩ body gap rest := by
  simp only [embeddedIndent?, Option.bind_eq_bind, Option.bind_eq_some_iff, after?_eq_some_iff,
    Option.ite_none_right_eq_some]
  constructor
  · rintro ⟨body, rfl, spaced, hspaced, rest, rfl, hgap, hindent⟩
    obtain ⟨gap, hbody, hne, hspace, hhead⟩ := afterSpace?_eq_some_iff.1 hspaced
    refine ⟨body, gap, rest, rfl, hne, hbody, hspace, ?_, hgap⟩
    rw [← Option.some.inj hindent, indentation, hbody, (cut_run hspace hhead).1]
  · rintro ⟨body, gap, rest, rfl, hne, hspells⟩
    refine ⟨body, rfl, "@rbs!".toList ++ rest, ?_, rest, rfl, hspells.atGap, ?_⟩
    · refine afterSpace?_eq_some_iff.2 ⟨gap, hspells.body, hne, hspells.space, fun c hc => ?_⟩
      obtain rfl : '@' = c := Option.some.inj hc
      decide
    · rw [hspells.indentation]

end Shape

/-! ### Entries with a marker -/

theorem Marker.owns_eq_false {m m' : Marker} {c : Comment} (h : Marker.ofBody? c.body = some m') :
    m.owns c = false := by
  simp [Marker.owns, h]

/-- In `Entry.gather`, a comment with a marker opens an entry, whatever stands above it. -/
theorem Entry.mem_gather_of_marker {c : Comment} {m : Marker}
    (hm : Marker.ofBody? c.body = some m) (above below : List Comment) :
    m.entry c (below.takeWhile m.owns) ∈ Entry.gather (above ++ c :: below) := by
  generalize hcs : above ++ c :: below = cs
  fun_induction Entry.gather cs generalizing above with
  | case1 => simp at hcs
  | case2 c' rest m' hm' ih =>
    cases above with
    | nil =>
      obtain ⟨rfl, rfl⟩ := List.cons.inj hcs
      obtain rfl : m' = m := Option.some.inj (hm'.symm.trans hm)
      exact List.mem_cons_self
    | cons d above =>
      -- The marker above does not own the comment, so that it is left for the next entries.
      obtain ⟨rfl, hrest⟩ := List.cons.inj hcs
      refine List.mem_cons_of_mem _ (ih (above.dropWhile m'.owns) ?_)
      have hstop : (c :: below).dropWhile m'.owns = c :: below :=
        List.dropWhile_cons_of_neg (by simp [Marker.owns_eq_false hm])
      rw [← hrest, List.append_eq, List.dropWhile_append, hstop]
      split
      · rename_i hempty
        rw [List.isEmpty_iff.1 hempty, List.nil_append]
      · rfl
  | case3 c' rest hnone hcolon ih =>
    cases above with
    | nil =>
      obtain ⟨rfl, rfl⟩ := List.cons.inj hcs
      rw [hm] at hnone
      cases hnone
    | cons d above => exact List.mem_cons_of_mem _ (ih above (List.cons.inj hcs).2)
  | case4 c' rest hnone hcolon ih =>
    cases above with
    | nil =>
      obtain ⟨rfl, rfl⟩ := List.cons.inj hcs
      rw [hm] at hnone
      cases hnone
    | cons d above => exact ih above (List.cons.inj hcs).2

theorem Entry.exists_marker_of_mem_gather {cs : List Comment} {e : Entry} (he : e ∈ Entry.gather cs)
    (hkind : e.kind ≠ .assertion) :
    ∃ above c below m, cs = above ++ c :: below ∧ Marker.ofBody? c.body = some m ∧
      e = m.entry c (below.takeWhile m.owns) := by
  fun_induction Entry.gather cs with
  | case1 => cases he
  | case2 c rest m hm ih =>
    rcases List.mem_cons.1 he with rfl | he
    · exact ⟨[], c, rest, m, rfl, hm, rfl⟩
    · obtain ⟨above, c', below, m', hrest, hentry⟩ := ih he
      refine ⟨c :: (rest.takeWhile m.owns ++ above), c', below, m', ?_, hentry⟩
      rw [List.cons_append, List.append_assoc, ← hrest, List.takeWhile_append_dropWhile]
  | case3 c rest hm hcolon ih =>
    rcases List.mem_cons.1 he with rfl | he
    · exact absurd rfl hkind
    · obtain ⟨above, c', below, m', rfl, hentry⟩ := ih he
      exact ⟨c :: above, c', below, m', rfl, hentry⟩
  | case4 c rest hm hcolon ih =>
    obtain ⟨above, c', below, m', rfl, hentry⟩ := ih he
    exact ⟨c :: above, c', below, m', rfl, hentry⟩

/-- The text of the entry goes on in the next line where its first comment ends. -/
theorem Marker.Spells.exists_text {m : Marker} {c : Comment} {gap rest : List Char}
    (h : m.Spells c.body gap rest) (owned : List Comment) :
    ∃ more, (m.entry c owned).text = rest ++ more ∧ ∀ d ∈ more.head?, d = '\n' := by
  have hfirst : (Segment.ofBody c m.length).text = rest := h.split_length.2
  cases owned with
  | nil =>
    refine ⟨[], ?_, by simp⟩
    simp [Entry.text, Entry.segments, Marker.entry, Text.unlines, hfirst]
  | cons d owned =>
    refine ⟨'\n' :: Text.unlines ((d :: owned).map fun c => (Segment.ofBody c 0).text), ?_, by simp⟩
    rw [← hfirst]
    simp [Entry.text, Entry.segments, Marker.entry, Text.unlines, Function.comp_def]

namespace CommentBlock

variable {b : CommentBlock}

theorem mem_entries_of_marker {above below : List Comment} {c : Comment} {m : Marker}
    (hb : b.comments = above ++ c :: below) (hm : Marker.ofBody? c.body = some m) :
    m.entry c (below.takeWhile m.owns) ∈ b.entries := by
  have happlication : ¬ b.isApplication := by
    intro happlication
    have hnone := openers_of_isApplication happlication
    have hopens := List.findIdxs_eq_nil_iff.1 hnone c (by simp [hb])
    simp [opensEntry, hm] at hopens
  rw [entries, if_neg happlication, hb]
  exact Entry.mem_gather_of_marker hm above below

theorem exists_marker_of_mem_entries {e : Entry} (he : e ∈ b.entries)
    (hkind : e.kind = .marked ∨ e.kind = .embedded) :
    ∃ above c below m, b.comments = above ++ c :: below ∧ Marker.ofBody? c.body = some m ∧
      e = m.entry c (below.takeWhile m.owns) := by
  unfold entries at he
  split at he
  · rw [List.mem_singleton] at he
    subst he
    simp at hkind
  · exact Entry.exists_marker_of_mem_gather he (by rcases hkind with h | h <;> simp [h])

end CommentBlock

/-- In a file, every comment with a marker opens one of the `entries` of its block. -/
theorem exists_entry_of_marker {s : Source} {c : Comment} (hc : c ∈ s.comments) {m : Marker}
    (hm : Marker.ofBody? c.body = some m) : ∃ b ∈ s.blocks, ∃ above below,
      b.comments = above ++ c :: below ∧ m.entry c (below.takeWhile m.owns) ∈ b.entries := by
  have hflat : c ∈ s.blocks.flatMap CommentBlock.comments := by
    rwa [Source.blocks, CommentBlock.flatMap_comments_group]
  obtain ⟨b, hb, hcb⟩ := List.mem_flatMap.1 hflat
  obtain ⟨above, below, hparts⟩ := List.append_of_mem hcb
  exact ⟨b, hb, above, below, hparts, CommentBlock.mem_entries_of_marker hparts hm⟩

end TypeNotes
