import Mathlib.Data.List.Pairwise
import TypeNotes.Proofs.Note.Error
import TypeNotes.Proofs.Note.Heading

/-!
# Notes come one after another

No two entries of a file are gathered from the same comment: a marker owns the comments up to the
next entry, and blocks share no comment. So the notes of a file come one after another, each with
comments of its own (`Ruby.Source.pairwise_notes`).
-/

namespace TypeNotes

open Ruby

/-! ### Comments of entries -/

/-- Parts that are taken from the parts of a list, in their order. -/
theorem flatMap_sublist_flatMap {α β : Type} {l : List α} {f g : α → List β}
    (h : ∀ a ∈ l, (f a).Sublist (g a)) : (l.flatMap f).Sublist (l.flatMap g) := by
  induction l with
  | nil => exact List.Sublist.refl _
  | cons a l ih =>
    obtain ⟨ha, hl⟩ := List.forall_mem_cons.1 h
    rw [List.flatMap_cons, List.flatMap_cons]
    exact ha.append (ih hl)

theorem Marker.comments_entry (m : Marker) (c : Comment) (owned : List Comment) :
    (m.entry c owned).comments = c :: owned := by
  simp [Entry.comments, Entry.segments, Marker.entry, Segment.ofBody, Function.comp_def]

theorem Entry.flatMap_comments_gather (cs : List Comment) :
    ((Entry.gather cs).flatMap Entry.comments).Sublist cs := by
  fun_induction Entry.gather cs with
  | case1 => exact List.Sublist.refl _
  | case2 c rest m hm ih =>
    rw [List.flatMap_cons, m.comments_entry]
    conv_rhs => rw [← List.takeWhile_append_dropWhile (p := m.owns) (l := rest)]
    exact (List.Sublist.refl _).append ih
  | case3 c rest hm hcolon ih => exact ih.cons_cons c
  | case4 c rest hm hcolon ih => exact ih.cons c

theorem CommentBlock.flatMap_comments_entries (b : CommentBlock) :
    (b.entries.flatMap Entry.comments).Sublist b.comments := by
  unfold CommentBlock.entries
  split
  · exact (List.nil_sublist b.more).cons_cons b.first
  · exact Entry.flatMap_comments_gather b.comments

/-! ### Notes -/

/-- All notes of a file. -/
def Ruby.Source.notes (s : Source) : List Note := s.blocks.flatMap CommentBlock.notes

/-- Every comment of the first note comes before every comment of the second one. -/
def Note.Before (a b : Note) : Prop := ∀ c ∈ a.comments, ∀ c' ∈ b.comments, c.Before c'

theorem Ruby.Source.pairwise_notes (s : Source) : s.notes.Pairwise Note.Before := by
  have hcomments : ((s.blocks.flatMap CommentBlock.entries).flatMap Entry.comments).Sublist
      s.comments := by
    rw [List.flatMap_assoc]
    have hsub := flatMap_sublist_flatMap fun b (_ : b ∈ s.blocks) => b.flatMap_comments_entries
    rwa [Source.blocks, CommentBlock.flatMap_comments_group] at hsub
  have hentries := (List.pairwise_flatMap.1 (s.pairwise_comments.sublist hcomments)).2
  have hnotes : s.notes = (s.blocks.flatMap CommentBlock.entries).filterMap Entry.read? := by
    rw [List.filterMap_flatMap]
    rfl
  rw [hnotes]
  refine List.pairwise_filterMap.2 (hentries.imp fun {e e'} h n hn n' hn' => ?_)
  rw [Note.Before, (Entry.reads_of_read? hn).comments, (Entry.reads_of_read? hn').comments]
  exact h

/-- Two notes are the same if neither comes before the other (`Note.Before`). -/
theorem Note.eq_of_not_before {s : Source} {n n' : Note} (hn : n ∈ s.notes) (hn' : n' ∈ s.notes)
    (h : ¬ n.Before n') (h' : ¬ n'.Before n) : n = n' := by
  have hapart : s.notes.Pairwise fun a b => a.Before b ∨ b.Before a := s.pairwise_notes.imp Or.inl
  have hsymm : Std.Symm fun a b : Note => a.Before b ∨ b.Before a := ⟨fun _ _ => Or.symm⟩
  by_contra hne
  exact (hapart.forall hn hn' hne).elim h h'

theorem Note.eq_of_mem_comments {s : Source} {n n' : Note} (hn : n ∈ s.notes) (hn' : n' ∈ s.notes)
    {c : Comment} (hc : c ∈ n.comments) (hc' : c ∈ n'.comments) : n = n' :=
  Note.eq_of_not_before hn hn' (fun h => Nat.lt_irrefl _ (h c hc c hc').line)
    fun h => Nat.lt_irrefl _ (h c hc' c hc).line

/-- A note of a file is read with `Entry.read?` from an entry, which is gathered from comments of
the file. -/
theorem exists_entry_of_mem_notes {s : Source} {n : Note} (hn : n ∈ s.notes) :
    ∃ e : Entry, e.From s.comments ∧ e.read? = some n := by
  obtain ⟨b, hb, hn⟩ := List.mem_flatMap.1 hn
  obtain ⟨e, he, hread⟩ := List.mem_filterMap.1 hn
  exact ⟨e, (CommentBlock.from_of_mem_entries he).mono (CommentBlock.sublist_of_mem_group hb), hread⟩

theorem CommentBlock.comments_subset_of_mem_notes {b : CommentBlock} {n : Note}
    (hn : n ∈ b.notes) : n.comments ⊆ b.comments := by
  obtain ⟨e, he, hread⟩ := List.mem_filterMap.1 hn
  rw [(Entry.reads_of_read? hread).comments]
  exact (CommentBlock.from_of_mem_entries he).sublist.subset

theorem comments_subset_of_mem_notes {s : Source} {n : Note} (hn : n ∈ s.notes) :
    n.comments ⊆ s.comments := by
  obtain ⟨b, hb, hn⟩ := List.mem_flatMap.1 hn
  have hsub := (CommentBlock.sublist_of_mem_group hb).subset
  exact List.Subset.trans (CommentBlock.comments_subset_of_mem_notes hn) hsub

end TypeNotes
