import TypeNotes.Rule.Offense

/-!
# The order of offenses

Offenses are in a total order, so that a list of them can be put in order in one way only: lists
with the same offenses, each as often as in the other, are the same after sorting.
-/

namespace TypeNotes.Offense

theorem le_iff (a b : Offense) :
    a.le b ↔ a.span.start < b.span.start ∨ (a.span.start = b.span.start ∧
      (a.span.stop < b.span.stop ∨ (a.span.stop = b.span.stop ∧
        Text.le a.message.toList b.message.toList))) := by
  simp [Offense.le]

theorem le_total (a b : Offense) : a.le b || b.le a := by
  rw [Bool.or_eq_true, le_iff, le_iff]
  have hmessage := Text.le_total a.message.toList b.message.toList
  grind

theorem le_trans (a b c : Offense) (hab : a.le b) (hbc : b.le c) : a.le c := by
  rw [le_iff] at hab hbc ⊢
  have hmessage := @Text.le_trans a.message.toList b.message.toList c.message.toList
  grind

theorem le_antisymm {a b : Offense} (hab : a.le b) (hba : b.le a) : a = b := by
  rw [le_iff] at hab hba
  have hstart : a.span.start = b.span.start := by omega
  have hstop : a.span.stop = b.span.stop := by omega
  have hmessage : a.message = b.message := by
    rw [← String.toList_inj]
    exact Text.le_antisymm (by grind) (by grind)
  obtain ⟨⟨_, _⟩, _⟩ := a
  obtain ⟨⟨_, _⟩, _⟩ := b
  simp_all

theorem sort_perm (l : List Offense) : (sort l).Perm l := List.mergeSort_perm l le

theorem pairwise_sort (l : List Offense) : (sort l).Pairwise fun a b => a.le b :=
  List.pairwise_mergeSort le_trans le_total l

/-- `Offense.sort` forgets the order in which offenses were found. -/
theorem sort_eq_of_perm {l l' : List Offense} (h : l.Perm l') : sort l = sort l' := by
  refine List.Perm.eq_of_pairwise (fun a b _ _ hab hba => le_antisymm hab hba) (pairwise_sort l)
    (pairwise_sort l') ?_
  exact (sort_perm l).trans (h.trans (sort_perm l').symm)

end TypeNotes.Offense
