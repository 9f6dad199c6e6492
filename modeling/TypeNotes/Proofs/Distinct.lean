import Mathlib.Data.List.Nodup

/-!
# Lists in which duplicates are erased

What is left is free of duplicates, and a list without duplicates is left as it is. Of two lists in
a row, the second keeps what is not in the first.
-/

namespace TypeNotes

variable {α : Type} [BEq α] [LawfulBEq α]

/-- `List.eraseDups` leaves every item once. -/
theorem nodup_eraseDups (l : List α) : l.eraseDups.Nodup := by
  induction hlen : l.length using Nat.strongRecOn generalizing l with
  | ind n ih =>
    subst hlen
    cases l with
    | nil => exact .nil
    | cons a l =>
      have hlt : (l.filter fun b => !b == a).length < (a :: l).length :=
        Nat.lt_succ_of_le (List.length_filter_le _ l)
      rw [List.eraseDups_cons, List.nodup_cons, List.mem_eraseDups]
      exact ⟨by simp, ih _ hlt _ rfl⟩

/-- `List.eraseDups` keeps a list whose items are all different. -/
theorem eraseDups_of_nodup {l : List α} (h : l.Nodup) : l.eraseDups = l := by
  induction l with
  | nil => rfl
  | cons a l ih =>
    obtain ⟨hnot, hl⟩ := List.nodup_cons.1 h
    have hfilter : (l.filter fun b => !b == a) = l := by
      rw [List.filter_eq_self]
      intro b hb
      have hne : b ≠ a := by
        rintro rfl
        exact hnot hb
      simpa using hne
    rw [List.eraseDups_cons, hfilter, ih hl]

/-- Erasing repetitions and filtering may be done in either order. -/
theorem eraseDups_filter (p : α → Bool) (l : List α) :
    (l.filter p).eraseDups = l.eraseDups.filter p := by
  induction hlen : l.length using Nat.strongRecOn generalizing l with
  | ind n ih =>
    subst hlen
    cases l with
    | nil => rfl
    | cons a l =>
      have hlt : (l.filter fun b => !b == a).length < (a :: l).length :=
        Nat.lt_succ_of_le (List.length_filter_le _ l)
      have hrest : ((l.filter p).filter fun b => !b == a).eraseDups =
          ((l.filter fun b => !b == a).eraseDups).filter p := by
        rw [← ih _ hlt _ rfl, List.filter_filter, List.filter_filter]
        simp only [Bool.and_comm]
      rw [List.eraseDups_cons, List.filter_cons, List.filter_cons]
      split
      · rw [List.eraseDups_cons, hrest]
      · -- What is left out does not occur in what is kept.
        rename_i ha
        have hself : (l.filter p).filter (fun b => !b == a) = l.filter p := by
          rw [List.filter_eq_self]
          intro b hb
          have hne : b ≠ a := by
            rintro rfl
            exact ha (List.mem_filter.1 hb).2
          simpa using hne
        rw [← hrest, hself]

/-- Of a second list only what is not in the first one is left. -/
theorem eraseDups_append_eq (l m : List α) :
    (l ++ m).eraseDups = l.eraseDups ++ m.eraseDups.filter (· ∉ l.eraseDups) := by
  rw [List.eraseDups_append, List.removeAll, eraseDups_filter]
  congr 1
  refine List.filter_congr fun a _ => ?_
  simp

end TypeNotes
