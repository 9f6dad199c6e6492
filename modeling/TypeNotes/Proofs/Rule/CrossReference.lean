import TypeNotes.Proofs.Note.Entry
import TypeNotes.Proofs.Rule.Offense
import TypeNotes.Rule.CrossReference

/-!
# Cross references are exact

However declarations are recorded, in any order and any number of times, a block of comments is
claimed by the first of them that stands directly below it, and the offenses are those of the names
that match no parameter of it, together with all names in blocks that nobody claims.

**The invariant.** A cross reference keeps the blocks not claimed yet and the names in the others
(`CrossReference.Ledger`). What carries it from one declaration to the next is that at most one
block of a file ends on a line (`Source.pairwise_blocks`), as comments stand on lines of their own.

**Order.** The ledger and the offenses follow from who claims which block. So recording a
declaration again changes nothing, and neither does the order of declarations on different lines.
-/

namespace TypeNotes

open Ruby

/-! ### Blocks of a file -/

/-- The last comment of a block is one of its comments. -/
theorem CommentBlock.last_mem_comments (b : CommentBlock) : b.last ∈ b.comments := by
  rw [CommentBlock.last, CommentBlock.comments, List.getLastD_eq_getLast?]
  cases hlast : b.more.getLast? with
  | none => exact List.mem_cons_self
  | some c => exact List.mem_cons_of_mem _ (List.mem_of_getLast? hlast)

/-- The comments of a block come before those of the next one. -/
theorem Ruby.Source.pairwise_comments_blocks (s : Source) :
    s.blocks.Pairwise fun a b => ∀ c ∈ a.comments, ∀ c' ∈ b.comments, c.Before c' := by
  have hcomments := s.pairwise_comments
  rw [← CommentBlock.flatMap_comments_group s.comments, List.pairwise_flatMap] at hcomments
  exact hcomments.2

/-- Each block of a file ends on a line above the one on which the next ends. -/
theorem Ruby.Source.pairwise_blocks (s : Source) :
    s.blocks.Pairwise fun a b => a.lastLine < b.lastLine := by
  refine s.pairwise_comments_blocks.imp fun {a b} hab => ?_
  exact (hab _ a.last_mem_comments _ b.last_mem_comments).line

namespace CrossReference

/-- A block that is above a declaration ends on the line before it. -/
theorem lastLine_of_isAbove {d : Declaration} {b : CommentBlock} (h : isAbove d b) :
    b.lastLine + 1 = d.line := by
  simp only [isAbove, Bool.and_eq_true, beq_iff_eq] at h
  exact h.2

/-- A declaration stands directly below one block at most (`isAbove`). -/
theorem pairwise_isAbove (s : Source) (d : Declaration) :
    s.blocks.Pairwise fun a b => ¬ (isAbove d a ∧ isAbove d b) := by
  refine s.pairwise_blocks.imp fun {a b} hlt habove => ?_
  have ha := lastLine_of_isAbove habove.1
  have hb := lastLine_of_isAbove habove.2
  omega

/-! ### Who claims a block -/

/-- The declaration that claims a block: the first one recorded that stands directly below it. -/
def claimer? (ds : List Declaration) (b : CommentBlock) : Option Declaration :=
  ds.find? fun d => isAbove d b

/-- The names of parameters and blocks in the notes of a claimed block. -/
def claimedIn (ds : List Declaration) (b : CommentBlock) : List (Declaration × NamedType) :=
  match claimer? ds b with
  | some d => (b.notes.filterMap parameterName?).map (d, ·)
  | none => []

/-- The names in a block that match no parameter of the declaration that claims it; all names, if
none does. -/
def unmatchedIn (ds : List Declaration) (b : CommentBlock) : List NamedType :=
  match claimer? ds b with
  | some d => (b.notes.filterMap parameterName?).filter fun named =>
      !d.parameterNames.contains named.name
  | none => b.notes.filterMap methodName?

/-- The `claimer?` of a block is a declaration it is above of. -/
theorem claimer?_eq_some {ds : List Declaration} {d : Declaration} {b : CommentBlock}
    (h : claimer? ds b = some d) : d ∈ ds ∧ isAbove d b := by
  unfold claimer? at h
  have habove := List.find?_some h
  exact ⟨List.mem_of_find?_eq_some h, habove⟩

/-- A further declaration is the `claimer?` of a block only if none was so before. -/
theorem claimer?_concat (ds : List Declaration) (d : Declaration) (b : CommentBlock) :
    claimer? (ds ++ [d]) b = (claimer? ds b).or (if isAbove d b then some d else none) := by
  rw [claimer?, List.find?_append, List.find?_singleton]
  rfl

/-- A declaration that is not below a block is not its `claimer?`. -/
theorem claimer?_concat_of_not {ds : List Declaration} {d : Declaration} {b : CommentBlock}
    (h : claimer? ds b = none → ¬ isAbove d b) : claimer? (ds ++ [d]) b = claimer? ds b := by
  rw [claimer?_concat]
  cases hclaimer : claimer? ds b with
  | some d' => rfl
  | none => rw [if_neg (h hclaimer), Option.or_none]

section Congruence

variable {ds ds' : List Declaration} {l : List CommentBlock}
  (h : ∀ b ∈ l, claimer? ds b = claimer? ds' b)

include h

/-- Unclaimed blocks are the same for declarations that claim the same way. -/
theorem filter_claimer?_congr :
    l.filter (fun b => (claimer? ds b).isNone) = l.filter fun b => (claimer? ds' b).isNone := by
  refine List.filter_congr fun b hb => ?_
  rw [h b hb]

/-- `claimedIn` is the same for declarations that claim the same way. -/
theorem flatMap_claimedIn_congr : l.flatMap (claimedIn ds) = l.flatMap (claimedIn ds') := by
  refine congrArg List.flatten (List.map_congr_left fun b hb => ?_)
  rw [claimedIn, claimedIn, h b hb]

/-- `unmatchedIn` is the same for declarations that claim the same way. -/
theorem flatMap_unmatchedIn_congr : l.flatMap (unmatchedIn ds) = l.flatMap (unmatchedIn ds') := by
  refine congrArg List.flatten (List.map_congr_left fun b hb => ?_)
  rw [unmatchedIn, unmatchedIn, h b hb]

end Congruence

/-! ### The invariant -/

/-- Two lists made for each item can be listed item by item. -/
theorem perm_flatMap_append {α β : Type} (l : List α) (f g : α → List β) :
    (l.flatMap f ++ l.flatMap g).Perm (l.flatMap fun a => f a ++ g a) := by
  induction l with
  | nil => exact .refl _
  | cons a l ih =>
    simp only [List.flatMap_cons, List.append_assoc]
    refine .append_left _ ?_
    rw [← List.append_assoc]
    refine (List.perm_append_comm.append_right _).trans ?_
    rw [List.append_assoc]
    exact ih.append_left _

/-- A filter is as good as giving nothing for the items it leaves out. -/
theorem flatMap_filter {α β : Type} (p : α → Bool) (f : α → List β) (l : List α) :
    (l.filter p).flatMap f = l.flatMap fun a => if p a then f a else [] := by
  induction l with
  | nil => rfl
  | cons a l ih =>
    rw [List.filter_cons, List.flatMap_cons]
    split
    · rw [List.flatMap_cons, ih]
    · rw [ih, List.nil_append]

/-- What a cross reference keeps after some declarations: the blocks that none of them claims, and
the names in those that are claimed. -/
structure Ledger (s : Source) (ds : List Declaration) (x : CrossReference) : Prop where
  unclaimed : x.unclaimed = s.blocks.filter fun b => (claimer? ds b).isNone
  claimed : x.claimed.Perm (s.blocks.flatMap (claimedIn ds))

/-- At the start no block is claimed (`Ledger`). -/
theorem ledger_ofSource (s : Source) : Ledger s [] (ofSource s) where
  unclaimed := (List.filter_eq_self.2 fun _ _ => rfl).symm
  claimed := by simp [ofSource, claimedIn, claimer?]

namespace Ledger

variable {s : Source} {ds : List Declaration} {x : CrossReference}

/-- An unclaimed block is a block of the source that has no `claimer?`. -/
theorem mem_unclaimed (h : Ledger s ds x) {b : CommentBlock} :
    b ∈ x.unclaimed ↔ b ∈ s.blocks ∧ claimer? ds b = none := by
  rw [h.unclaimed, List.mem_filter, Option.isNone_iff_eq_none]

/-- Nothing is kept of a declaration with no block above it that is free. -/
theorem record_of_none (h : Ledger s ds x) {d : Declaration}
    (hnone : x.unclaimed.find? (isAbove d) = none) : Ledger s (ds ++ [d]) x := by
  have hsame : ∀ b ∈ s.blocks, claimer? (ds ++ [d]) b = claimer? ds b := by
    intro b hb
    refine claimer?_concat_of_not fun hclaimer => ?_
    exact List.find?_eq_none.1 hnone b (h.mem_unclaimed.2 ⟨hb, hclaimer⟩)
  refine ⟨?_, ?_⟩
  · rw [h.unclaimed, filter_claimer?_congr hsame]
  · rw [flatMap_claimedIn_congr hsame]
    exact h.claimed

/-- The block that is found moves from the free ones to the claimed ones. -/
theorem record_of_some (h : Ledger s ds x) {d : Declaration} {b : CommentBlock}
    (hsome : x.unclaimed.find? (isAbove d) = some b) :
    Ledger s (ds ++ [d]) ⟨x.unclaimed.eraseP (isAbove d),
      x.claimed ++ (b.notes.filterMap parameterName?).map (d, ·)⟩ := by
  have habove : isAbove d b = true := List.find?_some hsome
  obtain ⟨hb, hfree⟩ := h.mem_unclaimed.1 (List.mem_of_find?_eq_some hsome)
  obtain ⟨before, after, hblocks⟩ := List.append_of_mem hb
  -- No other block has the declaration below it.
  have hother : ∀ b' ∈ before ++ after, ¬ isAbove d b' := by
    intro b' hb' habove'
    have hpairwise := pairwise_isAbove s d
    rw [hblocks, List.pairwise_append, List.pairwise_cons] at hpairwise
    rcases List.mem_append.1 hb' with hb' | hb'
    · exact hpairwise.2.2 b' hb' b List.mem_cons_self ⟨habove', habove⟩
    · exact hpairwise.2.1.1 b' hb' ⟨habove, habove'⟩
  have hsame : ∀ b' ∈ before ++ after, claimer? (ds ++ [d]) b' = claimer? ds b' :=
    fun b' hb' => claimer?_concat_of_not fun _ => hother b' hb'
  have hbefore := fun b' hb' => hsame b' (List.mem_append_left after hb')
  have hafter := fun b' hb' => hsame b' (List.mem_append_right before hb')
  have hclaimer : claimer? (ds ++ [d]) b = some d := by
    rw [claimer?_concat, hfree, if_pos habove]
    rfl
  refine ⟨?_, ?_⟩
  · have hskip : ∀ b' ∈ before.filter fun b' => (claimer? ds b').isNone, ¬ isAbove d b' :=
      fun b' hb' => hother b' (List.mem_append_left _ (List.mem_filter.1 hb').1)
    have hkeep : (b :: after).filter (fun b' => (claimer? ds b').isNone) =
        b :: after.filter fun b' => (claimer? ds b').isNone :=
      List.filter_cons_of_pos (by rw [hfree]; rfl)
    have hdrop : (b :: after).filter (fun b' => (claimer? (ds ++ [d]) b').isNone) =
        after.filter fun b' => (claimer? (ds ++ [d]) b').isNone :=
      List.filter_cons_of_neg (by rw [hclaimer]; exact Bool.false_ne_true)
    simp only [h.unclaimed, hblocks, List.filter_append]
    rw [hkeep, hdrop, filter_claimer?_congr hbefore, filter_claimer?_congr hafter,
      List.eraseP_append_right _ hskip, List.eraseP_cons_of_pos habove]
  · have hnew : claimedIn (ds ++ [d]) b = (b.notes.filterMap parameterName?).map (d, ·) := by
      rw [claimedIn, hclaimer]
    have hold : claimedIn ds b = [] := by rw [claimedIn, hfree]
    have hclaimed := h.claimed
    rw [hblocks, List.flatMap_append, List.flatMap_cons, hold, List.nil_append] at hclaimed
    rw [hblocks, List.flatMap_append, List.flatMap_cons, hnew, flatMap_claimedIn_congr hbefore,
      flatMap_claimedIn_congr hafter]
    refine (hclaimed.append_right _).trans ?_
    rw [List.append_assoc]
    exact .append_left _ List.perm_append_comm

/-- `CrossReference.record` keeps the ledger. -/
theorem record (h : Ledger s ds x) (d : Declaration) : Ledger s (ds ++ [d]) (x.record d) := by
  rw [CrossReference.record]
  cases hfind : x.unclaimed.find? (isAbove d) with
  | none => exact h.record_of_none hfind
  | some b => exact h.record_of_some hfind

/-- A declaration that was recorded finds no free block when it is recorded again. -/
theorem record_eq_of_mem (h : Ledger s ds x) {d : Declaration} (hd : d ∈ ds) : x.record d = x := by
  have hnone : x.unclaimed.find? (isAbove d) = none := by
    rw [List.find?_eq_none]
    intro b hb
    exact List.find?_eq_none.1 (h.mem_unclaimed.1 hb).2 d hd
  rw [CrossReference.record, hnone]

/-- The names that match no parameter are those of each block. -/
theorem perm_unmatched (h : Ledger s ds x) :
    x.unmatched.Perm (s.blocks.flatMap (unmatchedIn ds)) := by
  have hclaimed := (h.claimed.filter fun y => !y.1.parameterNames.contains y.2.name).map Prod.snd
  rw [List.filter_flatMap, List.map_flatMap] at hclaimed
  rw [unmatched, h.unclaimed, flatMap_filter]
  refine (hclaimed.append_right _).trans ((perm_flatMap_append _ _ _).trans ?_)
  refine .of_eq (congrArg List.flatten (List.map_congr_left fun b _ => ?_))
  rw [unmatchedIn, claimedIn]
  cases claimer? ds b with
  | none => rfl
  | some d => simp [List.filter_map, Function.comp_def]

end Ledger

/-- The cross reference of a file after some declarations. -/
def recorded (s : Source) (ds : List Declaration) : CrossReference :=
  ds.foldl CrossReference.record (ofSource s)

/-- The ledger is kept along every sequence of declarations (`recorded`). -/
theorem ledger_recorded (s : Source) (ds : List Declaration) : Ledger s ds (recorded s ds) := by
  suffices h : ∀ ds' x, Ledger s ds' x → Ledger s (ds' ++ ds) (ds.foldl CrossReference.record x) from
    h [] _ (ledger_ofSource s)
  intro ds' x hx
  induction ds generalizing ds' x with
  | nil => rwa [List.append_nil]
  | cons d ds ih =>
    have hstep := ih (ds' ++ [d]) (x.record d) (hx.record d)
    rwa [List.append_assoc] at hstep

/-! ### Order -/

/-- Recording a declaration again changes nothing, whatever comes in between and after. -/
theorem recorded_append_cons_of_mem (s : Source) {ds : List Declaration} {d : Declaration}
    (hd : d ∈ ds) (more : List Declaration) :
    recorded s (ds ++ d :: more) = recorded s (ds ++ more) := by
  have hagain := (ledger_recorded s ds).record_eq_of_mem hd
  rw [recorded, List.foldl_append, List.foldl_cons, ← recorded, hagain, recorded, recorded,
    List.foldl_append]

/-- For declarations of which no two stand on one line, `claimer?` is the same in every order. -/
theorem claimer?_eq_of_perm {ds ds' : List Declaration} (hperm : ds.Perm ds')
    (hlines : ∀ d ∈ ds, ∀ d' ∈ ds, d.line = d'.line → d = d') (b : CommentBlock) :
    claimer? ds b = claimer? ds' b := by
  cases hclaimer : claimer? ds' b with
  | none =>
    rw [claimer?, List.find?_eq_none] at hclaimer ⊢
    exact fun d hd => hclaimer d (hperm.mem_iff.1 hd)
  | some d =>
    obtain ⟨hmem, habove⟩ := claimer?_eq_some hclaimer
    have hd : d ∈ ds := hperm.mem_iff.2 hmem
    cases hfirst : claimer? ds b with
    | none => exact absurd habove (List.find?_eq_none.1 hfirst d hd)
    | some d' =>
      obtain ⟨hd', habove'⟩ := claimer?_eq_some hfirst
      have hline : d'.line = d.line :=
        (lastLine_of_isAbove habove').symm.trans (lastLine_of_isAbove habove)
      rw [hlines d' hd' d hd hline]

/-- `CrossReference.finish` reports each unmatched name once. -/
theorem perm_finish (s : Source) (ds : List Declaration) :
    ((recorded s ds).finish s).1.Perm ((s.blocks.flatMap (unmatchedIn ds)).map (offense s)) :=
  (Offense.sort_perm _).trans ((ledger_recorded s ds).perm_unmatched.map _)

/-- The order of declarations makes no difference if they are on different lines. -/
theorem finish_eq_of_perm (s : Source) {ds ds' : List Declaration} (hperm : ds.Perm ds')
    (hlines : ∀ d ∈ ds, ∀ d' ∈ ds, d.line = d'.line → d = d') :
    ((recorded s ds').finish s).1 = ((recorded s ds).finish s).1 := by
  refine Offense.sort_eq_of_perm (.map _ ?_)
  have hsame : s.blocks.flatMap (unmatchedIn ds) = s.blocks.flatMap (unmatchedIn ds') :=
    flatMap_unmatchedIn_congr fun b _ => claimer?_eq_of_perm hperm hlines b
  refine (ledger_recorded s ds').perm_unmatched.trans ?_
  rw [← hsame]
  exact (ledger_recorded s ds).perm_unmatched.symm

/-! ### Steps in any order -/

/-- What is done with a cross reference. -/
inductive Step
  | record (d : Declaration)
  | finish

/-- The answers of all steps that finish. -/
def answers (s : Source) (x : CrossReference) : List Step → List (List Offense)
  | [] => []
  | .record d :: rest => answers s (x.record d) rest
  | .finish :: rest => (x.finish s).1 :: answers s (x.finish s).2 rest

/-- From a cross reference that was finished, nothing comes any more. -/
theorem eq_nil_of_mem_answers_empty (s : Source) {steps : List Step} {answer : List Offense}
    (h : answer ∈ answers s ⟨[], []⟩ steps) : answer = [] := by
  induction steps with
  | nil => cases h
  | cons step rest ih =>
    cases step with
    | record d => exact ih h
    | finish =>
      rcases List.mem_cons.1 h with rfl | h
      · exact List.mergeSort_nil
      · exact ih h

/-- Only the first answer has offenses. -/
theorem eq_nil_of_mem_tail_answers (s : Source) {x : CrossReference} {steps : List Step}
    {answer : List Offense} (h : answer ∈ (answers s x steps).tail) : answer = [] := by
  induction steps generalizing x with
  | nil => cases h
  | cons step rest ih =>
    cases step with
    | record d => exact ih h
    | finish => exact eq_nil_of_mem_answers_empty s h

/-- **Cross references are exact.** After any declarations, each block is claimed by the first of
them directly below it, and finishing gives, in order, one offense for every name in a claimed block
that is no parameter of the claimer and for every name in a block that is not claimed, and no other.
Recording a declaration again changes nothing, nor does the order of declarations of which no two
stand on one line. However steps are mixed, only the first that finishes gives offenses. -/
theorem finish_recorded_exact (s : Source) (ds : List Declaration) :
    Ledger s ds (recorded s ds) ∧
    (((recorded s ds).finish s).1.Pairwise fun a b => a.le b) ∧
    ((recorded s ds).finish s).1.Perm ((s.blocks.flatMap (unmatchedIn ds)).map (offense s)) ∧
    (∀ d ∈ ds, ∀ more, recorded s (ds ++ d :: more) = recorded s (ds ++ more)) ∧
    (∀ ds', ds.Perm ds' → (∀ d ∈ ds, ∀ d' ∈ ds, d.line = d'.line → d = d') →
      ((recorded s ds').finish s).1 = ((recorded s ds).finish s).1) ∧
    ∀ steps, ∀ answer ∈ (answers s (ofSource s) steps).tail, answer = [] := by
  refine ⟨ledger_recorded s ds, Offense.pairwise_sort _, perm_finish s ds, ?_, ?_, ?_⟩
  · exact fun d hd more => recorded_append_cons_of_mem s hd more
  · exact fun ds' hperm hlines => finish_eq_of_perm s hperm hlines
  · exact fun steps answer h => eq_nil_of_mem_tail_answers s h

/-- Two methods with a note each, the first of which matches no parameter. -/
def twoMethods : Source :=
  .ofText "# @rbs a: A\ndef m(b); end\n# @rbs c: C\ndef n(c); end".toList

/-- Two methods on different lines, recorded from the last to the first. -/
theorem finish_recorded_reverse :
    ((recorded twoMethods twoMethods.declarations.reverse).finish twoMethods).1 =
      ((recorded twoMethods twoMethods.declarations).finish twoMethods).1 := by
  have hlines : ∀ d ∈ twoMethods.declarations, ∀ d' ∈ twoMethods.declarations,
      d.line = d'.line → d = d' := by decide +kernel
  exact (finish_recorded_exact _ _).2.2.2.2.1 _ (List.reverse_perm _).symm hlines

end CrossReference

end TypeNotes
