import Mathlib.Data.List.Chain
import TypeNotes.Proofs.Rule.CrossReference

/-!
# Grouping comments into blocks

A grouping cuts a list of comments into blocks. The comments of one block stand on lines of their
own, on consecutive lines, in the same column; a single comment may also stand behind code. The
grouping of a file is the coarsest one: all others refine it, and it is the only one in which no two
neighbouring blocks can be merged (`CommentBlock.isCoarsest_group`).
-/

namespace TypeNotes

open Ruby

namespace CommentBlock

/-! ### Groupings -/

/-- What is asked of the comments of one block if there are at least two of them. -/
def Uniform (cs : List Comment) : Prop :=
  2 ≤ cs.length → (∀ c ∈ cs, c.inline = false) ∧ (cs.IsChain fun a b => a.line + 1 = b.line) ∧
    ∀ a ∈ cs, ∀ b ∈ cs, a.column = b.column

/-- The blocks are the comments of a list in their order, and each of them is uniform. No block is
empty, since a block has a first comment. -/
structure IsGrouping (l : List Comment) (bs : List CommentBlock) : Prop where
  flatMap_comments : bs.flatMap comments = l
  uniform : ∀ b ∈ bs, Uniform b.comments

/-- No two neighbouring blocks can be merged. -/
def IsCoarse (bs : List CommentBlock) : Prop :=
  bs.IsChain fun a b => ¬ Uniform (a.comments ++ b.comments)

/-- Each block of the second list is made of blocks of the first list that follow each other. -/
def Refines (parts bs : List CommentBlock) : Prop :=
  ∃ groups : List (List CommentBlock), groups.flatten = parts ∧
    groups.map (·.flatMap comments) = bs.map comments

theorem joins_iff {a b : Comment} :
    joins a b ↔ a.inline = false ∧ b.inline = false ∧ a.line + 1 = b.line ∧ a.column = b.column := by
  simp [joins, and_assoc]

theorem eq_first_of_isChain {c : Comment} {cs : List Comment}
    (h : (c :: cs).IsChain fun a b => joins a b) :
    ∀ d ∈ c :: cs, d.inline = c.inline ∧ d.column = c.column := by
  induction cs generalizing c with
  | nil => simp
  | cons e cs ih =>
    obtain ⟨hjoin, hchain⟩ := List.isChain_cons_cons.1 h
    obtain ⟨hc, he, -, hcolumn⟩ := joins_iff.1 hjoin
    refine List.forall_mem_cons.2 ⟨⟨rfl, rfl⟩, fun d hd => ?_⟩
    obtain ⟨hinline, hd⟩ := ih hchain d hd
    exact ⟨by rw [hinline, he, hc], by rw [hd, hcolumn]⟩

/-- Neighbours alone tell whether comments are `Uniform`. -/
theorem uniform_iff_isChain {cs : List Comment} :
    Uniform cs ↔ cs.IsChain fun a b => joins a b := by
  constructor
  · intro h
    match cs, h with
    | [], _ => exact .nil
    | [c], _ => exact .singleton c
    | c :: d :: cs, h =>
      obtain ⟨hown, hlines, hcolumn⟩ := h (by simp)
      refine hlines.imp_of_mem_imp fun a b ha hb hline => ?_
      exact joins_iff.2 ⟨hown a ha, hown b hb, hline, hcolumn a ha b hb⟩
  · intro h hlength
    match cs, hlength with
    | c :: d :: cs, _ =>
      have hc : c.inline = false := (joins_iff.1 (List.isChain_cons_cons.1 h).1).1
      have hfirst := eq_first_of_isChain h
      refine ⟨fun e he => (hfirst e he).1.trans hc, ?_, fun a ha b hb => ?_⟩
      · exact h.imp fun a b hjoin => (joins_iff.1 hjoin).2.2.1
      · rw [(hfirst a ha).2, (hfirst b hb).2]

theorem uniform_append_iff {a b : CommentBlock} (ha : Uniform a.comments)
    (hb : Uniform b.comments) : Uniform (a.comments ++ b.comments) ↔ joins a.last b.first := by
  rw [uniform_iff_isChain] at ha hb ⊢
  have hlast : a.comments.getLast? = some a.last := by
    rw [comments, List.getLast?_cons, last, List.getLastD_eq_getLast?]
  have hfirst : b.comments.head? = some b.first := rfl
  rw [List.isChain_append]
  simp [ha, hb, hlast, hfirst]

/-! ### A block in front -/

/-- A block in front of others: it is merged with the next one if they belong together. -/
def addFront (b : CommentBlock) : List CommentBlock → List CommentBlock
  | [] => [b]
  | next :: more =>
    if joins b.last next.first then ⟨b.first, b.more ++ next.comments⟩ :: more
    else b :: next :: more

theorem group_cons (c : Comment) (l : List Comment) :
    group (c :: l) = addFront ⟨c, []⟩ (group l) := by
  rw [group]
  cases group l with
  | nil => rfl
  | cons b more => simp [addFront, last]

/-- A comment put with `addFront` in front of a block that it joins becomes the first of that block,
whatever the block is merged with. -/
theorem addFront_addFront {c : Comment} {b : CommentBlock} (h : joins c b.first)
    (bs : List CommentBlock) :
    addFront ⟨c, []⟩ (addFront b bs) = addFront ⟨c, b.comments⟩ bs := by
  cases bs with
  | nil => simp [addFront, last, h]
  | cons next more =>
    have hlast : CommentBlock.last ⟨c, b.comments⟩ = b.last := by
      rw [last, comments, List.getLastD_cons, last]
    have hsingle : CommentBlock.last ⟨c, []⟩ = c := rfl
    by_cases hjoin : joins b.last next.first
    · simp [addFront, hlast, hsingle, hjoin, h]
      rfl
    · simp [addFront, hlast, hsingle, hjoin, h]

theorem group_append {b : CommentBlock} (hb : Uniform b.comments) (l : List Comment) :
    group (b.comments ++ l) = addFront b (group l) := by
  obtain ⟨c, more⟩ := b
  rw [uniform_iff_isChain, comments] at hb
  rw [comments]
  dsimp only at hb ⊢
  induction more generalizing c with
  | nil => exact group_cons c l
  | cons d more ih =>
    obtain ⟨hjoin, hchain⟩ := List.isChain_cons_cons.1 hb
    rw [List.cons_append, group_cons, ih d hchain, addFront_addFront hjoin]
    rfl

/-- `addFront` keeps a grouping coarse. -/
theorem addFront_induction {b : CommentBlock} {bs : List CommentBlock} (hb : Uniform b.comments)
    (hbs : ∀ a ∈ bs, Uniform a.comments) (hcoarse : IsCoarse bs) :
    (∀ a ∈ addFront b bs, Uniform a.comments) ∧ IsCoarse (addFront b bs) := by
  cases bs with
  | nil => simpa [addFront, IsCoarse] using hb
  | cons next more =>
    obtain ⟨hnext, hmore⟩ := List.forall_mem_cons.1 hbs
    by_cases hjoin : joins b.last next.first
    · rw [addFront, if_pos hjoin]
      set merged : CommentBlock := ⟨b.first, b.more ++ next.comments⟩
      have hmerged : Uniform merged.comments := (uniform_append_iff hb hnext).2 hjoin
      refine ⟨List.forall_mem_cons.2 ⟨hmerged, hmore⟩, ?_⟩
      have hlast : merged.last = next.last := by
        simp [merged, last, comments, List.getLastD_eq_getLast?, List.getLast?_append,
          List.getLast?_cons]
      refine (List.isChain_cons.1 hcoarse).2.cons fun a ha => ?_
      have huniform := hmore a (List.mem_of_mem_head? ha)
      have hapart := (List.isChain_cons.1 hcoarse).1 a ha
      rwa [uniform_append_iff hmerged huniform, hlast, ← uniform_append_iff hnext huniform]
    · rw [addFront, if_neg hjoin]
      refine ⟨List.forall_mem_cons.2 ⟨hb, hbs⟩, List.isChain_cons_cons.2 ⟨?_, hcoarse⟩⟩
      rwa [uniform_append_iff hb hnext]

/-! ### The coarsest grouping -/

theorem isGrouping_group (l : List Comment) : IsGrouping l (group l) ∧ IsCoarse (group l) := by
  have h : (∀ b ∈ group l, Uniform b.comments) ∧ IsCoarse (group l) := by
    induction l with
    | nil => exact ⟨by simp [group], .nil⟩
    | cons c l ih =>
      rw [group_cons]
      exact addFront_induction (by simp [Uniform, comments]) ih.1 ih.2
  exact ⟨⟨flatMap_comments_group l, h.1⟩, h.2⟩

theorem eq_group {l : List Comment} {bs : List CommentBlock} (h : IsGrouping l bs)
    (hcoarse : IsCoarse bs) : bs = group l := by
  obtain ⟨rfl, huniform⟩ := h
  induction bs with
  | nil => rfl
  | cons b bs ih =>
    obtain ⟨hb, hbs⟩ := List.forall_mem_cons.1 huniform
    obtain ⟨hapart, htail⟩ := List.isChain_cons.1 hcoarse
    rw [List.flatMap_cons, group_append hb, ← ih htail hbs]
    cases bs with
    | nil => rfl
    | cons next more =>
      have hjoin := hapart next rfl
      rw [uniform_append_iff hb (hbs next List.mem_cons_self)] at hjoin
      rw [addFront, if_neg hjoin]

theorem refines_group {l : List Comment} {parts : List CommentBlock} (h : IsGrouping l parts) :
    Refines parts (group l) := by
  obtain ⟨rfl, huniform⟩ := h
  induction parts with
  | nil => exact ⟨[], rfl, rfl⟩
  | cons b parts ih =>
    obtain ⟨hb, hparts⟩ := List.forall_mem_cons.1 huniform
    obtain ⟨groups, rfl, hgroups⟩ := ih hparts
    rw [List.flatMap_cons, group_append hb]
    -- the part is a block of its own or the front of the first block
    generalize group (groups.flatten.flatMap comments) = bs at hgroups
    have halone : Refines (b :: groups.flatten) (b :: bs) :=
      ⟨[b] :: groups, rfl, by simp [hgroups]⟩
    cases bs with
    | nil => exact halone
    | cons next more =>
      by_cases hjoin : joins b.last next.first
      · rw [addFront, if_pos hjoin]
        obtain ⟨g, rest, rfl, hg, hrest⟩ := List.map_eq_cons_iff.1 hgroups
        exact ⟨(b :: g) :: rest, rfl, by simp [hg, hrest, comments]⟩
      · rwa [addFront, if_neg hjoin]

/-! ### Inline comments and leading blocks -/

theorem eq_singleton_of_inline {b : CommentBlock} (hb : Uniform b.comments) {c : Comment}
    (hc : c ∈ b.comments) (hinline : c.inline) : b = ⟨c, []⟩ := by
  obtain ⟨first, more⟩ := b
  cases more with
  | nil =>
    obtain rfl : c = first := List.mem_singleton.1 hc
    rfl
  | cons d more =>
    have hown := (hb (by simp [comments])).1 c hc
    rw [hinline] at hown
    contradiction

theorem isLeading_eq {b : CommentBlock} (hb : Uniform b.comments) :
    b.isLeading = !b.first.inline := by
  rw [uniform_iff_isChain] at hb
  rw [isLeading, Bool.eq_iff_iff, List.all_eq_true]
  refine ⟨fun h => h b.first List.mem_cons_self, fun h c hc => ?_⟩
  rwa [(eq_first_of_isChain hb c hc).1]

theorem pairwise_lastLine_group {l : List Comment} (h : l.Pairwise fun a b => a.line < b.line) :
    (group l).Pairwise fun a b => a.lastLine < b.lastLine := by
  rw [← flatMap_comments_group l] at h
  refine (List.pairwise_flatMap.1 h).2.imp fun {a b} hab => ?_
  exact hab _ a.last_mem_comments _ b.last_mem_comments

theorem length_filter_lastLine_le {bs : List CommentBlock}
    (h : bs.Pairwise fun a b => a.lastLine < b.lastLine) (n : Nat) :
    (bs.filter fun b => b.isLeading && b.lastLine == n).length ≤ 1 := by
  have hsame : ∀ d ∈ bs.filter fun b => b.isLeading && b.lastLine == n, d.lastLine = n := by
    intro d hd
    simpa using (Bool.and_eq_true_iff.1 (List.mem_filter.1 hd).2).2
  have hsorted := h.filter fun b => b.isLeading && b.lastLine == n
  generalize (bs.filter fun b => b.isLeading && b.lastLine == n) = found at hsame hsorted
  match found, hsame, hsorted with
  | [], _, _ => simp
  | [_], _, _ => simp
  | a :: b :: more, hsame, hsorted =>
    have hlt := (List.pairwise_cons.1 hsorted).1 b List.mem_cons_self
    rw [hsame a List.mem_cons_self, hsame b (by simp)] at hlt
    exact absurd hlt (lt_irrefl n)

/-- The blocks of comments that stand in order, at most one on a line, are their coarsest grouping.
A comment behind code is a block by itself, a block is leading if its first comment stands on a line
of its own, and at most one leading block ends on a given line. -/
theorem isCoarsest_group {l : List Comment} (hl : l.Pairwise fun a b => a.line < b.line) :
    (IsGrouping l (group l) ∧ IsCoarse (group l)) ∧
      (∀ bs, IsGrouping l bs → IsCoarse bs → bs = group l) ∧
      (∀ parts, IsGrouping l parts → Refines parts (group l)) ∧
      (∀ b ∈ group l, ∀ c ∈ b.comments, c.inline → b = ⟨c, []⟩) ∧
      (∀ b ∈ group l, b.isLeading ↔ b.first.inline = false) ∧
      ∀ n, ((group l).filter fun b => b.isLeading && b.lastLine == n).length ≤ 1 := by
  have hgroup := isGrouping_group l
  refine ⟨hgroup, fun bs => eq_group, fun parts => refines_group, ?_, ?_, ?_⟩
  · intro b hb c
    exact eq_singleton_of_inline (hgroup.1.uniform b hb)
  · intro b hb
    rw [isLeading_eq (hgroup.1.uniform b hb), Bool.not_eq_true']
  · exact length_filter_lastLine_le (pairwise_lastLine_group hl)

/-- Two comments under each other, and a third one behind code on the next line. -/
def twoAndInline : List Comment :=
  [⟨"# one".toList, 0, 5, 0, 5, 1, 0, false⟩, ⟨"# two".toList, 6, 11, 6, 11, 2, 0, false⟩,
    ⟨"# three".toList, 18, 25, 18, 25, 3, 6, true⟩]

theorem isCoarsest_group_twoAndInline :
    (twoAndInline.Pairwise fun a b => a.line < b.line) ∧
      (group twoAndInline).map (·.comments.length) = [2, 1] ∧
      ∀ bs, IsGrouping twoAndInline bs → IsCoarse bs → bs = group twoAndInline := by
  have hlines : twoAndInline.Pairwise fun a b => a.line < b.line := by decide
  exact ⟨hlines, by decide, (isCoarsest_group hlines).2.1⟩

end CommentBlock

/-- Blocks share no comment. -/
theorem eq_of_mem_comments_of_mem_blocks {s : Source} {b b' : CommentBlock} (hb : b ∈ s.blocks)
    (hb' : b' ∈ s.blocks) {c : Comment} (hc : c ∈ b.comments) (hc' : c ∈ b'.comments) : b = b' := by
  have hdisjoint : s.blocks.Pairwise fun a b => a.comments.Disjoint b.comments := by
    refine s.pairwise_comments_blocks.imp fun {a b} hbefore c ha hb => ?_
    exact Nat.lt_irrefl _ (hbefore c ha c hb).line
  have hsymm : Std.Symm fun a b : CommentBlock => a.comments.Disjoint b.comments :=
    ⟨fun _ _ h _ hc hc' => h hc' hc⟩
  by_contra hne
  exact hdisjoint.forall hb hb' hne hc hc'

/-- Comments that join, one right after the other, stand in one block of `group`. -/
theorem CommentBlock.exists_mem_group_of_joins {a d : Comment} (h : joins a d)
    (above below : List Comment) :
    ∃ b ∈ group (above ++ a :: d :: below), a ∈ b.comments ∧ d ∈ b.comments := by
  induction above with
  | nil =>
    obtain ⟨first, rest, hgroup⟩ : ∃ first rest, group (d :: below) = first :: rest := by
      rw [group]
      split
      · exact ⟨_, _, rfl⟩
      · split <;> exact ⟨_, _, rfl⟩
    have hfirst : first.first = d := by
      have hflat := flatMap_comments_group (d :: below)
      rw [hgroup, List.flatMap_cons, comments, List.cons_append] at hflat
      exact (List.cons.inj hflat).1
    rw [List.nil_append, group, hgroup]
    simp only [hfirst, h, if_true]
    exact ⟨_, List.mem_cons_self, List.mem_cons_self, by simp [comments, hfirst]⟩
  | cons c above ih =>
    obtain ⟨b, hb, ha, hd⟩ := ih
    rw [List.cons_append, group]
    generalize group (above ++ a :: d :: below) = bs at hb
    cases bs with
    | nil => cases hb
    | cons next more =>
      simp only
      rcases List.mem_cons.1 hb with rfl | hb
      · -- the comment in front may become the first of the block
        split
        · exact ⟨_, List.mem_cons_self, List.mem_cons_of_mem _ ha, List.mem_cons_of_mem _ hd⟩
        · exact ⟨b, by simp, ha, hd⟩
      · split
        · exact ⟨b, List.mem_cons_of_mem _ hb, ha, hd⟩
        · exact ⟨b, by simp [hb], ha, hd⟩

/-- Where comments stand in order, one on the next line comes next. -/
theorem exists_append_of_line {l : List Comment} (hl : l.Pairwise fun a b => a.line < b.line)
    {a d : Comment} (ha : a ∈ l) (hd : d ∈ l) (hline : a.line + 1 = d.line) :
    ∃ above below, l = above ++ a :: d :: below := by
  obtain ⟨above, rest, rfl⟩ := List.append_of_mem ha
  obtain ⟨-, hrest, habove⟩ := List.pairwise_append.1 hl
  obtain ⟨hfirst, hrest⟩ := List.pairwise_cons.1 hrest
  have hmem : d ∈ rest := by
    rcases List.mem_append.1 hd with hmem | hmem
    · have hlt := habove d hmem a List.mem_cons_self
      omega
    · rcases List.mem_cons.1 hmem with rfl | hmem
      · omega
      · exact hmem
  cases rest with
  | nil => cases hmem
  | cons e below =>
    rcases List.mem_cons.1 hmem with rfl | hmem
    · exact ⟨above, below, rfl⟩
    · have hlt := (List.pairwise_cons.1 hrest).1 d hmem
      have hlt' := hfirst e List.mem_cons_self
      omega

/-- A comment on the next line that joins a comment of a block is in the same block. -/
theorem mem_comments_of_joins {s : Source} {b : CommentBlock} (hb : b ∈ s.blocks) {a d : Comment}
    (ha : a ∈ b.comments) (hd : d ∈ s.comments) (h : CommentBlock.joins a d) : d ∈ b.comments := by
  have hsorted : s.comments.Pairwise fun a b => a.line < b.line :=
    s.pairwise_comments.imp fun hbefore => hbefore.line
  obtain ⟨above, below, hparts⟩ := exists_append_of_line hsorted
    ((CommentBlock.sublist_of_mem_group hb).subset ha) hd (CommentBlock.joins_iff.1 h).2.2.1
  obtain ⟨b', hb', hab, hdb⟩ := CommentBlock.exists_mem_group_of_joins h above below
  rw [← hparts] at hb'
  obtain rfl := eq_of_mem_comments_of_mem_blocks hb hb' ha hab
  exact hdb

/-- `leadingBlock?` finds the only leading block that ends right above a line. -/
theorem leadingBlock?_eq_some_iff {s : Source} {line : Nat} {b : CommentBlock} :
    leadingBlock? s.blocks line = some b ↔
      b ∈ s.blocks ∧ b.first.inline = false ∧ b.lastLine + 1 = line := by
  have huniform := (CommentBlock.isGrouping_group s.comments).1.uniform
  set above : CommentBlock → Bool := fun b => b.isLeading && b.lastLine + 1 == line
  have habove : ∀ b ∈ s.blocks, above b ↔ b.first.inline = false ∧ b.lastLine + 1 = line := by
    intro b hb
    simp [above, CommentBlock.isLeading_eq (huniform b hb)]
  constructor
  · intro h
    have hb : b ∈ s.blocks := List.mem_of_find?_eq_some h
    have hfound : above b := List.find?_some h
    exact ⟨hb, (habove b hb).1 hfound⟩
  · rintro ⟨hb, h⟩
    obtain ⟨found, hfound⟩ : ∃ found, s.blocks.find? above = some found :=
      Option.isSome_iff_exists.1 (List.find?_isSome.2 ⟨b, hb, (habove b hb).2 h⟩)
    have hmem := List.mem_of_find?_eq_some hfound
    have hline := ((habove found hmem).1 (List.find?_some hfound)).2
    -- blocks that end on the same line are the same block
    have heq : found = b := by
      by_contra hne
      have hsymm : Std.Symm fun a b : CommentBlock => a.lastLine ≠ b.lastLine :=
        ⟨fun _ _ => Ne.symm⟩
      have hdiffer : s.blocks.Pairwise fun a b => a.lastLine ≠ b.lastLine :=
        s.pairwise_blocks.imp fun hlt => hlt.ne
      exact hdiffer.forall hmem hb hne (by omega)
    rw [leadingBlock?, hfound, heq]

end TypeNotes
