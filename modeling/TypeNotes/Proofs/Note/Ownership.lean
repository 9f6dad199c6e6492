import Mathlib.Data.List.Nodup
import Mathlib.Data.List.TakeWhile
import Mathlib.Data.Nat.Basic
import TypeNotes.Proofs.Note.Order

/-!
# Which line belongs to which entry

A line of a block opens an entry if it has a marker or starts with a colon. All other lines may
belong to the entry of a marker above them, if every line from the marker down to them is blank or
indented deeper than the marker. Here this is said of line numbers in the block, with no mention of
how entries are gathered, and the entries of a block are exactly these
(`CommentBlock.openedAt_entries`).
-/

namespace TypeNotes

open Ruby

/-! ### Lines of a block -/

/-- Whether a line opens an entry. -/
def opensEntry (c : Comment) : Bool := (Marker.ofBody? c.body).isSome || isColonLine c

/-- The numbers of the lines that open an entry. -/
def openers (cs : List Comment) : List Nat := cs.findIdxs opensEntry

/-- The marker on a line. -/
def markerAt? (cs : List Comment) (i : Nat) : Option Marker := cs[i]?.bind (Marker.ofBody? ·.body)

/-- Line `j` belongs to the entry that the marker on line `i` opens: from there on, no line opens an
entry, and each is blank or indented deeper than the marker. -/
def Belongs (cs : List Comment) (i j : Nat) : Prop :=
  i < j ∧ ∃ m ∈ markerAt? cs i, ∀ k ≤ j, i < k →
    ∃ c ∈ cs[k]?, opensEntry c = false ∧ (Text.isBlank c.body ∨ m.indent < indentation c.body)

instance (cs : List Comment) (i j : Nat) : Decidable (Belongs cs i j) :=
  inferInstanceAs (Decidable (_ ∧ _))

/-- The numbers of the lines of the entry that line `i` opens. -/
def linesOf (cs : List Comment) (i : Nat) : List Nat :=
  i :: (List.range cs.length).filter fun j => Belongs cs i j

/-- What the entry that line `i` opens is like. -/
inductive OpenedAt (cs : List Comment) (i : Nat) (e : Entry) : Prop
  /-- After a marker stand the lines that belong to it. -/
  | marker {m : Marker} (line : markerAt? cs i = some m)
      (kind : e.kind = if m.bang then .embedded else .marked)
      (comments : e.comments = (linesOf cs i).filterMap (cs[·]?))
  /-- A line with a colon stands alone. -/
  | colon {c : Comment} (line : cs[i]? = some c) (unmarked : markerAt? cs i = none)
      (colon : isColonLine c) (kind : e.kind = .assertion) (comments : e.comments = [c])

theorem Marker.owns_iff {m : Marker} {c : Comment} : m.owns c ↔
    opensEntry c = false ∧ (Text.isBlank c.body ∨ m.indent < indentation c.body) := by
  simp [Marker.owns, opensEntry, and_assoc]

/-! ### Lines in front -/

section Front

variable (l r : List Comment)

theorem openers_append : openers (l ++ r) = openers l ++ (openers r).map (l.length + ·) := by
  rw [openers, openers, openers, List.findIdxs_append, @List.findIdxs_start _ r]
  simp [Nat.add_comm]

theorem getElem?_front (i : Nat) : (l ++ r)[l.length + i]? = r[i]? := by
  rw [List.getElem?_append_right (Nat.le_add_right _ _), Nat.add_sub_cancel_left]

theorem markerAt?_append (i : Nat) : markerAt? (l ++ r) (l.length + i) = markerAt? r i := by
  rw [markerAt?, getElem?_front, markerAt?]

theorem belongs_append (i j : Nat) :
    Belongs (l ++ r) (l.length + i) (l.length + j) ↔ Belongs r i j := by
  rw [Belongs, Belongs, markerAt?_append, Nat.add_lt_add_iff_left]
  refine and_congr_right fun _ => exists_congr fun m => and_congr_right fun _ => ?_
  constructor
  · intro h k hkj hik
    have hk := h (l.length + k) (by omega) (by omega)
    rwa [getElem?_front] at hk
  · intro h k hkj hik
    obtain ⟨k, rfl⟩ := Nat.exists_eq_add_of_le (show l.length ≤ k by omega)
    rw [getElem?_front]
    exact h k (by omega) (by omega)

theorem linesOf_append (i : Nat) :
    linesOf (l ++ r) (l.length + i) = (linesOf r i).map (l.length + ·) := by
  have hfront : (List.range l.length).filter (fun j => Belongs (l ++ r) (l.length + i) j) = [] := by
    refine List.filter_eq_nil_iff.2 fun j hj hbelongs => ?_
    have hlt := (of_decide_eq_true hbelongs).1
    rw [List.mem_range] at hj
    omega
  rw [linesOf, linesOf, List.length_append, List.range_add, List.filter_append, hfront,
    List.nil_append, List.filter_map, List.map_cons]
  simp [Function.comp_def, belongs_append]

theorem OpenedAt.append {i : Nat} {e : Entry} (h : OpenedAt r i e) :
    OpenedAt (l ++ r) (l.length + i) e := by
  cases h with
  | marker line kind comments =>
    refine .marker ((markerAt?_append l r i).trans line) kind ?_
    rw [comments, linesOf_append, List.filterMap_map]
    simp [getElem?_front]
  | colon line unmarked colon kind comments =>
    exact .colon ((getElem?_front l r i).trans line) ((markerAt?_append l r i).trans unmarked)
      colon kind comments

end Front

/-! ### The first line -/

theorem lt_length_takeWhile_iff {α : Type} {p : α → Bool} {l : List α} {j : Nat} :
    j < (l.takeWhile p).length ↔ ∀ k ≤ j, ∃ a ∈ l[k]?, p a := by
  rw [List.takeWhile_eq_take_findIdx_not, List.length_take,
    Nat.min_eq_left List.findIdx_le_length, List.lt_findIdx_iff]
  constructor
  · rintro ⟨hj, h⟩ k hk
    have hlt : k < l.length := by omega
    exact ⟨l[k], List.getElem?_eq_getElem hlt, by simpa using h k hk⟩
  · intro h
    obtain ⟨_, hj, _⟩ := h j le_rfl
    refine ⟨(List.getElem?_eq_some_iff.1 hj).1, fun k hk => ?_⟩
    obtain ⟨a, ha, hp⟩ := h k hk
    rw [(List.getElem?_eq_some_iff.1 ha).2, hp, Bool.not_true]

theorem belongs_zero_iff {c : Comment} {m : Marker} (hm : Marker.ofBody? c.body = some m)
    (rest : List Comment) (j : Nat) :
    Belongs (c :: rest) 0 (j + 1) ↔ j < (rest.takeWhile m.owns).length := by
  have hmarker : markerAt? (c :: rest) 0 = some m := hm
  simp only [Belongs, hmarker, Option.mem_some_iff, exists_eq_left', Nat.succ_pos, true_and,
    lt_length_takeWhile_iff, Marker.owns_iff]
  constructor
  · intro h k hk
    exact h (k + 1) (Nat.succ_le_succ hk) (Nat.succ_pos k)
  · rintro h (_ | k) hk hpos
    · contradiction
    · exact h k (Nat.le_of_succ_le_succ hk)

/-- `linesOf` the first entry are the first lines of the block. -/
theorem linesOf_zero {c : Comment} {m : Marker} (hm : Marker.ofBody? c.body = some m)
    (rest : List Comment) :
    linesOf (c :: rest) 0 = List.range (c :: rest.takeWhile m.owns).length := by
  set own := rest.takeWhile m.owns
  have hlength : rest.length = own.length + (rest.dropWhile m.owns).length := by
    rw [← List.length_append, List.takeWhile_append_dropWhile]
  have hself : ¬ Belongs (c :: rest) 0 0 := fun h => lt_irrefl 0 h.1
  have hfilter : (fun j => decide (Belongs (c :: rest) 0 j)) ∘ Nat.succ =
      fun j => decide (j < own.length) := by
    funext j
    exact decide_eq_decide.2 (belongs_zero_iff hm rest j)
  have hrange : (List.range rest.length).filter (fun j => decide (j < own.length)) =
      List.range own.length := by
    rw [hlength, List.range_add, List.filter_append, List.filter_eq_self.2 (by simp),
      List.filter_eq_nil_iff.2 (by simp), List.append_nil]
  rw [linesOf, List.length_cons, List.length_cons, List.range_succ_eq_map,
    List.filter_cons_of_neg (by simpa using hself), List.filter_map, List.range_succ_eq_map,
    hfilter, hrange]

theorem linesOf_zero_of_none {c : Comment} (hc : Marker.ofBody? c.body = none)
    (rest : List Comment) : linesOf (c :: rest) 0 = [0] := by
  have hnone : ∀ j, ¬ Belongs (c :: rest) 0 j := by
    rintro j ⟨-, m, hm, -⟩
    have hmarker : markerAt? (c :: rest) 0 = none := hc
    rw [hmarker] at hm
    contradiction
  simp [linesOf, hnone]

theorem openers_cons (c : Comment) (rest : List Comment) :
    openers (c :: rest) =
      (if opensEntry c then [0] else []) ++ (openers rest).map ([c].length + ·) := by
  rw [← List.singleton_append, openers_append, openers, List.findIdxs_singleton]

/-- In `openers`, the next entry after a marker is opened behind the lines that the marker owns. -/
theorem openers_of_marker {c : Comment} {m : Marker} (hm : Marker.ofBody? c.body = some m)
    (rest : List Comment) :
    c :: rest = (c :: rest.takeWhile m.owns) ++ rest.dropWhile m.owns ∧
      openers (c :: rest) =
        0 :: (openers (rest.dropWhile m.owns)).map ((c :: rest.takeWhile m.owns).length + ·) := by
  have hblock : c :: rest = (c :: rest.takeWhile m.owns) ++ rest.dropWhile m.owns := by
    rw [List.cons_append, List.takeWhile_append_dropWhile]
  have howned : openers (rest.takeWhile m.owns) = [] :=
    List.findIdxs_eq_nil_iff.2 fun _ hc => (Marker.owns_iff.1 (List.mem_takeWhile_imp hc)).1
  have hfirst : openers (c :: rest.takeWhile m.owns) = [0] := by
    simp [openers_cons, howned, opensEntry, hm]
  refine ⟨hblock, ?_⟩
  conv_lhs => rw [hblock, openers_append, hfirst]
  rfl

/-! ### Gathering -/

theorem filterMap_range_append (l r : List Comment) :
    (List.range l.length).filterMap ((l ++ r)[·]?) = l := by
  induction l with
  | nil => rfl
  | cons c l ih =>
    rw [List.length_cons, List.range_succ_eq_map, List.filterMap_cons, List.filterMap_map]
    exact congrArg (c :: ·) ih

/-- `Entry.gather` gives the entries opened by the `openers`, in their order. -/
theorem openedAt_gather (cs : List Comment) :
    List.Forall₂ (OpenedAt cs) (openers cs) (Entry.gather cs) := by
  have hfront : ∀ (l : List Comment) {r : List Comment} {es : List Entry},
      List.Forall₂ (OpenedAt r) (openers r) es →
        List.Forall₂ (OpenedAt (l ++ r)) ((openers r).map (l.length + ·)) es := fun l r es h =>
    List.forall₂_map_left_iff.2 (h.imp fun _ _ => OpenedAt.append l r)
  fun_induction Entry.gather cs with
  | case1 => exact .nil
  | case2 c rest m hm ih =>
    obtain ⟨hblock, hopeners⟩ := openers_of_marker hm rest
    have hrest := hfront (c :: rest.takeWhile m.owns) ih
    rw [← hblock] at hrest
    rw [hopeners]
    refine .cons (.marker hm rfl ?_) hrest
    rw [linesOf_zero hm, m.comments_entry]
    conv_rhs => rw [hblock, filterMap_range_append]
  | case3 c rest hm hcolon ih =>
    rw [openers_cons, opensEntry, hcolon, Bool.or_true, if_pos rfl]
    exact .cons (.colon rfl hm hcolon rfl rfl) (hfront [c] ih)
  | case4 c rest hm hcolon ih =>
    rw [openers_cons, opensEntry, hm, Option.isSome_none, Bool.false_or, if_neg hcolon]
    exact hfront [c] ih

/-- No line belongs to two entries, and taking `linesOf` each opener keeps the order of the block.
-/
theorem flatMap_linesOf_sublist (cs : List Comment) :
    ((openers cs).flatMap (linesOf cs)).Sublist (List.range cs.length) := by
  have hfront : ∀ (l r : List Comment),
      ((openers r).flatMap (linesOf r)).Sublist (List.range r.length) →
        (((openers r).map (l.length + ·)).flatMap (linesOf (l ++ r))).Sublist
          ((List.range r.length).map (l.length + ·)) := fun l r h => by
    rw [List.flatMap_map]
    simp only [linesOf_append]
    rw [← List.map_flatMap]
    exact h.map _
  have hrange : ∀ (c : Comment) (rest : List Comment), List.range (c :: rest).length =
      [0] ++ (List.range rest.length).map ([c].length + ·) := fun c rest => by
    rw [← List.singleton_append, List.length_append, List.range_add]
    rfl
  fun_induction Entry.gather cs with
  | case1 => exact List.nil_sublist _
  | case2 c rest m hm ih =>
    obtain ⟨hblock, hopeners⟩ := openers_of_marker hm rest
    have hrest := hfront (c :: rest.takeWhile m.owns) _ ih
    rw [← hblock] at hrest
    rw [hopeners, List.flatMap_cons, linesOf_zero hm]
    conv_rhs => rw [hblock, List.length_append, List.range_add]
    exact (List.Sublist.refl _).append hrest
  | case3 c rest hm hcolon ih =>
    rw [openers_cons, opensEntry, hcolon, Bool.or_true, if_pos rfl, List.flatMap_append,
      List.flatMap_singleton, linesOf_zero_of_none hm, hrange]
    exact (List.Sublist.refl _).append (hfront [c] rest ih)
  | case4 c rest hm hcolon ih =>
    rw [openers_cons, opensEntry, hm, Option.isSome_none, Bool.false_or, if_neg hcolon, hrange]
    exact (List.nil_sublist _).append (hfront [c] rest ih)

theorem openers_of_isApplication {b : CommentBlock} (h : b.isApplication) :
    openers b.comments = [] := by
  obtain ⟨c, more⟩ := b
  simp only [CommentBlock.isApplication, Bool.and_eq_true, List.isEmpty_iff, beq_iff_eq] at h
  obtain ⟨⟨rfl, -⟩, hbody⟩ := h
  obtain ⟨rest, hrest⟩ : ∃ rest, c.body = '[' :: rest := List.head?_eq_some_iff.1 hbody
  have hmarker : Marker.ofBody? c.body = none := by
    have hspace : Unicode.isSpace '[' = false := by decide
    simp [Marker.ofBody?, hrest, Text.trimLeft, hspace, Text.after?]
  simp [CommentBlock.comments, openers, opensEntry, hmarker, isColonLine, hbody]

/-- The entries of a block, told by the lines that open them and the lines that belong to these.
A single comment behind code that starts with a bracket is an entry by itself, though no line opens
one. No comment is in two entries, and the comments of the entries come in the order of the
block. -/
theorem CommentBlock.openedAt_entries (b : CommentBlock) :
    (if b.isApplication then
        openers b.comments = [] ∧ b.entries = [⟨.application, .ofBody b.first 0, []⟩]
      else List.Forall₂ (OpenedAt b.comments) (openers b.comments) b.entries) ∧
      (openers b.comments).Pairwise
        (fun i i' => (linesOf b.comments i).Disjoint (linesOf b.comments i')) ∧
      (b.entries.flatMap Entry.comments).Sublist b.comments := by
  refine ⟨?_, ?_, b.flatMap_comments_entries⟩
  · rw [CommentBlock.entries]
    split
    · next happlication => exact ⟨openers_of_isApplication happlication, rfl⟩
    · exact openedAt_gather b.comments
  · have hnodup := List.nodup_range.sublist (flatMap_linesOf_sublist b.comments)
    exact (List.nodup_flatMap.1 hnodup).2

/-- A type that goes on over a blank line, and prose after it. -/
example :
    let lines : List Comment :=
      ["# @rbs n: A", "#", "#   | B", "# text", "#   more"].map fun text =>
        ⟨text.toList, 0, 0, 0, 0, 0, 0, false⟩
    openers lines = [0] ∧ linesOf lines 0 = [0, 1, 2] := by
  decide

end TypeNotes
