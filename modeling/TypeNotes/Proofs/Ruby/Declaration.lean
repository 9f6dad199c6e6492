import TypeNotes.Proofs.Ruby.Mask

/-!
# Declarations line by line

The declarations of a file are found in its masked text by their positions, and a position is then
turned into a line. Here the same declarations are found without positions: `declarationsFrom` walks
over the masked text and counts line ends (`Source.declarations_eq`).

**A definition stays on its line.** The spelling of a definition up to its name has no line end in
it (`DefinitionHead.eq_append`), and what follows the end of the line makes no difference to it
(`DefinitionHead.ofText?_append`). So declarations below a text can be told apart from those in it
(`declarationsFrom_append`), and they are the same wherever the text starts, but for the numbers of
their lines (`declarationsFrom_add`).
-/

namespace TypeNotes.Ruby

open Unicode

/-! ### The spelling of a definition -/

/-- `Text.after?` takes off the text it is given, and nothing else. -/
theorem after?_eq_some_iff {start s t : List Char} :
    Text.after? start s = some t ↔ s = start ++ t := by
  induction start generalizing s with
  | nil => simp [Text.after?, eq_comm]
  | cons a start ih =>
    cases s with
    | nil => simp [Text.after?]
    | cons b s =>
      rw [Text.after?, List.cons_append, List.cons.injEq]
      by_cases hab : a = b
      · rw [if_pos (by simpa using hab), ih]
        exact ⟨fun hs => ⟨hab.symm, hs⟩, fun hs => hs.2⟩
      · rw [if_neg (by simpa using hab)]
        constructor
        · intro hnone
          cases hnone
        · intro hs
          exact absurd hs.1.symm hab

/-- A character that is not of a class is not in a run of characters of this class. -/
theorem not_mem_takeWhile {p : Char → Bool} {c : Char} (hc : p c = false) (s : List Char) :
    c ∉ s.takeWhile p := by
  intro hmem
  have htrue := List.all_eq_true.1 (List.all_takeWhile (l := s) (p := p)) c hmem
  rw [hc] at htrue
  cases htrue

/-- A character that is not of a class is not among the characters of this class. -/
theorem not_mem_of_filter {p : Char → Bool} {c : Char} (hc : p c = false) (s : List Char) :
    c ∉ s.filter p := by
  intro hmem
  rw [List.mem_filter, hc] at hmem
  cases hmem.2

/-- `splitMethodName?` cuts the name of a method off the front, on one line. -/
theorem splitMethodName?_eq_some {s name rest : List Char}
    (h : splitMethodName? s = some (name, rest)) : s = name ++ rest ∧ '\n' ∉ name := by
  unfold splitMethodName? at h
  split at h
  · cases h
  · rename_i c tail
    split at h
    · rename_i hstart
      simp only [Option.some.injEq, Prod.mk.injEq] at h
      obtain ⟨rfl, rfl⟩ := h
      have hending := Lexer.append_drop_filter_take (fun c => c == '?' || c == '!' || c == '=')
        (tail.dropWhile isWord)
      refine ⟨?_, ?_⟩
      · rw [List.cons_append, List.cons_append, List.append_assoc, hending,
          List.takeWhile_append_dropWhile]
      · have hc : '\n' ≠ c := by
          rintro rfl
          cases hstart
        simp only [List.cons_append, List.mem_cons, List.mem_append, not_or]
        exact ⟨hc, not_mem_takeWhile (by decide) tail, not_mem_of_filter (by decide) _⟩
    · obtain ⟨operator, hmem, hafter⟩ := List.exists_of_findSome?_eq_some h
      obtain ⟨tail', htail, heq⟩ := Option.map_eq_some_iff.1 hafter
      obtain ⟨rfl, rfl⟩ := Prod.mk.inj heq
      have hnewline : ∀ name ∈ operatorNames, '\n' ∉ name := by decide
      exact ⟨after?_eq_some_iff.1 htail, hnewline operator hmem⟩

/-- `splitConstantTail` cuts off the front what continues the name of a constant, on one line. -/
theorem splitConstantTail_eq (s : List Char) :
    s = (splitConstantTail s).1 ++ (splitConstantTail s).2 ∧ '\n' ∉ (splitConstantTail s).1 := by
  fun_induction splitConstantTail s with
  | case1 c rest hupper more ih =>
    obtain ⟨heq, hmem⟩ := ih
    refine ⟨?_, ?_⟩
    · simp only [List.cons_append, List.append_assoc]
      rw [← heq, List.takeWhile_append_dropWhile]
    · have hc : '\n' ≠ c := by
        rintro rfl
        cases hupper
      simp only [List.cons_append, List.mem_cons, List.mem_append, not_or]
      exact ⟨by decide, by decide, hc, not_mem_takeWhile (by decide) rest, hmem⟩
  | case2 => exact ⟨rfl, by simp⟩
  | case3 => exact ⟨rfl, by simp⟩

/-- `splitReceiver?` cuts a receiver off the front, on one line. -/
theorem splitReceiver?_eq_some {s receiver rest : List Char}
    (h : splitReceiver? s = some (receiver, rest)) : s = receiver ++ rest ∧ '\n' ∉ receiver := by
  unfold splitReceiver? at h
  split at h
  · cases h
  · rename_i c tail
    split at h
    · rename_i hstart
      -- Whatever stands between the first word and the dot has no line end in it.
      have hpath : ∃ path after, (if c.isUpper then splitConstantTail (tail.dropWhile isWord)
          else ([], tail.dropWhile isWord)) = (path, after) ∧
          tail.dropWhile isWord = path ++ after ∧ '\n' ∉ path := by
        split
        · exact ⟨_, _, rfl, splitConstantTail_eq _⟩
        · exact ⟨[], _, rfl, rfl, by simp⟩
      obtain ⟨path, after, heq, hafter, hmem⟩ := hpath
      simp only [heq] at h
      split at h
      · rename_i dotted hdot
        obtain ⟨rfl, rfl⟩ : _ = receiver ∧ _ = rest := by simpa using h
        have hc : '\n' ≠ c := by
          rintro rfl
          cases hstart
        have hgap := List.takeWhile_append_dropWhile (p := isInlineBlank) (l := after)
        have hgap' := List.takeWhile_append_dropWhile (p := isInlineBlank) (l := dotted)
        have hword := List.takeWhile_append_dropWhile (p := isWord) (l := tail)
        refine ⟨?_, ?_⟩
        · simp only [List.cons_append, List.append_assoc]
          rw [hgap', ← hdot, hgap, ← hafter, hword]
        · simp only [List.mem_cons, List.mem_append, not_or]
          exact ⟨hc, not_mem_takeWhile (by decide) tail, hmem, not_mem_takeWhile (by decide) after,
            by decide, not_mem_takeWhile (by decide) dotted⟩
      · cases h
    · cases h

/-- `DefinitionHead.ofText?` finds a definition at the front of a text, which takes at least one
character, and its spelling has no line end in it. -/
theorem DefinitionHead.eq_append {s : List Char} {head : DefinitionHead}
    (h : DefinitionHead.ofText? s = some head) :
    s = head.text ++ head.rest ∧ '\n' ∉ head.text ∧ head.text ≠ [] := by
  simp only [DefinitionHead.ofText?, Option.bind_eq_bind, Option.bind_eq_some_iff] at h
  obtain ⟨tail, htail, h⟩ := h
  rw [after?_eq_some_iff] at htail
  split at h
  · cases h
  · have hgap := List.takeWhile_append_dropWhile (p := isInlineBlank) (l := tail)
    have hlead : '\n' ∉ ['d', 'e', 'f'] ++ tail.takeWhile isInlineBlank := by
      rw [List.mem_append, not_or]
      exact ⟨by decide, not_mem_takeWhile (by decide) tail⟩
    simp only [Option.orElse_eq_orElse, Option.orElse_eq_or, Option.or_eq_some_iff,
      Option.bind_eq_some_iff] at h
    rcases h with ⟨⟨receiver, after⟩, hreceiver, ⟨name, rest⟩, hname, hhead⟩ |
      ⟨-, ⟨name, rest⟩, hname, hhead⟩
    · obtain ⟨hbody, hmem⟩ := splitReceiver?_eq_some hreceiver
      obtain ⟨hafter, hmem'⟩ := splitMethodName?_eq_some hname
      obtain rfl := Option.some.inj hhead
      refine ⟨?_, ?_, by simp⟩
      · simp only [List.append_assoc]
        rw [← hafter, ← hbody, hgap, htail]
      · simp only [List.mem_append, not_or] at hlead ⊢
        exact ⟨⟨hlead, hmem⟩, hmem'⟩
    · obtain ⟨hbody, hmem⟩ := splitMethodName?_eq_some hname
      obtain rfl := Option.some.inj hhead
      refine ⟨?_, ?_, by simp⟩
      · simp only [List.append_assoc]
        rw [← hbody, hgap, htail]
      · simp only [List.mem_append, not_or] at hlead ⊢
        exact ⟨hlead, hmem⟩

/-- A receiver and the name after it, and what follows the name. -/
def splitReceiverAndName? (s : List Char) : Option (List Char × List Char × List Char) :=
  (splitReceiver? s).bind fun parts => (splitMethodName? parts.2).map fun named => (parts.1, named)

/-- A definition as its parts: the word, a gap, and a name with a receiver or without one. -/
theorem DefinitionHead.ofText?_eq (s : List Char) :
    DefinitionHead.ofText? s = (Text.after? ['d', 'e', 'f'] s).bind fun tail =>
      if (tail.takeWhile isInlineBlank).isEmpty then none
      else
        ((splitReceiverAndName? (tail.dropWhile isInlineBlank)).map fun parts =>
          ⟨parts.2.1, ['d', 'e', 'f'] ++ tail.takeWhile isInlineBlank ++ parts.1 ++ parts.2.1,
            parts.2.2⟩).or
        ((splitMethodName? (tail.dropWhile isInlineBlank)).map fun named =>
          ⟨named.1, ['d', 'e', 'f'] ++ tail.takeWhile isInlineBlank ++ named.1, named.2⟩) := by
  rw [DefinitionHead.ofText?]
  cases Text.after? ['d', 'e', 'f'] s with
  | none => rfl
  | some tail =>
    simp only [Option.bind_eq_bind, Option.bind_some, splitReceiverAndName?]
    split
    · rfl
    · rw [Option.orElse_eq_orElse, Option.orElse_eq_or]
      cases splitReceiver? (tail.dropWhile isInlineBlank) with
      | none => cases splitMethodName? (tail.dropWhile isInlineBlank) <;> rfl
      | some parts =>
        cases hname : splitMethodName? parts.2 with
        | none => cases splitMethodName? (tail.dropWhile isInlineBlank) <;> simp [hname]
        | some named => simp [hname]

/-! ### Ends of lines -/

/-- Whether the end of a line stands here: after blanks a line end, a carriage return, or nothing. -/
def endsLine (s : List Char) : Bool :=
  (s.dropWhile isInlineBlank).head?.all fun c => c == '\n' || c == '\r'

/-- Whether a class of characters is left at the end of a line. -/
def stopsAtEnd (p : Char → Bool) : Bool := [' ', '\t', '\n', '\r'].all fun c => !p c

/-- Blanks that something follows are the same, whatever follows it. -/
theorem gap_append {a : List Char} (h : a.dropWhile isInlineBlank ≠ []) (e : List Char) :
    (a ++ e).takeWhile isInlineBlank = a.takeWhile isInlineBlank ∧
      (a ++ e).dropWhile isInlineBlank = a.dropWhile isInlineBlank ++ e := by
  refine ⟨?_, ?_⟩
  · rw [List.takeWhile_append, if_neg]
    intro hlength
    have hall := (List.takeWhile_sublist isInlineBlank).eq_of_length hlength
    have hparts := List.takeWhile_append_dropWhile (p := isInlineBlank) (l := a)
    rw [hall] at hparts
    exact h (List.append_right_eq_self.1 hparts)
  · rw [List.dropWhile_append, if_neg (by simpa using h)]

/-- After blanks alone, what follows them is next. -/
theorem dropWhile_append_of_blank {a : List Char} (h : a.dropWhile isInlineBlank = [])
    (e : List Char) : (a ++ e).dropWhile isInlineBlank = e.dropWhile isInlineBlank := by
  rw [List.dropWhile_append, h, List.isEmpty_nil, if_pos rfl]

section EndsLine

variable {e : List Char} (he : endsLine e = true)

include he

/-- The end of a line starts with a blank, a line end or a carriage return. -/
theorem mem_of_endsLine {c : Char} (hc : c ∈ e.head?) : c ∈ [' ', '\t', '\n', '\r'] := by
  obtain ⟨s, rfl⟩ := List.head?_eq_some_iff.1 hc
  rw [endsLine, List.dropWhile_cons] at he
  split at he
  · rename_i hblank
    simp only [isInlineBlank, Bool.or_eq_true, beq_iff_eq] at hblank
    rcases hblank with rfl | rfl <;> decide
  · simp only [List.head?_cons, Option.all_some, Bool.or_eq_true, beq_iff_eq] at he
    rcases he with rfl | rfl <;> decide

/-- A class of characters with `stopsAtEnd` does not have the first character at the end of a line.
-/
theorem not_of_endsLine {p : Char → Bool} (hp : stopsAtEnd p = true) {c : Char}
    (hc : c ∈ e.head?) : p c = false := by
  have hmem := List.all_eq_true.1 hp c (mem_of_endsLine he hc)
  simpa using hmem

/-- A run of characters stops at the end of the line, and so does not see it. -/
theorem takeWhile_append_end {p : Char → Bool} (hp : stopsAtEnd p = true) (a : List Char) :
    (a ++ e).takeWhile p = a.takeWhile p := by
  rw [List.takeWhile_append]
  split
  · rename_i hlength
    have hnil : e.takeWhile p = [] := by
      cases e with
      | nil => rfl
      | cons c e => exact List.takeWhile_cons_of_neg (by simp [not_of_endsLine he hp rfl])
    rw [hnil, List.append_nil]
    exact ((List.takeWhile_sublist p).eq_of_length hlength).symm
  · rfl

/-- What follows a run of characters goes on to the end of the line. -/
theorem dropWhile_append_end {p : Char → Bool} (hp : stopsAtEnd p = true) (a : List Char) :
    (a ++ e).dropWhile p = a.dropWhile p ++ e := by
  rw [List.dropWhile_append]
  split
  · rename_i hempty
    rw [List.isEmpty_iff.1 hempty, List.nil_append]
    cases e with
    | nil => rfl
    | cons c e => exact List.dropWhile_cons_of_neg (by simp [not_of_endsLine he hp rfl])
  · rfl

/-- Blanks before the end of a line belong to it. -/
theorem endsLine_dropWhile : endsLine (e.dropWhile isInlineBlank) = true := by
  have hidem : (e.dropWhile isInlineBlank).dropWhile isInlineBlank = e.dropWhile isInlineBlank := by
    have hhead := List.head?_dropWhile_not isInlineBlank e
    cases hdrop : e.dropWhile isInlineBlank with
    | nil => rfl
    | cons d rest =>
      rw [hdrop] at hhead
      exact List.dropWhile_cons_of_neg (by simpa using hhead)
  rw [endsLine, hidem]
  exact he

/-- `Text.after?` takes off a word in front of the end of the line as without it. -/
theorem after?_append_end {start : List Char}
    (hstart : start.all (· ∉ [' ', '\t', '\n', '\r']) = true) (a : List Char) :
    Text.after? start (a ++ e) = (Text.after? start a).map (· ++ e) := by
  induction start generalizing a with
  | nil => rfl
  | cons b start ih =>
    rw [List.all_cons, Bool.and_eq_true, decide_eq_true_eq] at hstart
    obtain ⟨hb, hstart⟩ := hstart
    cases a with
    | nil =>
      cases e with
      | nil => rfl
      | cons c e =>
        have hne : b ≠ c := by
          rintro rfl
          exact hb (mem_of_endsLine he rfl)
        have hnone : Text.after? (b :: start) (c :: e) = none := by
          rw [Text.after?, if_neg (by simpa using hne)]
        exact hnone
    | cons c a =>
      rw [List.cons_append, Text.after?, Text.after?, ih hstart]
      split <;> rfl

/-- `splitMethodName?` cuts off the name of a method in front of the end of the line as without it.
-/
theorem splitMethodName?_append (a : List Char) :
    splitMethodName? (a ++ e) = (splitMethodName? a).map fun parts => (parts.1, parts.2 ++ e) := by
  have hoperators : ∀ s : List Char, (operatorNames.findSome? fun name =>
      (Text.after? name (s ++ e)).map fun tail => (name, tail)) =
        (operatorNames.findSome? fun name => (Text.after? name s).map fun tail => (name, tail)).map
          fun parts => (parts.1, parts.2 ++ e) := by
    have hnames : ∀ name ∈ operatorNames, name.all (· ∉ [' ', '\t', '\n', '\r']) = true := by
      decide
    intro s
    generalize operatorNames = names at hnames
    induction names with
    | nil => rfl
    | cons name names ih =>
      obtain ⟨hname, hnames⟩ := List.forall_mem_cons.1 hnames
      rw [List.findSome?_cons, List.findSome?_cons, after?_append_end he hname, ih hnames]
      cases Text.after? name s <;> rfl
  cases a with
  | nil =>
    have hnone := hoperators []
    rw [show (operatorNames.findSome? fun name => (Text.after? name []).map fun tail =>
      (name, tail)) = none by decide] at hnone
    cases e with
    | nil => rfl
    | cons c e =>
      have hstart : isNameStart c = false := not_of_endsLine he (by decide) rfl
      have hsplit : splitMethodName? (c :: e) = operatorNames.findSome? fun name =>
          (Text.after? name (c :: e)).map fun tail => (name, tail) := by
        rw [splitMethodName?, if_neg (by simp [hstart])]
      exact hsplit.trans hnone
  | cons c a =>
    rw [List.cons_append, splitMethodName?, splitMethodName?]
    split
    · simp only [takeWhile_append_end he (p := isWord) (by decide),
        dropWhile_append_end he (p := isWord) (by decide)]
      cases a.dropWhile isWord with
      | nil =>
        have hending : ((e.take 1).filter fun c => c == '?' || c == '!' || c == '=') = [] := by
          cases e with
          | nil => rfl
          | cons d e =>
            have hd := not_of_endsLine he (p := fun c => c == '?' || c == '!' || c == '=')
              (by decide) rfl
            rw [List.take_succ_cons, List.take_zero, List.filter_cons_of_neg (by simp [hd]),
              List.filter_nil]
        simp [hending]
      | cons d tail =>
        have htake : (d :: tail ++ e).take 1 = (d :: tail).take 1 := rfl
        rw [htake]
        by_cases hd : (d == '?' || d == '!' || d == '=') = true
        · simp [hd]
        · simp [hd]
    · rw [← List.cons_append]
      exact hoperators (c :: a)

/-- `splitConstantTail` cuts in front of the end of the line as without it. -/
theorem splitConstantTail_append (a : List Char) :
    splitConstantTail (a ++ e) = ((splitConstantTail a).1, (splitConstantTail a).2 ++ e) := by
  have hhead : ∀ c ∈ e.head?, c ≠ ':' ∧ c.isUpper = false := by
    intro c hc
    have hcolon := not_of_endsLine he (p := (· == ':')) (by decide) hc
    exact ⟨by simpa using hcolon, not_of_endsLine he (p := Char.isUpper) (by decide) hc⟩
  fun_induction splitConstantTail a with
  | case1 c rest hupper more ih =>
    rw [List.cons_append, List.cons_append, List.cons_append, splitConstantTail, if_pos hupper,
      takeWhile_append_end he (p := isWord) (by decide),
      dropWhile_append_end he (p := isWord) (by decide), ih]
  | case2 c rest hupper =>
    rw [List.cons_append, List.cons_append, List.cons_append, splitConstantTail, if_neg hupper]
  | case3 s hs =>
    -- The text ends or goes on otherwise before the third character of a qualified part.
    have hupper : ∀ c rest, s ++ e = ':' :: ':' :: c :: rest → c.isUpper = false := by
      intro c rest heq
      match s, hs, heq with
      | [], _, heq => exact absurd rfl (hhead ':' (by rw [show e = _ from heq]; rfl)).1
      | [_], _, heq =>
        have htail : e = ':' :: c :: rest := (List.cons.inj heq).2
        exact absurd rfl (hhead ':' (by rw [htail]; rfl)).1
      | [_, _], _, heq =>
        have htail : e = c :: rest := (List.cons.inj (List.cons.inj heq).2).2
        exact (hhead c (by rw [htail]; rfl)).2
      | a :: b :: d :: s, hs, heq =>
        have ha : a = ':' := (List.cons.inj heq).1
        have hb : b = ':' := (List.cons.inj (List.cons.inj heq).2).1
        exact (hs d s (by rw [ha, hb])).elim
    unfold splitConstantTail
    split
    · rename_i c rest heq
      rw [if_neg (by simp [hupper c rest heq]), ← heq]
    · rfl

/-- At the end of a line no method is named. -/
theorem splitMethodName?_end : splitMethodName? (e.dropWhile isInlineBlank) = none := by
  have hname := splitMethodName?_append (endsLine_dropWhile he) []
  rwa [List.nil_append] at hname

/-- What follows a receiver and its name does not change `splitReceiverAndName?`. A receiver at the
end of its line has no name after it. -/
theorem splitReceiverAndName?_append (a : List Char) :
    splitReceiverAndName? (a ++ e) =
      (splitReceiverAndName? a).map fun parts => (parts.1, parts.2.1, parts.2.2 ++ e) := by
  unfold splitReceiverAndName?
  cases a with
  | nil =>
    cases e with
    | nil => rfl
    | cons c e =>
      have hstart : isNameStart c = false := not_of_endsLine he (by decide) rfl
      have hnone : splitReceiver? (c :: e) = none := by
        rw [splitReceiver?, if_neg (by simp [hstart])]
      rw [List.nil_append, hnone]
      rfl
  | cons c a =>
    rw [List.cons_append, splitReceiver?, splitReceiver?]
    split
    · obtain ⟨path, after, hpath, hpath'⟩ : ∃ path after,
          (if c.isUpper then splitConstantTail (a.dropWhile isWord)
            else ([], a.dropWhile isWord)) = (path, after) ∧
          (if c.isUpper then splitConstantTail ((a ++ e).dropWhile isWord)
            else ([], (a ++ e).dropWhile isWord)) = (path, after ++ e) := by
        rw [dropWhile_append_end he (p := isWord) (by decide)]
        split
        · exact ⟨_, _, rfl, splitConstantTail_append he _⟩
        · exact ⟨_, _, rfl, rfl⟩
      simp only [hpath, hpath', takeWhile_append_end he (p := isWord) (by decide)]
      cases hafter : after.dropWhile isInlineBlank with
      | nil =>
        -- Nothing but blanks follows on the line, so there is no dot.
        rw [dropWhile_append_of_blank hafter]
        cases hrest : e.dropWhile isInlineBlank with
        | nil => rfl
        | cons d rest =>
          have hd : (d == '.') = false :=
            not_of_endsLine (endsLine_dropWhile he) (p := (· == '.')) (by decide) (by rw [hrest]; rfl)
          rw [beq_eq_false_iff_ne] at hd
          simp [hd]
      | cons d dotted =>
        obtain ⟨htake, hdrop⟩ := gap_append (by rw [hafter]; simp) e
        rw [hdrop, htake, hafter, List.cons_append]
        by_cases hd : d = '.'
        · subst hd
          simp only [Option.bind_some]
          cases hdotted : dotted.dropWhile isInlineBlank with
          | nil =>
            rw [dropWhile_append_of_blank hdotted, splitMethodName?_end he]
            rfl
          | cons b rest =>
            obtain ⟨htake', hdrop'⟩ := gap_append (by rw [hdotted]; simp) e
            rw [hdrop', htake', hdotted, splitMethodName?_append he, Option.map_map, Option.map_map]
            rfl
        · simp [hd]
    · rfl

/-- What follows the end of the line does not change `DefinitionHead.ofText?`. -/
theorem DefinitionHead.ofText?_append (a : List Char) :
    DefinitionHead.ofText? (a ++ e) =
      (DefinitionHead.ofText? a).map fun head => { head with rest := head.rest ++ e } := by
  rw [DefinitionHead.ofText?_eq, DefinitionHead.ofText?_eq, after?_append_end he (by decide)]
  cases hafter : Text.after? ['d', 'e', 'f'] a with
  | none => rfl
  | some tail =>
    simp only [Option.map_some, Option.bind_some]
    cases hbody : tail.dropWhile isInlineBlank with
    | nil =>
      -- The word stands alone on its line.
      have hnone := splitReceiverAndName?_append (endsLine_dropWhile he) []
      rw [List.nil_append] at hnone
      rw [dropWhile_append_of_blank hbody, splitMethodName?_end he, hnone]
      simp [splitReceiverAndName?, splitReceiver?, splitMethodName?]
    | cons b body =>
      obtain ⟨htake, hdrop⟩ := gap_append (by rw [hbody]; simp) e
      rw [hdrop, htake, hbody, splitReceiverAndName?_append he, splitMethodName?_append he]
      split
      · rfl
      · cases splitReceiverAndName? (b :: body) with
        | some parts => rfl
        | none => cases splitMethodName? (b :: body) <;> rfl

end EndsLine

/-! ### Declarations by counting lines -/

/-- The declaration of a definition on a line. -/
def DefinitionHead.declaration (head : DefinitionHead) (line : Nat) : Declaration where
  name := head.name
  line := line
  parametersEndLine := ((parameterText head.rest).2.map fun distance =>
    line + (head.rest.take distance).count '\n').getD line
  parameters := parseParameters (parameterText head.rest).1

/-- The definition at the front of a text, unless the character before it belongs to the same
word. -/
def headAfter? (previous : Option Char) (s : List Char) : Option DefinitionHead :=
  if previous.any gluesWord then none else DefinitionHead.ofText? s

/-- What follows the end of the line does not change `headAfter?`. -/
theorem headAfter?_append {e : List Char} (he : endsLine e = true) (previous : Option Char)
    (a : List Char) : headAfter? previous (a ++ e) =
      (headAfter? previous a).map fun head => { head with rest := head.rest ++ e } := by
  unfold headAfter?
  split
  · rfl
  · exact DefinitionHead.ofText?_append he a

/-- The declarations in a text that starts on a line, after the character `previous`. -/
def declarationsFrom (line : Nat) (previous : Option Char) : List Char → List Declaration
  | [] => []
  | c :: rest =>
    match headAfter? previous (c :: rest) with
    | none => declarationsFrom (if c == '\n' then line + 1 else line) (some c) rest
    | some head =>
      head.declaration line ::
        declarationsFrom line head.text.getLast? (rest.drop (head.text.length - 1))
termination_by s => s.length
decreasing_by
  · simp
  · simp only [List.length_drop, List.length_cons]; omega

/-- A definition with its positions turned into lines. -/
def Definition.declaration (d : Definition) (lineAt : Nat → Nat) : Declaration where
  name := d.name
  line := lineAt d.start
  parametersEndLine := (d.close.map lineAt).getD (lineAt d.start)
  parameters := d.parameters

/-- The head of a definition stands at the front of the text, on one line, and has characters. -/
theorem DefinitionHead.eq_append_of_headAfter? {previous : Option Char} {s : List Char}
    {head : DefinitionHead} (h : headAfter? previous s = some head) :
    s = head.text ++ head.rest ∧ '\n' ∉ head.text ∧ head.text ≠ [] := by
  unfold headAfter? at h
  split at h
  · cases h
  · exact DefinitionHead.eq_append h

/-- What follows the spelling of a definition, after its first character. -/
theorem DefinitionHead.drop_eq {head : DefinitionHead} {c : Char} {rest : List Char}
    (h : c :: rest = head.text ++ head.rest) (hne : head.text ≠ []) :
    rest.drop (head.text.length - 1) = head.rest := by
  obtain ⟨d, more, hmore⟩ := List.exists_cons_of_ne_nil hne
  rw [hmore, List.cons_append] at h
  rw [hmore, (List.cons.inj h).2, List.length_cons, Nat.add_sub_cancel, List.drop_left]

/-- Where no definition starts, `declarationsFrom` goes on behind the next character. -/
theorem declarationsFrom_of_none {previous : Option Char} {c : Char} {rest : List Char}
    (h : headAfter? previous (c :: rest) = none) (line : Nat) :
    declarationsFrom line previous (c :: rest) =
      declarationsFrom (if c == '\n' then line + 1 else line) (some c) rest := by
  rw [declarationsFrom, h]

/-- Where a definition starts, its declaration comes first in `declarationsFrom`, and the others
start behind its head. -/
theorem declarationsFrom_of_some {previous : Option Char} {s : List Char} {head : DefinitionHead}
    (h : headAfter? previous s = some head) (line : Nat) :
    declarationsFrom line previous s =
      head.declaration line :: declarationsFrom line head.text.getLast? head.rest := by
  obtain ⟨hparts, -, hne⟩ := DefinitionHead.eq_append_of_headAfter? h
  obtain ⟨c, rest, rfl⟩ := List.exists_cons_of_ne_nil (hparts ▸ List.append_ne_nil_of_left_ne_nil hne _)
  rw [declarationsFrom, h]
  simp only [DefinitionHead.drop_eq hparts hne]

/-- Turning the positions of `definitionsFrom` into lines by counting gives `declarationsFrom`. -/
theorem map_definitionsFrom (text before : List Char) (previous : Option Char) (s : List Char)
    (htext : text = before ++ s) :
    (definitionsFrom before.length previous s).map
        (·.declaration fun offset => 1 + (text.take offset).count '\n') =
      declarationsFrom (1 + before.count '\n') previous s := by
  induction hlen : s.length using Nat.strongRecOn generalizing before previous s with
  | ind n ih =>
    subst hlen
    cases s with
    | nil => rw [definitionsFrom, declarationsFrom, List.map_nil]
    | cons c rest =>
      rw [definitionsFrom, ← headAfter?]
      cases hhead : headAfter? previous (c :: rest) with
      | none =>
        have hrest := ih rest.length (by simp) (before ++ [c]) (some c) rest
          (by rw [htext, List.append_assoc, List.singleton_append]) rfl
        rw [List.length_append, List.length_singleton, List.count_append,
          List.count_singleton] at hrest
        simp only [hrest, declarationsFrom_of_none hhead]
        congr 1
        split <;> omega
      | some head =>
        obtain ⟨hparts, hnewline, hne⟩ := DefinitionHead.eq_append_of_headAfter? hhead
        have hcount : head.text.count '\n' = 0 := List.count_eq_zero.2 hnewline
        have htext' : text = before ++ head.text ++ head.rest := by
          rw [htext, hparts, List.append_assoc]
        have hlt : head.rest.length < (c :: rest).length := by
          rw [hparts, List.length_append]
          have := List.length_pos_iff.2 hne
          omega
        have hrest := ih _ hlt (before ++ head.text) head.text.getLast? head.rest htext' rfl
        rw [List.length_append, List.count_append, hcount, Nat.add_zero] at hrest
        simp only [DefinitionHead.drop_eq hparts hne, declarationsFrom_of_some hhead, List.map_cons]
        rw [hrest]
        congr 1
        -- The positions of the definition lie on its line, and behind its head.
        have hstart : (text.take before.length).count '\n' = before.count '\n' := by
          rw [htext, List.take_left]
        have hclose : ∀ distance, (text.take (before.length + head.text.length + distance)).count '\n' =
            before.count '\n' + (head.rest.take distance).count '\n' := by
          intro distance
          rw [htext', ← List.length_append, List.take_length_add_append, List.count_append,
            List.count_append, hcount, Nat.add_zero]
        simp only [Definition.declaration, DefinitionHead.declaration, hstart, Option.map_map,
          Function.comp_def, hclose, ← Nat.add_assoc]

/-- The declarations of a file are those that `declarationsFrom` finds by counting lines in its
masked text. -/
theorem Source.declarations_eq (s : Source) :
    s.declarations = declarationsFrom 1 none s.maskedText := by
  have hmap := map_definitionsFrom s.maskedText [] none s.maskedText rfl
  have hline : (fun offset => 1 + (s.maskedText.take offset).count '\n') =
      fun offset => (locateFrom 1 offset s.lines).1 := by
    funext offset
    exact (s.line_location offset).symm
  rw [hline] at hmap
  exact hmap

/-! ### Declarations of a part of the text -/

/-- Of the character before a text it matters only whether it is part of a word. -/
theorem declarationsFrom_congr (line : Nat) {previous previous' : Option Char}
    (h : previous.any gluesWord = previous'.any gluesWord) (s : List Char) :
    declarationsFrom line previous s = declarationsFrom line previous' s := by
  cases s with
  | nil => rw [declarationsFrom, declarationsFrom]
  | cons c rest => rw [declarationsFrom, declarationsFrom, headAfter?, headAfter?, h]

/-- A declaration some lines further down. -/
def Declaration.moveDown (count : Nat) (d : Declaration) : Declaration :=
  { d with line := d.line + count, parametersEndLine := d.parametersEndLine + count }

/-- A definition some lines further down is declared some lines further down. -/
theorem DefinitionHead.declaration_add (head : DefinitionHead) (line count : Nat) :
    head.declaration (line + count) = (head.declaration line).moveDown count := by
  simp only [DefinitionHead.declaration, Declaration.moveDown, Declaration.mk.injEq, true_and,
    and_true]
  cases (parameterText head.rest).2 with
  | none => rfl
  | some distance => simp only [Option.map_some, Option.getD_some]; omega

/-- `declarationsFrom` a text that starts further down are further down. -/
theorem declarationsFrom_add (line count : Nat) (previous : Option Char) (s : List Char) :
    declarationsFrom (line + count) previous s =
      (declarationsFrom line previous s).map (Declaration.moveDown count) := by
  fun_induction declarationsFrom line previous s with
  | case1 => rw [declarationsFrom, List.map_nil]
  | case2 line previous c rest hhead ih =>
    simp only [dite_eq_ite] at ih
    rw [declarationsFrom, hhead]
    simp only
    rw [← ih]
    congr 1
    split <;> omega
  | case3 line previous c rest head hhead ih =>
    rw [declarationsFrom, hhead]
    simp only [List.map_cons]
    rw [ih, head.declaration_add]

/-- Under lines in which no method is declared, declarations are those of the text below. -/
theorem declarationsFrom_append {line : Nat} {previous : Option Char} {s : List Char}
    (h : declarationsFrom line previous s = []) (more : List Char) :
    declarationsFrom line previous (s ++ '\n' :: more) =
      declarationsFrom (line + s.count '\n' + 1) (some '\n') more := by
  induction s generalizing line previous with
  | nil =>
    have hnone : headAfter? previous ('\n' :: more) = none := by
      unfold headAfter?
      split <;> rfl
    rw [List.nil_append, declarationsFrom, hnone]
    rfl
  | cons c s ih =>
    have hend : endsLine ('\n' :: more) = true := rfl
    rw [declarationsFrom] at h
    cases hhead : headAfter? previous (c :: s) with
    | some head =>
      rw [hhead] at h
      cases h
    | none =>
      have hnone : headAfter? previous (c :: (s ++ '\n' :: more)) = none := by
        rw [← List.cons_append, headAfter?_append hend, hhead, Option.map_none]
      rw [hhead] at h
      rw [List.cons_append, declarationsFrom, hnone, List.count_cons]
      simp only
      rw [ih h]
      congr 1
      split <;> omega

end TypeNotes.Ruby
