import TypeNotes.Proofs.Ruby.Return

/-!
# Declarations in padded text

Masked lines that end with a carriage return make a masked text in which a blank or a return stands
before each line end (`Padded`). Definitions do not see it, and neither do their parameters: the
spelling of a definition ends before the padding, and the text of the parameters is only looked at
through its words (`parseParameters_congr`). So the declarations are the same
(`Padded.declarationsFrom_eq`).
-/

namespace TypeNotes.Ruby

open Unicode

/-! ### Parameters and words -/

/-- The parameters of a text, part by part. -/
theorem parseParameters_eq (s : List Char) :
    parseParameters s = (parameterParts s).flatMap fun part =>
      match destructured? part with
      | some inside => ((parseParameters inside).filterMap Parameter.boundName?).map .required
      | none => (simpleParameter? part).toList := by
  conv_rhs => rw [← List.attach_map_subtype_val (parameterParts s), List.flatMap_map]
  rw [parseParameters]
  refine List.flatMap_congr fun part _ => ?_
  simp only
  split
  · rename_i hinside
    rw [hinside]
  · rename_i hinside
    rw [hinside]

/-- `parseParameters` reads the same from texts with the same words. -/
theorem parseParameters_congr {s s' : List Char} (h : Text.words s = Text.words s') :
    parseParameters s = parseParameters s' := by
  rw [parseParameters_eq, parseParameters_eq, parameterParts, parameterParts, Text.squeeze,
    Text.squeeze, h]

/-! ### Padding -/

/-- The second text is the first one with a carriage return or a blank before each line end. -/
inductive Padded : List Char → List Char → Prop
  | nil : Padded [] []
  | cons {c : Char} {s s' : List Char} : c ≠ '\n' → Padded s s' → Padded (c :: s) (c :: s')
  | newline {x : Char} {s s' : List Char} : x = '\r' ∨ x = ' ' → Padded s s' →
      Padded ('\n' :: s) (x :: '\n' :: s')

namespace Padded

variable {s s' : List Char}

theorem append {a : List Char} (ha : '\n' ∉ a) (h : Padded s s') : Padded (a ++ s) (a ++ s') := by
  induction a with
  | nil => exact h
  | cons c a ih =>
    rw [List.mem_cons, not_or] at ha
    exact .cons (Ne.symm ha.1) (ih ha.2)

/-- The first line is the same in both texts (`Padded`), up to its end. -/
theorem exists_line (h : Padded s s') :
    ∃ line e e', s = line ++ e ∧ s' = line ++ e' ∧ '\n' ∉ line ∧ endsLine e = true ∧
      endsLine e' = true ∧ Padded e e' := by
  induction h with
  | nil => exact ⟨[], [], [], rfl, rfl, by simp, rfl, rfl, .nil⟩
  | @cons c s s' hc _ ih =>
    obtain ⟨line, e, e', rfl, rfl, hline, he, he', hpadded⟩ := ih
    refine ⟨c :: line, e, e', rfl, rfl, ?_, he, he', hpadded⟩
    rw [List.mem_cons, not_or]
    exact ⟨hc.symm, hline⟩
  | @newline x s s' hx hpadded _ =>
    refine ⟨[], '\n' :: s, x :: '\n' :: s', rfl, rfl, by simp, rfl, ?_, .newline hx hpadded⟩
    rcases hx with rfl | rfl
    · rfl
    · rfl

theorem count_eq (h : Padded s s') : s'.count '\n' = s.count '\n' := by
  induction h with
  | nil => rfl
  | @cons c s s' hc _ ih => rw [List.count_cons_of_ne hc, List.count_cons_of_ne hc, ih]
  | @newline x s s' hx _ ih =>
    have hne : x ≠ '\n' := by rcases hx with rfl | rfl <;> decide
    rw [List.count_cons_of_ne hne, List.count_cons_self, List.count_cons_self, ih]

theorem isSpace_of_padding {x : Char} (hx : x = '\r' ∨ x = ' ') : isSpace x = true := by
  rcases hx with rfl | rfl <;> decide

/-- Padding is white space before white space. -/
theorem wordsFrom_eq (h : Padded s s') (current : List Char) :
    Text.wordsFrom current s' = Text.wordsFrom current s := by
  induction h generalizing current with
  | nil => rfl
  | @cons c s s' hc _ ih => rw [Text.wordsFrom, Text.wordsFrom, ih, ih]
  | @newline x s s' hx _ ih =>
    have hnewline : isSpace '\n' = true := by decide
    simp only [Text.wordsFrom, isSpace_of_padding hx, hnewline, if_true, List.isEmpty_nil, ih]

/-- Text up to the end of the line or a semicolon, which may end with padding. -/
theorem wordsFrom_takeWhile (h : Padded s s') (current : List Char) :
    Text.wordsFrom current (s'.takeWhile fun c => c != '\n' && c != ';') =
      Text.wordsFrom current (s.takeWhile fun c => c != '\n' && c != ';') := by
  induction h generalizing current with
  | nil => rfl
  | @cons c s s' hc _ ih =>
    rw [List.takeWhile_cons, List.takeWhile_cons]
    split
    · rw [Text.wordsFrom, Text.wordsFrom, ih, ih]
    · rfl
  | @newline x s s' hx _ _ =>
    have hpass : (x != '\n' && x != ';') = true := by rcases hx with rfl | rfl <;> decide
    have hstop : ('\n' != '\n' && '\n' != ';') = false := by decide
    simp only [List.takeWhile_cons, hpass, hstop, if_true, Bool.false_eq_true, if_false]
    simp only [Text.wordsFrom, isSpace_of_padding hx, if_true, List.isEmpty_nil]

theorem splitAtClose (h : Padded s s') (depth : Nat) :
    Padded (Ruby.splitAtClose depth s).1 (Ruby.splitAtClose depth s').1 := by
  induction h generalizing depth with
  | nil => exact .nil
  | @cons c s s' hc _ ih =>
    unfold Ruby.splitAtClose
    split
    · cases depth with
      | zero => exact .nil
      | succ depth => exact .cons hc (ih depth)
    · exact .cons hc (ih _)
  | @newline x s s' hx _ ih =>
    rcases hx with rfl | rfl
    · exact .newline (.inl rfl) (ih depth)
    · exact .newline (.inr rfl) (ih depth)

end Padded

theorem splitAtClose_eq_append (depth : Nat) (s : List Char) :
    s = (splitAtClose depth s).1 ++ (splitAtClose depth s).2 := by
  fun_induction splitAtClose depth s with
  | case1 => rfl
  | case2 => rfl
  | case3 c rest hclose depth parts ih => rw [List.cons_append, ← ih]
  | case4 depth c rest hclose depth' parts ih => rw [List.cons_append, ← ih]

/-! ### Declarations -/

namespace Padded

variable {s s' : List Char}

/-- The rest of a line after the name of a method: blanks up to its end, or up to a character that
both texts have. -/
theorem gap (h : Padded s s') :
    (endsLine s = true ∧ endsLine s' = true) ∨
      ∃ a c t t', c ≠ '\n' ∧ isInlineBlank c = false ∧ (∀ d ∈ a, isInlineBlank d = true) ∧
        s = a ++ c :: t ∧ s' = a ++ c :: t' ∧ Padded t t' := by
  induction h with
  | nil => exact .inl ⟨rfl, rfl⟩
  | @cons c s s' hc hpadded ih =>
    cases hblank : isInlineBlank c with
    | false => exact .inr ⟨[], c, s, s', hc, hblank, by simp, rfl, rfl, hpadded⟩
    | true =>
      have hskip : ∀ more, endsLine (c :: more) = endsLine more := by
        intro more
        rw [endsLine, List.dropWhile_cons_of_pos hblank, endsLine]
      rw [hskip, hskip]
      rcases ih with hend | ⟨a, d, t, t', hd, hdblank, ha, rfl, rfl, hpadded'⟩
      · exact .inl hend
      · refine .inr ⟨c :: a, d, t, t', hd, hdblank, ?_, rfl, rfl, hpadded'⟩
        exact List.forall_mem_cons.2 ⟨hblank, ha⟩
  | @newline x s s' hx _ _ =>
    refine .inl ⟨rfl, ?_⟩
    rcases hx with rfl | rfl
    · rfl
    · rfl

end Padded

/-- At the end of a line there is no `parameterText`. -/
theorem parameterText_of_endsLine {s : List Char} (h : endsLine s = true) :
    parameterText s = ([], none) := by
  unfold endsLine at h
  unfold parameterText
  cases hdrop : s.dropWhile isInlineBlank with
  | nil => rfl
  | cons c rest =>
    rw [hdrop, List.head?_cons, Option.all_some, Bool.or_eq_true, beq_iff_eq, beq_iff_eq] at h
    rcases h with rfl | rfl
    · rfl
    · rfl

/-- Parameters in parentheses, after blanks. -/
theorem parameterText_open {a : List Char} (ha : ∀ d ∈ a, isInlineBlank d = true) (t : List Char) :
    parameterText (a ++ '(' :: t) =
      ((splitAtClose 0 t).1, some (a.length + 1 + (splitAtClose 0 t).1.length)) := by
  have hdrop : (a ++ '(' :: t).dropWhile isInlineBlank = '(' :: t := by
    rw [List.dropWhile_append_of_pos ha, List.dropWhile_cons_of_neg (by decide)]
  have htake : (a ++ '(' :: t).takeWhile isInlineBlank = a := by
    rw [List.takeWhile_append_of_pos ha, List.takeWhile_cons_of_neg (by decide), List.append_nil]
  simp only [parameterText, hdrop, htake]

/-- The parentheses close behind the inside, wherever that is. -/
theorem take_append_open (a t : List Char) :
    (a ++ '(' :: t).take (a.length + 1 + (splitAtClose 0 t).1.length) =
      a ++ '(' :: (splitAtClose 0 t).1 := by
  have hparts := splitAtClose_eq_append 0 t
  generalize (splitAtClose 0 t).1 = inside at hparts
  rw [hparts, Nat.add_assoc, List.take_length_add_append, Nat.add_comm 1, List.take_succ_cons,
    List.take_left]

/-- Parameters without parentheses, after blanks. -/
theorem parameterText_bare {a : List Char} (ha : ∀ d ∈ a, isInlineBlank d = true) {c : Char}
    (hc : isInlineBlank c = false) (hopen : c ≠ '(') (t : List Char) :
    parameterText (a ++ c :: t) =
      if c == '\n' || c == ';' || c == '=' || c == '\r' then ([], none)
      else ((c :: t).takeWhile fun c => c != '\n' && c != ';', none) := by
  have hdrop : (a ++ c :: t).dropWhile isInlineBlank = c :: t := by
    rw [List.dropWhile_append_of_pos ha, List.dropWhile_cons_of_neg (by simp [hc])]
  unfold parameterText
  simp only [hdrop]

namespace Padded

variable {s s' : List Char}

/-- `parameterText` has the same words in both texts, and ends on the same line. -/
theorem parameterText (h : Padded s s') :
    Text.words (Ruby.parameterText s').1 = Text.words (Ruby.parameterText s).1 ∧
      ((Ruby.parameterText s').2.map fun distance => (s'.take distance).count '\n') =
        (Ruby.parameterText s).2.map fun distance => (s.take distance).count '\n' := by
  rcases h.gap with ⟨hend, hend'⟩ | ⟨a, c, t, t', hc, hblank, ha, rfl, rfl, hpadded⟩
  · rw [parameterText_of_endsLine hend, parameterText_of_endsLine hend']
    exact ⟨rfl, rfl⟩
  · by_cases hopen : c = '('
    · subst hopen
      rw [parameterText_open ha, parameterText_open ha]
      have hinside := hpadded.splitAtClose 0
      refine ⟨hinside.wordsFrom_eq [], ?_⟩
      simp only [Option.map_some, take_append_open, List.count_append, List.count_cons, hinside.count_eq]
    · rw [parameterText_bare ha hblank hopen, parameterText_bare ha hblank hopen]
      split
      · exact ⟨rfl, rfl⟩
      · exact ⟨(Padded.cons hc hpadded).wordsFrom_takeWhile [], rfl⟩

theorem declaration (h : Padded s s') (name text : List Char) (line : Nat) :
    (DefinitionHead.mk name text s').declaration line =
      (DefinitionHead.mk name text s).declaration line := by
  obtain ⟨hwords, hclose⟩ := h.parameterText
  have hadd : ∀ r : List Char, (Ruby.parameterText r).2.map
      (fun distance => line + (r.take distance).count '\n') =
        ((Ruby.parameterText r).2.map fun distance => (r.take distance).count '\n').map (line + ·) := by
    intro r
    rw [Option.map_map]
    rfl
  simp only [DefinitionHead.declaration, parseParameters_congr hwords, hadd, hclose]

/-- `headAfter?` finds a definition in both texts or in none, and what follows it is padded again.
-/
theorem headAfter? (h : Padded s s') (previous : Option Char) :
    (Ruby.headAfter? previous s = none ∧ Ruby.headAfter? previous s' = none) ∨
      ∃ head rest', Ruby.headAfter? previous s = some head ∧
        Ruby.headAfter? previous s' = some { head with rest := rest' } ∧ Padded head.rest rest' := by
  obtain ⟨line, e, e', rfl, rfl, hline, he, he', hend⟩ := h.exists_line
  unfold Ruby.headAfter?
  split
  · exact .inl ⟨rfl, rfl⟩
  · rw [DefinitionHead.ofText?_append he, DefinitionHead.ofText?_append he']
    cases hhead : DefinitionHead.ofText? line with
    | none => exact .inl ⟨rfl, rfl⟩
    | some head =>
      obtain ⟨hparts, -⟩ := DefinitionHead.eq_append hhead
      have hrest : '\n' ∉ head.rest := by
        intro hmem
        rw [hparts] at hline
        exact hline (List.mem_append_right _ hmem)
      exact .inr ⟨_, _, rfl, rfl, hend.append hrest⟩

theorem headAfter?_newline (previous : Option Char) (t : List Char) :
    Ruby.headAfter? previous ('\n' :: t) = none := by
  unfold Ruby.headAfter?
  split
  · rfl
  · rfl

/-- `declarationsFrom` padded text are the same. -/
theorem declarationsFrom_eq (h : Padded s s') (line : Nat) (previous : Option Char) :
    declarationsFrom line previous s' = declarationsFrom line previous s := by
  induction hlen : s.length using Nat.strongRecOn generalizing s s' line previous with
  | ind n ih =>
    subst hlen
    rcases h.headAfter? previous with ⟨hnone, hnone'⟩ | ⟨head, rest', hsome, hsome', hrest⟩
    · cases h with
      | nil => rfl
      | @cons c s s' hc hpadded =>
        rw [declarationsFrom_of_none hnone, declarationsFrom_of_none hnone']
        exact ih _ (Nat.lt_succ_self _) hpadded _ _ rfl
      | @newline x s s' hx hpadded =>
        have hx' : (x == '\n') = false := by rcases hx with rfl | rfl <;> decide
        rw [declarationsFrom_of_none hnone, declarationsFrom_of_none hnone', hx',
          declarationsFrom_of_none (headAfter?_newline _ _)]
        exact ih _ (Nat.lt_succ_self _) hpadded _ _ rfl
    · obtain ⟨hparts, -, hne⟩ := DefinitionHead.eq_append_of_headAfter? hsome
      have hlt : head.rest.length < s.length := by
        rw [hparts, List.length_append]
        have := List.length_pos_iff.2 hne
        omega
      rw [declarationsFrom_of_some hsome, declarationsFrom_of_some hsome',
        hrest.declaration head.name head.text, ih _ hlt hrest _ _ rfl]

end Padded

end TypeNotes.Ruby
