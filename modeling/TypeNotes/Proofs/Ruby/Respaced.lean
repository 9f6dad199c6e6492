import TypeNotes.Proofs.Ruby.DataSection

/-!
# Other white space

Two texts that differ only in how much white space stands between their words, and in which
(`Respaced`), have the same words. Squeezing a text is the standard case: it gives the text without
the white space at its ends, respaced (`respaced_squeeze`).

A respaced text begins and ends with the same characters as long as these are no white space
(`Respaced.eq_append`, `Respaced.eq_append_singleton`), so that what is read off the words of a text
can be read off the squeezed text as well.
-/

namespace TypeNotes.Text

open Unicode Ruby

/-! ### White space around a text -/

section Around

variable {a b : List Char} (ha : ∀ c ∈ a, isSpace c = true) (hb : ∀ c ∈ b, isSpace c = true)

include ha in
/-- `Text.trimLeft` takes off white space in front. -/
theorem trimLeft_space_append (s : List Char) : trimLeft (a ++ s) = trimLeft s :=
  List.dropWhile_append_of_pos ha

include hb in
/-- `Text.trimRight` takes off white space behind. -/
theorem trimRight_append_space (s : List Char) : trimRight (s ++ b) = trimRight s := by
  rw [trimRight, trimRight, List.reverse_append,
    List.dropWhile_append_of_pos fun c hc => hb c (List.mem_reverse.1 hc)]

include hb in
/-- `Text.trim` does not see white space behind a text. -/
theorem trim_append_space (s : List Char) : trim (s ++ b) = trim s := by
  rw [trim, trim, trimLeft, trimLeft, List.dropWhile_append]
  split
  · rename_i hempty
    rw [List.isEmpty_iff.1 hempty, List.dropWhile_eq_nil_iff.2 hb]
  · exact trimRight_append_space hb _

include ha hb in
/-- `Text.trim` does not see white space around a text. -/
theorem trim_around (s : List Char) : trim (a ++ (s ++ b)) = trim s := by
  rw [trim, trimLeft_space_append ha]
  exact trim_append_space hb s

include ha in
/-- `Text.words` does not see white space in front of a text. -/
theorem words_space_append (s : List Char) : words (a ++ s) = words s := by
  induction a with
  | nil => rfl
  | cons c a ih =>
    obtain ⟨hc, ha⟩ := List.forall_mem_cons.1 ha
    rw [List.cons_append, words, wordsFrom, if_pos hc]
    exact ih ha

include ha hb in
/-- `Text.words` does not see white space around a text. -/
theorem words_around (s : List Char) : words (a ++ (s ++ b)) = words s :=
  (words_space_append ha _).trans (wordsFrom_append_space hb [] s)

end Around

/-- A text is what is left of it by trimming, with white space around. -/
theorem exists_around_trim (s : List Char) : ∃ a b, (∀ c ∈ a, isSpace c = true) ∧
    (∀ c ∈ b, isSpace c = true) ∧ s = a ++ (trim s ++ b) := by
  refine ⟨s.takeWhile isSpace, ((trimLeft s).reverse.takeWhile isSpace).reverse,
    fun c hc => List.mem_takeWhile_imp hc, fun c hc => ?_, ?_⟩
  · exact List.mem_takeWhile_imp (List.mem_reverse.1 hc)
  · rw [trim, trimRight, ← List.reverse_append, List.takeWhile_append_dropWhile,
      List.reverse_reverse, trimLeft, List.takeWhile_append_dropWhile]

/-- `Text.words` of a trimmed text are those of the text. -/
theorem words_trim (s : List Char) : words (trim s) = words s := by
  obtain ⟨a, b, ha, hb, hs⟩ := exists_around_trim s
  conv_rhs => rw [hs, words_around ha hb]

/-- A trimmed text does not end with white space. -/
theorem not_isSpace_getLast?_trim (s : List Char) :
    ∀ c ∈ (trim s).getLast?, isSpace c = false := by
  intro c hc
  rw [trim, trimRight, List.getLast?_reverse] at hc
  have hhead := List.head?_dropWhile_not isSpace (trimLeft s).reverse
  rw [hc] at hhead
  simpa using hhead

/-- A trimmed text does not start with white space. -/
theorem not_isSpace_head?_trim (s : List Char) : ∀ c ∈ (trim s).head?, isSpace c = false := by
  intro c hc
  -- The text without the white space in front starts with the same character.
  have hfront : c ∈ (trimLeft s).head? := by
    have hparts := List.takeWhile_append_dropWhile (p := isSpace) (l := (trimLeft s).reverse)
    have hreverse := congrArg List.reverse hparts
    rw [List.reverse_append, List.reverse_reverse, ← trimRight, ← trim] at hreverse
    rw [← hreverse, List.head?_append, hc]
    rfl
  have hhead := List.head?_dropWhile_not isSpace s
  rw [trimLeft] at hfront
  rw [hfront] at hhead
  simpa using hhead

/-- `Text.trim` takes nothing from a text that neither starts nor ends with white space. -/
theorem trim_eq_self {s : List Char} (hhead : ∀ c ∈ s.head?, isSpace c = false)
    (hlast : ∀ c ∈ s.getLast?, isSpace c = false) : trim s = s := by
  have hdrop : ∀ t : List Char, (∀ c ∈ t.head?, isSpace c = false) → t.dropWhile isSpace = t := by
    intro t ht
    cases t with
    | nil => rfl
    | cons c t => exact List.dropWhile_cons_of_neg (by simp [ht c rfl])
  rw [trim, trimLeft, hdrop s hhead, trimRight,
    hdrop s.reverse (by rwa [List.head?_reverse]), List.reverse_reverse]

/-! ### Respaced texts -/

/-- The second text is the first one with other white space in place of the white space in it. -/
inductive Respaced : List Char → List Char → Prop
  | nil : Respaced [] []
  | cons (c : Char) {s t : List Char} (h : Respaced s t) : Respaced (c :: s) (c :: t)
  | space {a b s t : List Char} (ha : a ≠ []) (hb : b ≠ [])
      (hspace : ∀ c ∈ a ++ b, isSpace c = true) (h : Respaced s t) : Respaced (a ++ s) (b ++ t)

namespace Respaced

variable {s t s' t' : List Char}

/-- Texts one after the other may be respaced each by itself. -/
theorem append (h : Respaced s t) (h' : Respaced s' t') : Respaced (s ++ s') (t ++ t') := by
  induction h with
  | nil => exact h'
  | cons c _ ih => exact .cons c ih
  | space ha hb hspace _ ih =>
    rw [List.append_assoc, List.append_assoc]
    exact .space ha hb hspace ih

/-- Read from the end, respaced texts are respaced. -/
theorem reverse (h : Respaced s t) : Respaced s.reverse t.reverse := by
  induction h with
  | nil => exact .nil
  | cons c _ ih =>
    rw [List.reverse_cons, List.reverse_cons]
    exact ih.append (.cons c .nil)
  | @space a b s t ha hb hspace _ ih =>
    rw [List.reverse_append, List.reverse_append]
    refine ih.append ?_
    have hrun := Respaced.space (a := a.reverse) (b := b.reverse) (s := []) (t := [])
      (by simpa using ha) (by simpa using hb) ?_ .nil
    · rwa [List.append_nil, List.append_nil] at hrun
    · intro c hc
      refine hspace c ?_
      simpa using hc

/-- White space may be longer. -/
theorem cons_space {a b : Char} (ha : isSpace a = true) (hb : isSpace b = true)
    (h : Respaced (b :: s) t) : Respaced (a :: b :: s) t := by
  generalize hu : b :: s = u at h
  cases h with
  | nil => cases hu
  | cons c h =>
    cases hu
    exact .space (a := [a, b]) (b := [b]) (by simp) (by simp) (by simp [ha, hb]) h
  | @space a' b' _ _ ha' hb' hspace h =>
    refine .space (a := a :: a') (by simp) hb' ?_ h
    exact List.forall_mem_cons.2 ⟨ha, hspace⟩

/-! ### What respaced texts have in common -/

/-- The empty text is respaced by itself only. -/
theorem eq_nil (h : Respaced [] t) : t = [] := by
  generalize hu : ([] : List Char) = u at h
  cases h with
  | nil => rfl
  | cons c h => cases hu
  | space ha hb hspace h => exact absurd (List.append_eq_nil_iff.1 hu.symm).1 ha

/-- A first character that is no white space stays the first one. -/
theorem eq_cons {c : Char} (hc : isSpace c = false) (h : Respaced (c :: s) t) :
    ∃ t', t = c :: t' ∧ Respaced s t' := by
  generalize hu : c :: s = u at h
  cases h with
  | nil => cases hu
  | cons d h =>
    cases hu
    exact ⟨_, rfl, h⟩
  | @space a b _ _ ha hb hspace h =>
    obtain ⟨d, a, rfl⟩ := List.exists_cons_of_ne_nil ha
    obtain rfl : c = d := (List.cons.inj hu).1
    rw [hspace c List.mem_cons_self] at hc
    cases hc

/-- White space stands where there was white space. -/
theorem exists_space {c : Char} (hc : isSpace c = true) (h : Respaced (c :: s) t) :
    ∃ d t', t = d :: t' ∧ isSpace d = true := by
  generalize hu : c :: s = u at h
  cases h with
  | nil => cases hu
  | cons d h =>
    cases hu
    exact ⟨c, _, rfl, hc⟩
  | @space a b _ _ ha hb hspace h =>
    obtain ⟨d, b, rfl⟩ := List.exists_cons_of_ne_nil hb
    exact ⟨d, _, rfl, hspace d (List.mem_append_right _ List.mem_cons_self)⟩

/-- A word at the front stays at the front. -/
theorem eq_append {word : List Char} (hword : ∀ c ∈ word, isSpace c = false)
    (h : Respaced (word ++ s) t) : ∃ t', t = word ++ t' ∧ Respaced s t' := by
  induction word generalizing t with
  | nil => exact ⟨t, rfl, h⟩
  | cons c word ih =>
    obtain ⟨hc, hword⟩ := List.forall_mem_cons.1 hword
    obtain ⟨t₁, rfl, h₁⟩ := h.eq_cons hc
    obtain ⟨t₂, rfl, h₂⟩ := ih hword h₁
    exact ⟨t₂, rfl, h₂⟩

/-- A last character that is no white space stays the last one. -/
theorem eq_append_singleton {c : Char} (hc : isSpace c = false) (h : Respaced (s ++ [c]) t) :
    ∃ t', t = t' ++ [c] ∧ Respaced s t' := by
  have hreverse := h.reverse
  rw [List.reverse_append, List.reverse_singleton, List.singleton_append] at hreverse
  obtain ⟨t', ht, h'⟩ := hreverse.eq_cons hc
  refine ⟨t'.reverse, ?_, ?_⟩
  · rw [← List.reverse_reverse t, ht, List.reverse_cons]
  · have hback := h'.reverse
    rwa [List.reverse_reverse] at hback

/-- A text without white space is respaced by itself only. -/
theorem eq_of_not_space (hs : ∀ c ∈ s, isSpace c = false) (h : Respaced s t) : t = s := by
  rw [← List.append_nil s] at h
  obtain ⟨t', rfl, h'⟩ := h.eq_append hs
  rw [h'.eq_nil, List.append_nil]

/-- A respaced text is blank if the text is. -/
theorem isBlank_eq (h : Respaced s t) : isBlank t = isBlank s := by
  induction h with
  | nil => rfl
  | cons c _ ih =>
    rw [isBlank, isBlank, List.all_cons, List.all_cons]
    exact congrArg (isSpace c && ·) ih
  | @space a b s t ha hb hspace _ ih =>
    have hall : ∀ r : List Char, r ⊆ a ++ b → r.all isSpace = true := fun r hr =>
      List.all_eq_true.2 fun c hc => hspace c (hr hc)
    rw [isBlank, isBlank, List.all_append, List.all_append,
      hall a (List.subset_append_left a b), hall b (List.subset_append_right a b)]
    exact ih

/-- Respaced texts are respaced after trimming their left ends. -/
theorem trimLeft (h : Respaced s t) : Respaced (Text.trimLeft s) (Text.trimLeft t) := by
  induction h with
  | nil => exact .nil
  | @cons c s t h ih =>
    cases hc : isSpace c with
    | true =>
      rw [Text.trimLeft, Text.trimLeft, List.dropWhile_cons_of_pos hc,
        List.dropWhile_cons_of_pos hc]
      exact ih
    | false =>
      rw [Text.trimLeft, Text.trimLeft, List.dropWhile_cons_of_neg (by simp [hc]),
        List.dropWhile_cons_of_neg (by simp [hc])]
      exact .cons c h
  | space ha hb hspace _ ih =>
    rwa [trimLeft_space_append fun c hc => hspace c (List.mem_append_left _ hc),
      trimLeft_space_append fun c hc => hspace c (List.mem_append_right _ hc)]

/-- Respaced texts are respaced after trimming. -/
theorem trim (h : Respaced s t) : Respaced (Text.trim s) (Text.trim t) :=
  h.trimLeft.reverse.trimLeft.reverse

/-- Respaced texts have the same words, whatever word has begun before them. -/
theorem wordsFrom_eq (h : Respaced s t) (current : List Char) :
    wordsFrom current t = wordsFrom current s := by
  induction h generalizing current with
  | nil => rfl
  | cons c _ ih => rw [wordsFrom, wordsFrom, ih, ih]
  | @space a b s t ha hb hspace _ ih =>
    -- The first white space ends the word in front, and the rest of it does nothing.
    have hrun : ∀ r u : List Char, r ≠ [] → (∀ c ∈ r, isSpace c = true) →
        wordsFrom current (r ++ u) =
          if current.isEmpty then wordsFrom [] u else current.reverse :: wordsFrom [] u := by
      intro r u hne hr
      obtain ⟨c, r, rfl⟩ := List.exists_cons_of_ne_nil hne
      obtain ⟨hc, hr⟩ := List.forall_mem_cons.1 hr
      have hmore : wordsFrom [] (r ++ u) = wordsFrom [] u := words_space_append hr u
      rw [List.cons_append, wordsFrom, if_pos hc, hmore]
    rw [hrun b t hb fun c hc => hspace c (List.mem_append_right _ hc),
      hrun a s ha fun c hc => hspace c (List.mem_append_left _ hc), ih]

end Respaced

/-! ### Squeezing -/

/-- There is a word where one has begun, and where the text starts with one. -/
theorem wordsFrom_ne_nil (current s : List Char)
    (h : current ≠ [] ∨ ∃ c ∈ s.head?, isSpace c = false) : wordsFrom current s ≠ [] := by
  induction s generalizing current with
  | nil =>
    have hcurrent : current ≠ [] := by simpa using h
    simp [wordsFrom, hcurrent]
  | cons c s ih =>
    rw [wordsFrom]
    split
    · rename_i hc
      have hcurrent : current ≠ [] := by simpa [hc] using h
      simp [hcurrent]
    · exact ih _ (.inl (List.cons_ne_nil c current))

/-- Words are put together with blanks where there was white space between them. -/
theorem exists_unwords_wordsFrom (current s : List Char)
    (hstart : current = [] → ∀ c ∈ s.head?, isSpace c = false)
    (hend : ∀ c ∈ s.getLast?, isSpace c = false) :
    ∃ t, unwords (wordsFrom current s) = current.reverse ++ t ∧ Respaced s t := by
  induction s generalizing current with
  | nil =>
    refine ⟨[], ?_, .nil⟩
    cases current <;> simp [wordsFrom, unwords]
  | cons c s ih =>
    cases hc : isSpace c with
    | false =>
      have hrest : ∀ d ∈ s.getLast?, isSpace d = false := by
        intro d hd
        refine hend d ?_
        rw [List.getLast?_cons, hd]
        rfl
      obtain ⟨t, hwords, hspaced⟩ := ih (c :: current) (by simp) hrest
      refine ⟨c :: t, ?_, .cons c hspaced⟩
      rw [wordsFrom, if_neg (by simp [hc]), hwords, List.reverse_cons, List.append_assoc,
        List.singleton_append]
    | true =>
      have hcurrent : current ≠ [] := by
        intro hnil
        have hfalse := hstart hnil c rfl
        rw [hc] at hfalse
        cases hfalse
      have hempty : current.isEmpty = false := by simpa using hcurrent
      cases s with
      | nil =>
        have hfalse := hend c rfl
        rw [hc] at hfalse
        cases hfalse
      | cons b s =>
        have hrest : ∀ d ∈ (b :: s).getLast?, isSpace d = false := fun d hd =>
          hend d (by rwa [List.getLast?_cons_cons])
        rw [wordsFrom, if_pos hc, hempty, if_neg Bool.false_ne_true]
        cases hb : isSpace b with
        | true =>
          -- The white space goes on.
          obtain ⟨t, hwords, hspaced⟩ := ih current (by simp [hcurrent]) hrest
          rw [wordsFrom, if_pos hb, hempty, if_neg Bool.false_ne_true] at hwords
          rw [wordsFrom, if_pos hb, List.isEmpty_nil, if_pos rfl]
          exact ⟨t, hwords, hspaced.cons_space hc hb⟩
        | false =>
          obtain ⟨t, hwords, hspaced⟩ := ih [] (by simp [hb]) hrest
          obtain ⟨word, more, hmore⟩ :=
            List.exists_cons_of_ne_nil (wordsFrom_ne_nil [] (b :: s) (.inr ⟨b, rfl, hb⟩))
          refine ⟨' ' :: t, ?_, ?_⟩
          · rw [hmore] at hwords ⊢
            rw [unwords, hwords, List.reverse_nil, List.nil_append]
            exact List.cons_ne_nil word more
          · exact .space (a := [c]) (b := [' ']) (by simp) (by simp) (by simp [hc]) hspaced

/-- `Text.squeeze` trims a text and makes each white space in it one blank. -/
theorem respaced_squeeze (s : List Char) : Respaced (trim s) (squeeze s) := by
  obtain ⟨t, hwords, hspaced⟩ := exists_unwords_wordsFrom [] (trim s)
    (fun _ => not_isSpace_head?_trim s) (not_isSpace_getLast?_trim s)
  rw [List.reverse_nil, List.nil_append, ← words, words_trim, ← squeeze] at hwords
  rwa [hwords]

end TypeNotes.Text
