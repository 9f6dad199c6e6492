import TypeNotes.Unicode.Space

/-!
# Text as lists of characters

The few operations on text that everything else uses: trimming, splitting into lines and into
words, and blanking out. `lines` and `unlines` are inverse to each other.
-/

namespace TypeNotes.Text

open Unicode

/-! ### Trimming -/

/-- Without the white space at the front. -/
def trimLeft (s : List Char) : List Char := s.dropWhile isSpace

/-- Without the white space at the end. -/
def trimRight (s : List Char) : List Char := (s.reverse.dropWhile isSpace).reverse

/-- Without the white space at both ends. -/
def trim (s : List Char) : List Char := trimRight (trimLeft s)

/-- Without the carriage returns at the end. -/
def dropReturns (s : List Char) : List Char := (s.reverse.dropWhile (· == '\r')).reverse

/-- Whether there is nothing but white space. -/
def isBlank (s : List Char) : Bool := s.all isSpace

theorem length_dropWhile_le {α : Type} (p : α → Bool) (s : List α) :
    (s.dropWhile p).length ≤ s.length := by
  induction s with
  | nil => exact Nat.le_refl _
  | cons a s ih =>
    rw [List.dropWhile_cons]
    split
    · exact Nat.le_succ_of_le ih
    · exact Nat.le_refl _

theorem length_trim_le (s : List Char) : (trim s).length ≤ s.length := by
  have h₁ := length_dropWhile_le isSpace s
  have h₂ := length_dropWhile_le isSpace (trimLeft s).reverse
  simp only [List.length_reverse, trimLeft] at h₂
  simp only [trim, trimRight, List.length_reverse, trimLeft]
  omega

/-! ### Order -/

/-- Whether a text does not come after another: at the first place where they differ, its character
is the lesser one, or it has none. -/
def le : List Char → List Char → Bool
  | [], _ => true
  | _ :: _, [] => false
  | c :: s, d :: t => c.toNat < d.toNat || (c == d && le s t)

theorem le_total (s t : List Char) : le s t || le t s := by
  induction s generalizing t with
  | nil => rfl
  | cons c s ih =>
    cases t with
    | nil => rfl
    | cons d t =>
      have htail := ih t
      have htrichotomy : c.toNat < d.toNat ∨ c = d ∨ d.toNat < c.toNat := by
        rw [← Char.toNat_inj]
        omega
      simp only [le, Bool.or_eq_true, Bool.and_eq_true, decide_eq_true_eq, beq_iff_eq] at htail ⊢
      grind

theorem le_trans {s t u : List Char} (hst : le s t) (htu : le t u) : le s u := by
  induction s generalizing t u with
  | nil => rfl
  | cons c s ih =>
    cases t with
    | nil => cases hst
    | cons d t =>
      cases u with
      | nil => cases htu
      | cons e u =>
        simp only [le, Bool.or_eq_true, Bool.and_eq_true, decide_eq_true_eq, beq_iff_eq] at *
        have htail := @ih t u
        grind

theorem le_antisymm {s t : List Char} (hst : le s t) (hts : le t s) : s = t := by
  induction s generalizing t with
  | nil =>
    cases t with
    | nil => rfl
    | cons d t => cases hts
  | cons c s ih =>
    cases t with
    | nil => cases hst
    | cons d t =>
      simp only [le, Bool.or_eq_true, Bool.and_eq_true, decide_eq_true_eq, beq_iff_eq] at *
      have htail := @ih t
      grind

/-! ### Lines -/

/-- The lines of a text: what stands between its line ends, before the first and after the last. -/
def lines : List Char → List (List Char)
  | [] => [[]]
  | c :: rest =>
    if c == '\n' then [] :: lines rest
    else match lines rest with
      | [] => [[c]]
      | line :: more => (c :: line) :: more

/-- The text with these lines. -/
def unlines : List (List Char) → List Char
  | [] => []
  | [line] => line
  | line :: more => line ++ '\n' :: unlines more

theorem lines_ne_nil (s : List Char) : lines s ≠ [] := by
  cases s with
  | nil => simp [lines]
  | cons c rest => grind [lines]

/-- `unlines` puts the `lines` of a text together again. -/
@[simp]
theorem unlines_lines (s : List Char) : unlines (lines s) = s := by
  induction s with
  | nil => rfl
  | cons c rest ih =>
    have hne := lines_ne_nil rest
    unfold lines
    split
    · rename_i hc
      cases h : lines rest with
      | nil => exact absurd h hne
      | cons line more => simp_all [unlines]
    · cases h : lines rest with
      | nil => exact absurd h hne
      | cons line more => cases more <;> simp_all [unlines]

theorem lines_of_not_mem {line : List Char} (h : '\n' ∉ line) : lines line = [line] := by
  induction line with
  | nil => rfl
  | cons c line ih =>
    rw [List.mem_cons, not_or] at h
    have hc : (c == '\n') = false := by simpa using Ne.symm h.1
    simp [lines, hc, ih h.2]

theorem lines_append_newline {line : List Char} (h : '\n' ∉ line) (s : List Char) :
    lines (line ++ '\n' :: s) = line :: lines s := by
  induction line with
  | nil => simp [lines]
  | cons c line ih =>
    rw [List.mem_cons, not_or] at h
    have hc : (c == '\n') = false := by simpa using Ne.symm h.1
    simp [lines, hc, ih h.2]

/-- Lines without line ends in them are the `lines` of what `unlines` makes of them. -/
theorem lines_unlines {ls : List (List Char)} (hne : ls ≠ []) (h : ∀ line ∈ ls, '\n' ∉ line) :
    lines (unlines ls) = ls := by
  induction ls with
  | nil => exact absurd rfl hne
  | cons line more ih =>
    have hline : '\n' ∉ line := h line List.mem_cons_self
    have hmore : ∀ l ∈ more, '\n' ∉ l := fun l hl => h l (List.mem_cons_of_mem _ hl)
    cases more with
    | nil => exact lines_of_not_mem hline
    | cons next rest =>
      rw [unlines, lines_append_newline hline, ih (List.cons_ne_nil _ _) hmore]
      exact List.cons_ne_nil _ _

/-! ### Words -/

/-- The words of a text: the runs of characters between white space, `current` being the start of
the first one, in reverse. -/
def wordsFrom (current : List Char) : List Char → List (List Char)
  | [] => if current.isEmpty then [] else [current.reverse]
  | c :: rest =>
    if isSpace c then
      if current.isEmpty then wordsFrom [] rest else current.reverse :: wordsFrom [] rest
    else wordsFrom (c :: current) rest

/-- The words of a text. -/
def words (s : List Char) : List (List Char) := wordsFrom [] s

/-- Words with one blank between each two of them. -/
def unwords : List (List Char) → List Char
  | [] => []
  | [word] => word
  | word :: more => word ++ ' ' :: unwords more

/-- The text with every run of white space replaced by one blank, and none at the ends. -/
def squeeze (s : List Char) : List Char := unwords (words s)

theorem length_unwords_wordsFrom_le (current s : List Char) :
    (unwords (wordsFrom current s)).length ≤ current.length + s.length := by
  induction s generalizing current with
  | nil => cases current <;> simp [wordsFrom, unwords]
  | cons c rest ih =>
    have h₀ := ih []
    have h₁ := ih (c :: current)
    simp only [wordsFrom]
    split
    · split
      · simp at h₀ ⊢; omega
      · cases h : wordsFrom [] rest with
        | nil => simp [unwords]
        | cons word more =>
          rw [h] at h₀
          simp only [unwords, List.length_append, List.length_reverse, List.length_cons] at h₀ ⊢
          simp only [List.length_nil] at h₀
          omega
    · simp only [List.length_cons] at h₁ ⊢; omega

/-- `squeeze` never makes a text longer. -/
theorem length_squeeze_le (s : List Char) : (squeeze s).length ≤ s.length := by
  have h := length_unwords_wordsFrom_le [] s
  simpa [squeeze, words] using h

/-! ### Blanks and starts -/

/-- So many blanks. -/
def blanks (n : Nat) : List Char := List.replicate n ' '

/-- What follows a given start, if the text has that start. -/
def after? : List Char → List Char → Option (List Char)
  | [], s => some s
  | _ :: _, [] => none
  | a :: start, b :: s => if a == b then after? start s else none

/-- Whether a text starts with a string. -/
def startsWith (s : List Char) (start : String) : Bool := start.toList.isPrefixOf s

/-- Whether a text ends with a string. -/
def endsWith (s : List Char) (ending : String) : Bool := ending.toList.isSuffixOf s

end TypeNotes.Text
