import Mathlib.Data.List.Forall2
import TypeNotes.Proofs.Checked.Lexer
import TypeNotes.Proofs.Ruby.Comment
import TypeNotes.Ruby.Source

/-!
# What masking shows

Masking keeps the shape of a file. For each character of a line a masked line shows that character
or a blank (`Shows`), so that a masked line is as long as its line and has no line end in it.

**One step.** A step of the scanner shows the next character and some of those that follow it
(`exists_shows_of_step`). From step to step this carries over to a line (`shows_scanFrom`), from
there to every region of a file (`shows_mask`), and to all of its lines (`forall₂_maskAll`).

**Lines by counting.** As no line end is lost or added, the line of a position can be told from the
masked text: it is the number of line ends before the position (`Source.line_location`).
-/

namespace TypeNotes.Ruby

/-! ### Shown characters -/

/-- What is shown for some characters: for each of them itself or a blank. -/
abbrev Shows : List Char → List Char → Prop :=
  List.Forall₂ fun shown c => shown = c ∨ shown = ' '

/-- A text shows itself (`Shows`). -/
theorem Shows.self (s : List Char) : Shows s s :=
  List.forall₂_same.2 fun _ _ => .inl rfl

/-- `Text.blanks` show a text by hiding all of it. -/
theorem Shows.blanks (s : List Char) : Shows (Text.blanks s.length) s := by
  induction s with
  | nil => exact .nil
  | cons c s ih => exact .cons (.inr rfl) ih

/-- Texts one after the other may be shown each by itself. -/
theorem Shows.append {a b s t : List Char} (ha : Shows a s) (hb : Shows b t) :
    Shows (a ++ b) (s ++ t) := List.rel_append ha hb

theorem Shows.not_mem_newline {shown s : List Char} (h : Shows shown s) (hs : '\n' ∉ s) :
    '\n' ∉ shown := by
  induction h with
  | nil => exact hs
  | @cons d c shown s hshown _ ih =>
    rw [List.mem_cons, not_or] at hs ⊢
    refine ⟨?_, ih hs.2⟩
    rcases hshown with rfl | rfl
    · exact hs.1
    · decide

/-! ### One step -/

/-- What a step shows: the next character and some of those after it. -/
def Step.Fits (s : Step) (c : Char) (rest : List Char) : Prop :=
  ∃ taken after, rest = taken ++ after ∧ Shows (s.first :: s.more) (c :: taken)

/-- A step with one character fits it if it shows the character or hides it. -/
theorem Step.fits_one {d c : Char} (h : d = c ∨ d = ' ') (rest : List Char) (frames : List Frame)
    (heredoc : Option Heredoc) : (Step.mk d [] frames heredoc).Fits c rest :=
  ⟨[], rest, rfl, .cons h .nil⟩

/-- A step that shows some of the characters that follow. -/
theorem Step.fits_append (c : Char) (taken after : List Char) (frames : List Frame)
    (heredoc : Option Heredoc) : (Step.mk c taken frames heredoc).Fits c (taken ++ after) :=
  ⟨taken, after, rfl, .cons (.inl rfl) (Shows.self taken)⟩

/-- A step that blanks out up to so many of the characters that follow. -/
theorem Step.fits_blanks {d c : Char} (h : d = c ∨ d = ' ') (rest : List Char) (count : Nat)
    (frames : List Frame) (heredoc : Option Heredoc) :
    (Step.mk d (Text.blanks (rest.take count).length) frames heredoc).Fits c rest :=
  ⟨rest.take count, rest.drop count, (List.take_append_drop count rest).symm,
    .cons h (Shows.blanks _)⟩

theorem fits_stepLiteral (opener closer : Char) (interpolates : Bool) (nesting : Nat)
    (outer : List Frame) (c : Char) (rest : List Char) :
    (stepLiteral opener closer interpolates nesting outer c rest).Fits c rest := by
  unfold stepLiteral
  simp only
  split
  · exact Step.fits_blanks (.inr rfl) rest 1 _ _
  split
  · rename_i hopen
    simp only [Bool.and_eq_true, beq_iff_eq] at hopen
    obtain ⟨rest, rfl⟩ := List.head?_eq_some_iff.1 hopen.2
    exact Step.fits_blanks (.inr rfl) ('\x7b' :: rest) 1 _ _
  split
  · split
    · exact Step.fits_one (.inl rfl) rest _ _
    · exact Step.fits_one (.inr rfl) rest _ _
  split
  · exact Step.fits_one (.inr rfl) rest _ _
  · exact Step.fits_one (.inr rfl) rest _ _

theorem fits_stepCloseBrace (c : Char) (rest : List Char) (frames : List Frame) :
    (stepCloseBrace c frames).Fits c rest := by
  unfold stepCloseBrace
  split
  · exact Step.fits_one (.inr rfl) rest _ _
  · exact Step.fits_one (.inl rfl) rest _ _
  · exact Step.fits_one (.inl rfl) rest _ _

theorem fits_of_stepHeredoc? {frames : List Frame} {before : List Char} {c : Char}
    {rest : List Char} {s : Step} (h : stepHeredoc? frames before c rest = some s) :
    s.Fits c rest := by
  unfold stepHeredoc? at h
  split at h
  · rename_i name
    simp only [Option.bind_eq_bind, Option.bind_eq_some_iff] at h
    obtain ⟨opening, hopening, first, -, hstep⟩ := h
    obtain ⟨⟨after, rfl⟩, -⟩ := Lexer.HeredocOpening.spec hopening
    split at hstep
    · obtain rfl := Option.some.inj hstep
      exact Step.fits_append c ('<' :: opening.text) after _ _
    · cases hstep
  · cases h

theorem fits_of_stepCharacter? {frames : List Frame} {before : List Char} {c : Char}
    {rest : List Char} {s : Step} (h : stepCharacter? frames before c rest = some s) :
    s.Fits c rest := by
  simp only [stepCharacter?, Option.bind_eq_bind, Option.bind_eq_some_iff] at h
  obtain ⟨next, -, hstep⟩ := h
  generalize (if (next == '\\') = true then 2 else 1) = count at hstep
  split at hstep
  · obtain rfl := Option.some.inj hstep
    exact Step.fits_blanks (.inl rfl) rest _ _ _
  · cases hstep

theorem fits_stepCode (frames : List Frame) (before : List Char) (c : Char) (rest : List Char) :
    (stepCode frames before c rest).Fits c rest := by
  have hplain : (Step.show c frames).Fits c rest := Step.fits_one (.inl rfl) rest _ _
  unfold stepCode
  simp only
  split
  · exact Step.fits_one (.inl rfl) rest _ _
  · exact fits_stepCloseBrace _ rest frames
  · split
    · rename_i d rest
      split
      · exact Step.fits_append '$' [d] rest _ _
      · exact hplain
    · exact hplain
  · exact Step.fits_one (.inl rfl) rest _ _
  · exact Step.fits_one (.inl rfl) rest _ _
  · exact Step.fits_one (.inl rfl) rest _ _
  · cases hheredoc : stepHeredoc? frames before '<' rest with
    | none => exact hplain
    | some s => exact fits_of_stepHeredoc? hheredoc
  · split
    · split
      · rename_i opening frame hopening
        obtain ⟨⟨after, rfl⟩, -⟩ := Lexer.percentOpening?_spec hopening
        exact Step.fits_append '%' opening after _ _
      · exact hplain
    · exact hplain
  · split
    · exact Step.fits_one (.inl rfl) rest _ _
    · exact hplain
  · cases hcharacter : stepCharacter? frames before '?' rest with
    | none => exact hplain
    | some s => exact fits_of_stepCharacter? hcharacter
  · exact hplain

/-- A step shows the next character and some of those that follow it. -/
theorem exists_shows_of_step {frames : List Frame} {before : List Char} {c : Char}
    {rest : List Char} {s : Step} (h : step frames before c rest = some s) : s.Fits c rest := by
  unfold step at h
  split at h
  · obtain rfl := Option.some.inj h
    exact fits_stepLiteral _ _ _ _ _ c rest
  · split at h
    · cases h
    · obtain rfl := Option.some.inj h
      exact fits_stepCode frames before c rest

/-! ### Lines -/

/-- What `scanFrom` shows of a line, after what was shown of it before. -/
theorem shows_scanFrom {before code : List Char} (hbefore : Shows before.reverse code)
    (frames : List Frame) (heredocs : List Heredoc) (line : List Char) :
    Shows (scanFrom before frames heredocs line).masked.text (code ++ line) := by
  fun_induction scanFrom before frames heredocs line generalizing code with
  | case1 before frames heredocs =>
    rw [List.append_nil]
    exact hbefore
  | case2 before frames heredocs c rest hstep =>
    exact Shows.append hbefore (Shows.blanks (c :: rest))
  | case3 before frames heredocs c rest s hstep ih =>
    obtain ⟨taken, after, rfl, hshows⟩ := exists_shows_of_step hstep
    have hlength : s.more.length = taken.length := by
      have := hshows.length_eq
      simpa using this
    have hbefore' : Shows (s.more.reverse ++ s.first :: before).reverse (code ++ c :: taken) := by
      rw [List.reverse_append, List.reverse_reverse, List.reverse_cons, List.append_assoc,
        List.singleton_append]
      exact Shows.append hbefore hshows
    have hrest := ih hbefore'
    rw [hlength, List.drop_left] at hrest ⊢
    rwa [List.append_assoc, List.cons_append] at hrest

/-- What `Place.mask` shows of a line shows it, whatever region of the file it is in. -/
theorem shows_mask (p : Place) (line : List Char) : Shows (p.mask line).1.text line := by
  have hhidden : Shows (MaskedLine.hidden line).text line := Shows.blanks line
  unfold Place.mask
  simp only
  split
  · exact hhidden
  · exact hhidden
  · exact hhidden
  · split
    · exact hhidden
    split
    · exact hhidden
    · have hstart : Shows [].reverse [] := .nil
      exact shows_scanFrom hstart p.frames [] line

/-- Every line of `Place.maskAll` shows the line it comes from. -/
theorem forall₂_maskAll (p : Place) (lines : List (List Char)) :
    List.Forall₂ (fun masked line => Shows masked.text line) (p.maskAll lines) lines := by
  induction lines generalizing p with
  | nil => exact .nil
  | cons line lines ih => exact .cons (shows_mask p line) (ih _)

/-! ### Lines by counting -/

theorem unlines_cons (line : List Char) {more : List (List Char)} (h : more ≠ []) :
    Text.unlines (line :: more) = line ++ '\n' :: Text.unlines more := by
  obtain ⟨next, more, rfl⟩ := List.exists_cons_of_ne_nil h
  rfl

/-- `locateFrom` depends on the lengths of the lines only. -/
theorem locateFrom_congr {lines lines' : List (List Char)}
    (h : lines.map List.length = lines'.map List.length) (number offset : Nat) :
    locateFrom number offset lines = locateFrom number offset lines' := by
  induction lines generalizing lines' number offset with
  | nil =>
    obtain rfl : lines' = [] := by simpa using h.symm
    rfl
  | cons line more ih =>
    cases lines' with
    | nil => simp at h
    | cons line' more' =>
      obtain ⟨hline, hmore⟩ := List.cons.inj h
      cases more with
      | nil =>
        obtain rfl : more' = [] := by simpa using hmore.symm
        rfl
      | cons next more =>
        cases more' with
        | nil => simp at hmore
        | cons next' more' => rw [locateFrom, locateFrom, hline, ih hmore]

/-- The line that `locateFrom` finds is told by the number of line ends before the position. -/
theorem locateFrom_fst {lines : List (List Char)} (hne : lines ≠ [])
    (hlines : ∀ line ∈ lines, '\n' ∉ line) (number offset : Nat) :
    (locateFrom number offset lines).1 =
      number + ((Text.unlines lines).take offset).count '\n' := by
  induction lines generalizing number offset with
  | nil => exact absurd rfl hne
  | cons line more ih =>
    have hline : '\n' ∉ line := hlines line List.mem_cons_self
    have hzero : ∀ n, (line.take n).count '\n' = 0 := by
      intro n
      exact List.count_eq_zero.2 fun hmem => hline (List.mem_of_mem_take hmem)
    cases more with
    | nil =>
      rw [Text.unlines, hzero, Nat.add_zero]
      rfl
    | cons next more =>
      have hmore : ∀ l ∈ next :: more, '\n' ∉ l := fun l hl => hlines l (List.mem_cons_of_mem _ hl)
      rw [locateFrom, unlines_cons line (List.cons_ne_nil next more), List.take_append,
        List.count_append, hzero, Nat.zero_add]
      split
      · rename_i hle
        rw [Nat.sub_eq_zero_of_le hle, List.take_zero, List.count_nil]
        rfl
      · rename_i hgt
        have hoffset : offset - line.length = offset - (line.length + 1) + 1 := by omega
        rw [ih (List.cons_ne_nil next more) hmore, hoffset, List.take_succ_cons,
          List.count_cons_self]
        omega

/-- Masked lines have no line ends in them, and are as long as the lines they come from. -/
theorem Source.map_maskedLines (s : Source) :
    (∀ masked ∈ s.maskedLines.map (·.text), '\n' ∉ masked) ∧
      (s.maskedLines.map (·.text)).map List.length = s.lines.map List.length := by
  have hlines : ∀ line ∈ s.lines, '\n' ∉ line := fun line hline => not_mem_of_mem_lines hline
  have hforall : List.Forall₂ (fun masked line => Shows masked.text line) s.maskedLines s.lines :=
    forall₂_maskAll Place.start s.lines
  generalize s.maskedLines = maskeds at hforall ⊢
  generalize s.lines = lines at hforall hlines ⊢
  induction hforall with
  | nil => exact ⟨by simp, rfl⟩
  | @cons masked line maskeds lines hshows _ ih =>
    obtain ⟨hmem, hlength⟩ := ih fun l hl => hlines l (List.mem_cons_of_mem _ hl)
    refine ⟨?_, ?_⟩
    · rw [List.map_cons, List.forall_mem_cons]
      exact ⟨hshows.not_mem_newline (hlines line List.mem_cons_self), hmem⟩
    · rw [List.map_cons, List.map_cons, List.map_cons, hlength, hshows.length_eq]

/-- The line of a position is the number of line ends before it in the masked text. -/
theorem Source.line_location (s : Source) (offset : Nat) :
    (s.location offset).1 = 1 + (s.maskedText.take offset).count '\n' := by
  obtain ⟨hmasked, hlength⟩ := s.map_maskedLines
  have hne : s.maskedLines.map (·.text) ≠ [] := by
    intro hnil
    rw [hnil, List.map_nil] at hlength
    exact Text.lines_ne_nil s.text (List.map_eq_nil_iff.1 hlength.symm)
  rw [Source.location, ← locateFrom_congr hlength, locateFrom_fst hne hmasked]
  rfl

end TypeNotes.Ruby
