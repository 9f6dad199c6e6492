import TypeNotes.Proofs.Ruby.Heredoc

/-!
# Well-nested literals

The content of a literal is well nested (`Nested`) when its delimiters come in pairs inside of it,
a backslash takes a character with it, and code in braces behind a hash sign is made of plain
characters, braces in pairs, and quoted literals that are well nested again. Content may go over
several lines.

**Exactly consumed.** Whatever stands inside, the scanner ends the content inside the frames in
which it began it (`Nested.crosses`): a step with one character changes the innermost frame, and
what is opened is closed again before the content goes on. So the closer behind the content ends the
literal, and what surrounds it is as it was. Only the code in the content is shown.

**Line ends.** At the end of a line the frames are kept, and on a line that starts inside of them
neither an embedded document nor a data section starts (`Place.maskAll_inside`). But heredocs that
were opened on the line of the literal have their bodies below that line, so these stand between the
first line of the content and the others (`literal_consumed`); without them the next line of the
content would be taken for a body (`literal_interrupted`).
-/

namespace TypeNotes.Ruby

/-! ### Content -/

/-- The delimiters of a literal, and whether code may be interpolated into it. -/
structure Delimiters where
  opener : Char
  closer : Char
  interpolates : Bool
  opener_plain : opener ∉ ['\\', '#', '\n']
  closer_plain : closer ∉ ['\\', '#', '\n']

/-- Quotation marks: the same at both ends, and interpolating unless they are apostrophes. -/
structure Delimiters.AreQuotes (d : Delimiters) : Prop where
  opener : d.opener ∈ ['"', '\'', '\x60']
  closer : d.closer = d.opener
  interpolates : d.interpolates = (d.opener != '\'')

/-- What content stands in: a literal, or code in braces. -/
inductive Surrounding
  | literal (d : Delimiters)
  | code

/-- The frame of the surrounding, with so many delimiters or braces open in it. -/
def Surrounding.frame : Surrounding → Nat → Frame
  | literal d, n => .literal d.opener d.closer d.interpolates n
  | code, n => .interpolation n

/-- Characters that mean something in code. -/
def codeMarks : List Char := ['#', '\x7b', '\x7d', '"', '\'', '\x60', '/', '%', '<', '?', '$']

/-- What is shown of a hidden character: line ends stay. -/
def hide (c : Char) : Char := if c = '\n' then '\n' else ' '

/-- Well-nested content of a literal or of code in braces, and what is shown of it. -/
inductive Nested : Surrounding → List Char → List Char → Prop
  | nil (x : Surrounding) : Nested x [] []
  /-- A character in a literal that is neither a backslash nor a hash sign nor a delimiter. -/
  | plain {d : Delimiters} {c : Char} {s t : List Char}
      (hc : c ∉ ['\\', '#', d.opener, d.closer]) (h : Nested (.literal d) s t) :
      Nested (.literal d) (c :: s) (hide c :: t)
  /-- A backslash in a literal, with any character. -/
  | escape {d : Delimiters} (c : Char) {s t : List Char} (h : Nested (.literal d) s t) :
      Nested (.literal d) ('\\' :: c :: s) (' ' :: hide c :: t)
  /-- Content of a literal between delimiters, if these can be told apart. -/
  | group {d : Delimiters} {s t s' t' : List Char} (hd : d.opener ≠ d.closer)
      (inside : Nested (.literal d) s t) (h : Nested (.literal d) s' t') :
      Nested (.literal d) (d.opener :: (s ++ d.closer :: s')) (' ' :: (t ++ ' ' :: t'))
  /-- Code in a literal. -/
  | interpolation {d : Delimiters} {s t s' t' : List Char} (hd : d.interpolates = true)
      (inside : Nested .code s t) (h : Nested (.literal d) s' t') :
      Nested (.literal d) ('#' :: '\x7b' :: (s ++ '\x7d' :: s')) (' ' :: ' ' :: (t ++ ' ' :: t'))
  /-- A character of code that means nothing by itself. -/
  | code {c : Char} {s t : List Char} (hc : c ∉ codeMarks) (h : Nested .code s t) :
      Nested .code (c :: s) (c :: t)
  /-- Code between braces. -/
  | braces {s t s' t' : List Char} (inside : Nested .code s t) (h : Nested .code s' t') :
      Nested .code ('\x7b' :: (s ++ '\x7d' :: s')) ('\x7b' :: (t ++ '\x7d' :: t'))
  /-- A quoted literal in code. -/
  | quoted {d : Delimiters} {s t s' t' : List Char} (hd : d.AreQuotes)
      (inside : Nested (.literal d) s t) (h : Nested .code s' t') :
      Nested .code (d.opener :: (s ++ d.closer :: s')) (d.opener :: (t ++ d.closer :: t'))

/-! ### On one line -/

/-- Scanning the text inside these frames shows this much of it, and leads into those frames,
whatever stands around it. -/
def Passes (frames : List Frame) (s t : List Char) (frames' : List Frame) : Prop :=
  ∀ before heredocs rest, scanFrom before frames heredocs (s ++ rest) =
    scanFrom (t.reverse ++ before) frames' heredocs rest

/-- The same for a text at the end of its line. -/
def Ends (frames : List Frame) (s t : List Char) (frames' : List Frame) : Prop :=
  ∀ before heredocs, scanFrom before frames heredocs s =
    ⟨⟨before.reverse ++ t, none⟩, frames', heredocs⟩

section Line

variable {frames frames' frames'' : List Frame} {s t s' t' : List Char}

/-- The empty text shows nothing, and keeps the frames. -/
theorem Passes.nil (frames : List Frame) : Passes frames [] [] frames := fun _ _ _ => rfl

/-- Texts that are passed one after the other are passed together. -/
theorem Passes.append (h : Passes frames s t frames') (h' : Passes frames' s' t' frames'') :
    Passes frames (s ++ s') (t ++ t') frames'' := by
  intro before heredocs rest
  rw [List.append_assoc, h, h', List.reverse_append, List.append_assoc]

/-- A text that is passed may stand in front of the end of a line. -/
theorem Passes.append_ends (h : Passes frames s t frames') (h' : Ends frames' s' t' frames'') :
    Ends frames (s ++ s') (t ++ t') frames'' := by
  intro before heredocs
  rw [h, h', List.reverse_append, List.reverse_reverse, List.append_assoc]

/-- A text that is passed may be the end of a line. -/
theorem Passes.ends (h : Passes frames s t frames') : Ends frames s t frames' := by
  have hend : Ends frames' [] [] frames' := by
    intro before heredocs
    rw [scanFrom, List.append_nil]
  have happend := h.append_ends hend
  rwa [List.append_nil, List.append_nil] at happend

/-- A `step` that opens no heredoc passes its characters. -/
theorem Passes.of_step {c d : Char} {more shown : List Char} (hlength : shown.length = more.length)
    (h : ∀ before rest, step frames before c (more ++ rest) = some ⟨d, shown, frames', none⟩) :
    Passes frames (c :: more) (d :: shown) frames' := by
  intro before heredocs rest
  rw [List.cons_append, scanFrom, h]
  simp only [Option.toList_none, List.append_nil, hlength, List.drop_left, List.reverse_cons,
    List.append_assoc, List.singleton_append]

end Line

/-! ### Steps -/

namespace Delimiters

variable (d : Delimiters) (n : Nat) (outer : List Frame)

/-- In a literal, behind it on a line, the frame with so many delimiters open. -/
abbrev inside : List Frame := (Surrounding.literal d).frame n :: outer

/-- Inside of a literal a character is read by `stepLiteral`. -/
theorem step_eq (before : List Char) (c : Char) (rest : List Char) :
    step (d.inside n outer) before c rest =
      some (stepLiteral d.opener d.closer d.interpolates n outer c rest) := rfl

/-- A delimiter is no backslash, no hash sign and no line end. -/
theorem delimiter_ne {c : Char} (hc : c = d.opener ∨ c = d.closer) :
    c ≠ '\\' ∧ c ≠ '#' ∧ c ≠ '\n' := by
  have hopener := d.opener_plain
  have hcloser := d.closer_plain
  simp only [List.mem_cons, List.not_mem_nil, or_false, not_or] at hopener hcloser
  rcases hc with rfl | rfl
  · exact hopener
  · exact hcloser

/-- A plain character of a literal is hidden, and keeps the frames (`Passes`). -/
theorem passes_plain {c : Char} (hc : c ∉ ['\\', '#', d.opener, d.closer]) :
    Passes (d.inside n outer) [c] [' '] (d.inside n outer) := by
  simp only [List.mem_cons, List.not_mem_nil, or_false, not_or] at hc
  refine .of_step rfl fun before rest => ?_
  simp [step_eq, stepLiteral, hc, Step.hide, Surrounding.frame]

/-- A backslash of a literal hides the next character with it. -/
theorem passes_escape (c : Char) :
    Passes (d.inside n outer) ['\\', c] [' ', ' '] (d.inside n outer) := by
  refine .of_step rfl fun before rest => ?_
  simp [step_eq, stepLiteral, Text.blanks, Surrounding.frame]

/-- A backslash at the end of a line (`Ends`). -/
theorem ends_escape : Ends (d.inside n outer) ['\\'] [' '] (d.inside n outer) := by
  intro before heredocs
  rw [scanFrom, step_eq]
  simp [stepLiteral, scanFrom, Text.blanks, Surrounding.frame]

/-- An opening delimiter in a literal opens one more. -/
theorem passes_opener (hd : d.opener ≠ d.closer) :
    Passes (d.inside n outer) [d.opener] [' '] (d.inside (n + 1) outer) := by
  obtain ⟨hbackslash, hhash, -⟩ := d.delimiter_ne (.inl rfl)
  refine .of_step rfl fun before rest => ?_
  simp [step_eq, stepLiteral, hbackslash, hhash, hd, Step.hide, Surrounding.frame]

/-- A closing delimiter in a literal closes one that is open in it. -/
theorem passes_inner_closer :
    Passes (d.inside (n + 1) outer) [d.closer] [' '] (d.inside n outer) := by
  obtain ⟨hbackslash, hhash, -⟩ := d.delimiter_ne (.inr rfl)
  refine .of_step rfl fun before rest => ?_
  simp [step_eq, stepLiteral, hbackslash, hhash, Step.hide, Surrounding.frame]

/-- The closer of the literal is shown. -/
theorem passes_closer : Passes (d.inside 0 outer) [d.closer] [d.closer] outer := by
  obtain ⟨hbackslash, hhash, -⟩ := d.delimiter_ne (.inr rfl)
  refine .of_step rfl fun before rest => ?_
  simp [step_eq, stepLiteral, hbackslash, hhash, Step.show]

/-- A hash sign and a brace in a literal lead into code. -/
theorem passes_interpolation (hd : d.interpolates = true) :
    Passes (d.inside n outer) ['#', '\x7b'] [' ', ' ']
      (Surrounding.code.frame 0 :: d.inside n outer) := by
  refine .of_step rfl fun before rest => ?_
  simp [step_eq, stepLiteral, hd, Surrounding.frame]

end Delimiters

section Code

variable (n : Nat) (outer : List Frame)

/-- A character of code that is none of `codeMarks` is shown. -/
theorem passes_code {c : Char} (hc : c ∉ codeMarks) :
    Passes (Surrounding.code.frame n :: outer) [c] [c] (Surrounding.code.frame n :: outer) := by
  simp only [codeMarks, List.mem_cons, List.not_mem_nil, or_false, not_or] at hc
  refine .of_step rfl fun before rest => ?_
  simp [step, stepCode, hc, Step.show, Surrounding.frame]

/-- An opening brace in code opens one more. -/
theorem passes_open_brace :
    Passes (Surrounding.code.frame n :: outer) ['\x7b'] ['\x7b']
      (Surrounding.code.frame (n + 1) :: outer) :=
  .of_step rfl fun _ _ => rfl

/-- A closing brace in code closes one that is open in it. -/
theorem passes_close_brace :
    Passes (Surrounding.code.frame (n + 1) :: outer) ['\x7d'] ['\x7d']
      (Surrounding.code.frame n :: outer) :=
  .of_step rfl fun _ _ => rfl

/-- The brace behind interpolated code. -/
theorem passes_end_of_code : Passes (Surrounding.code.frame 0 :: outer) ['\x7d'] [' '] outer :=
  .of_step rfl fun _ _ => rfl

/-- A quotation mark in code opens a literal, and is shown. -/
theorem passes_quote {d : Delimiters} (hd : d.AreQuotes) :
    Passes (Surrounding.code.frame n :: outer) [d.opener] [d.opener]
      (d.inside 0 (Surrounding.code.frame n :: outer)) := by
  refine .of_step rfl fun before rest => ?_
  rw [Delimiters.inside, Surrounding.frame, hd.closer, hd.interpolates]
  have hmark := hd.opener
  simp only [List.mem_cons, List.not_mem_nil, or_false] at hmark
  rcases hmark with hmark | hmark | hmark <;> rw [hmark] <;> rfl

end Code

/-! ### Over line ends -/

/-- Scanning a text that may have line ends in it, at each of which there is a frame. -/
inductive Crosses : List Frame → List Char → List Char → List Frame → Prop
  | line {frames frames' : List Frame} {s t : List Char} (hs : '\n' ∉ s) (ht : '\n' ∉ t)
      (h : Passes frames s t frames') : Crosses frames s t frames'
  | newline {frames frames' frames'' : List Frame} {s t s' t' : List Char} (hs : '\n' ∉ s)
      (ht : '\n' ∉ t) (h : Ends frames s t frames') (hne : frames' ≠ [])
      (hmore : Crosses frames' s' t' frames'') :
      Crosses frames (s ++ '\n' :: s') (t ++ '\n' :: t') frames''

namespace Crosses

variable {frames frames' frames'' : List Frame} {s t s' t' : List Char}

/-- Texts that are crossed one after the other (`Crosses`) are crossed together. -/
theorem append (h : Crosses frames s t frames') (h' : Crosses frames' s' t' frames'') :
    Crosses frames (s ++ s') (t ++ t') frames'' := by
  induction h with
  | line hs ht hline =>
    cases h' with
    | line hs' ht' hline' =>
      exact .line (by simp [hs, hs']) (by simp [ht, ht']) (hline.append hline')
    | newline hs' ht' hend hne hmore =>
      rw [← List.append_assoc, ← List.append_assoc]
      exact .newline (by simp [hs, hs']) (by simp [ht, ht']) (hline.append_ends hend) hne hmore
  | newline hs ht hend hne _ ih =>
    rw [List.append_assoc, List.append_assoc, List.cons_append, List.cons_append]
    exact .newline hs ht hend hne (ih h')

/-- A line end behind nothing. -/
theorem newline_cons (hne : frames ≠ []) (h : Crosses frames s t frames') :
    Crosses frames ('\n' :: s) ('\n' :: t) frames' :=
  .newline (by simp) (by simp) (Passes.nil frames).ends hne h

/-- One character of the line. -/
theorem cons_of_passes {c d : Char} (hc : c ≠ '\n') (hd : d ≠ '\n')
    (hstep : Passes frames [c] [d] frames') (h : Crosses frames' s t frames'') :
    Crosses frames (c :: s) (d :: t) frames'' :=
  (Crosses.line (by simpa using hc.symm) (by simpa using hd.symm) hstep).append h

end Crosses

/-- **Well-nested content is crossed.** The induction goes over the content, for any number of
delimiters or braces that are open and any frames further out: what a group, an interpolation or a
quoted literal opens is on top of these. -/
theorem Nested.crosses {x : Surrounding} {s t : List Char} (h : Nested x s t) (n : Nat)
    (outer : List Frame) : Crosses (x.frame n :: outer) s t (x.frame n :: outer) := by
  induction h generalizing n outer with
  | nil x => exact .line (by simp) (by simp) (.nil _)
  | @plain d c s t hc _ ih =>
    by_cases hnewline : c = '\n'
    · subst hnewline
      exact (ih n outer).newline_cons (List.cons_ne_nil _ _)
    · rw [hide, if_neg hnewline]
      exact (ih n outer).cons_of_passes hnewline (by decide) (d.passes_plain n outer hc)
  | @escape d c s t _ ih =>
    by_cases hnewline : c = '\n'
    · subst hnewline
      exact .newline (s := ['\\']) (t := [' ']) (by simp) (by simp) (d.ends_escape n outer)
        (List.cons_ne_nil _ _) (ih n outer)
    · rw [hide, if_neg hnewline]
      exact (Crosses.line (by simpa using Ne.symm hnewline) (by simp)
        (d.passes_escape n outer c)).append (ih n outer)
  | @group d s t s' t' hd _ _ ih ih' =>
    have hcloser := (ih' n outer).cons_of_passes (d.delimiter_ne (.inr rfl)).2.2 (by decide)
      (d.passes_inner_closer n outer)
    exact ((ih (n + 1) outer).append hcloser).cons_of_passes (d.delimiter_ne (.inl rfl)).2.2
      (by decide) (d.passes_opener n outer hd)
  | @interpolation d s t s' t' hd _ _ ih ih' =>
    have hbrace := (ih' n outer).cons_of_passes (by decide) (by decide)
      (passes_end_of_code (d.inside n outer))
    have hopen := Crosses.line (by simp) (by simp) (d.passes_interpolation n outer hd)
    exact hopen.append ((ih 0 (d.inside n outer)).append hbrace)
  | @code c s t hc _ ih =>
    by_cases hnewline : c = '\n'
    · subst hnewline
      exact (ih n outer).newline_cons (List.cons_ne_nil _ _)
    · exact (ih n outer).cons_of_passes hnewline hnewline (passes_code n outer hc)
  | braces _ _ ih ih' =>
    have hbrace := (ih' n outer).cons_of_passes (by decide) (by decide) (passes_close_brace n outer)
    exact ((ih (n + 1) outer).append hbrace).cons_of_passes (by decide) (by decide)
      (passes_open_brace n outer)
  | @quoted d s t s' t' hd _ _ ih ih' =>
    obtain ⟨-, -, hopener⟩ := d.delimiter_ne (.inl rfl)
    obtain ⟨-, -, hcloser⟩ := d.delimiter_ne (.inr rfl)
    have hmark := (ih' n outer).cons_of_passes hcloser hcloser
      (d.passes_closer (Surrounding.code.frame n :: outer))
    exact ((ih 0 (Surrounding.code.frame n :: outer)).append hmark).cons_of_passes hopener hopener
      (passes_quote n outer hd)

/-! ### In a file -/

/-- A place in a line of code: the masked text of the line so far, in reverse, the frames, and the
heredocs that the line has opened. -/
structure Midline where
  before : List Char
  frames : List Frame
  heredocs : List Heredoc

/-- Masks the rest of the line and the lines below it. -/
def Midline.maskAll (m : Midline) (rest : List Char) (below : List (List Char)) :
    List MaskedLine :=
  let scanned := scanFrom m.before m.frames m.heredocs rest
  scanned.masked :: (Place.mk (.ofHeredocs scanned.heredocs) scanned.frames).maskAll below

/-- A line that starts inside of a frame is a line of code, whatever its first characters are. -/
theorem Place.maskAll_inside {frames : List Frame} (hne : frames ≠ []) (line : List Char)
    (below : List (List Char)) :
    (Place.mk .code frames).maskAll (line :: below) =
      Midline.maskAll ⟨[], frames, []⟩ line below := by
  have hframes : frames.isEmpty = false := by simpa using hne
  rw [Place.maskAll, Place.mask, Midline.maskAll, scanLine]
  simp only [hframes, Bool.false_and, Bool.false_eq_true, if_false]

section File

variable {frames frames' : List Frame} {s t : List Char}

/-- A text that is passed in the middle of a line is masked by going on behind it. -/
theorem Passes.maskAll (h : Passes frames s t frames') (before : List Char)
    (heredocs : List Heredoc) (rest : List Char) (below : List (List Char)) :
    Midline.maskAll ⟨before, frames, heredocs⟩ (s ++ rest) below =
      Midline.maskAll ⟨t.reverse ++ before, frames', heredocs⟩ rest below := by
  rw [Midline.maskAll, Midline.maskAll, h]

/-- Below the end of a line come the bodies of its heredocs. -/
theorem Ends.maskAll (h : Ends frames s t frames') (before : List Char) {heredocs : List Heredoc}
    {bodies : List (List Char)} (hbodies : Bodies heredocs bodies) (below : List (List Char)) :
    Midline.maskAll ⟨before, frames, heredocs⟩ s (bodies ++ below) =
      ⟨before.reverse ++ t, none⟩ ::
        (bodies.map .hidden ++ (Place.mk .code frames').maskAll below) := by
  obtain ⟨hmasked, hafter⟩ := hbodies.maskAll frames'
  rw [Midline.maskAll, h]
  simp only
  rw [Place.maskAll_append, hmasked, hafter]

/-- A text that goes over line ends, between what stands in front of it on its first line and what
stands behind it on its last one. -/
theorem Crosses.maskAll (h : Crosses frames s t frames') :
    ('\n' ∉ s ∧ '\n' ∉ t ∧ Passes frames s t frames') ∨
    ∃ first more last shown shownMore shownLast,
      Text.lines s = first :: (more ++ [last]) ∧
      Text.lines t = shown :: (shownMore ++ [shownLast]) ∧
      ∀ before heredocs bodies, Bodies heredocs bodies → ∀ rest below,
        Midline.maskAll ⟨before, frames, heredocs⟩ first
            (bodies ++ (more ++ (last ++ rest) :: below)) =
          ⟨before.reverse ++ shown, none⟩ :: (bodies.map .hidden ++
            (shownMore.map (MaskedLine.mk · none) ++
              Midline.maskAll ⟨shownLast.reverse, frames', []⟩ rest below)) := by
  induction h with
  | line hs ht h => exact .inl ⟨hs, ht, h⟩
  | @newline frames frames₁ frames' s t s' t' hs ht hend hne _ ih =>
    refine .inr ?_
    rcases ih with ⟨hs', ht', hline⟩ | ⟨first, more, last, shown, shownMore, shownLast, hlines,
      hshown, hmask⟩
    · refine ⟨s, [], s', t, [], t', ?_, ?_, fun before heredocs bodies hbodies rest below => ?_⟩
      · rw [Text.lines_append_newline hs, Text.lines_of_not_mem hs', List.nil_append]
      · rw [Text.lines_append_newline ht, Text.lines_of_not_mem ht', List.nil_append]
      · rw [List.nil_append, hend.maskAll before hbodies, Place.maskAll_inside hne, hline.maskAll,
          List.append_nil, List.map_nil, List.nil_append]
    · refine ⟨s, first :: more, last, t, shown :: shownMore, shownLast, ?_, ?_,
        fun before heredocs bodies hbodies rest below => ?_⟩
      · rw [Text.lines_append_newline hs, hlines, List.cons_append]
      · rw [Text.lines_append_newline ht, hshown, List.cons_append]
      · -- The line below was opened by no heredoc.
        have hbelow := hmask [] [] [] .nil rest below
        rw [List.nil_append] at hbelow
        rw [hend.maskAll before hbodies, List.cons_append, Place.maskAll_inside hne, hbelow,
          List.map_cons, List.cons_append]
        rfl

end File

/-- **Literals are consumed exactly.** Take a literal that was just opened, anywhere in a file, and
well-nested content with the closer behind it. On one line they are scanned as far as to the closer,
the frames around the literal are left as they were, no heredoc is opened, and only the code in the
content is shown. Over several lines it is the same, with the bodies of the heredocs that the line
of the literal opened in front of it below the first of these lines: there is no comment on the
lines of the content, and on the last one the scanner goes on behind the closer inside the frames
around the literal, with no heredoc open. -/
theorem literal_consumed {d : Delimiters} {s t : List Char} (h : Nested (.literal d) s t)
    (before : List Char) (outer : List Frame) (heredocs : List Heredoc) :
    ('\n' ∉ s → ∀ tail,
      scanFrom before (.literal d.opener d.closer d.interpolates 0 :: outer) heredocs
          (s ++ d.closer :: tail) =
        scanFrom (d.closer :: (t.reverse ++ before)) outer heredocs tail) ∧
    (∀ first more last, Text.lines s = first :: (more ++ [last]) →
      ∃ shown shownMore shownLast, Text.lines t = shown :: (shownMore ++ [shownLast]) ∧
        ∀ bodies, Bodies heredocs bodies → ∀ tail below,
          Midline.maskAll
              ⟨before, .literal d.opener d.closer d.interpolates 0 :: outer, heredocs⟩ first
              (bodies ++ (more ++ (last ++ d.closer :: tail) :: below)) =
            ⟨before.reverse ++ shown, none⟩ :: (bodies.map .hidden ++
              (shownMore.map (MaskedLine.mk · none) ++
                Midline.maskAll ⟨d.closer :: shownLast.reverse, outer, []⟩ tail below))) := by
  have hcloser := d.passes_closer outer
  rcases (h.crosses 0 outer).maskAll with ⟨hs, ht, hline⟩ | ⟨first, more, last, shown, shownMore,
    shownLast, hlines, hshown, hmask⟩
  · refine ⟨fun _ tail => ?_, fun first more last hlines => ?_⟩
    · exact (hline before heredocs (d.closer :: tail)).trans (hcloser _ heredocs tail)
    · rw [Text.lines_of_not_mem hs] at hlines
      simp at hlines
  · refine ⟨fun hs => ?_, fun first' more' last' hlines' => ?_⟩
    · rw [Text.lines_of_not_mem hs] at hlines
      simp at hlines
    · rw [hlines] at hlines'
      obtain ⟨rfl, hrest⟩ := List.cons.inj hlines'
      obtain ⟨rfl, hlast⟩ := List.append_inj' hrest rfl
      obtain ⟨rfl, -⟩ := List.cons.inj hlast
      refine ⟨shown, shownMore, shownLast, hshown, fun bodies hbodies tail below => ?_⟩
      have hclose := hcloser.maskAll shownLast.reverse [] tail below
      simp only [List.reverse_singleton, List.singleton_append] at hclose
      rw [← hclose]
      exact hmask before heredocs bodies hbodies (d.closer :: tail) below

/-- The quotation marks of a string. -/
def stringQuotes : Delimiters := ⟨'"', '"', true, by decide, by decide⟩

/-- The string has code in it, which holds a string with a brace and goes over a line end. A heredoc
was opened in front of it, and a comment follows it. -/
theorem literal_consumed_around_body :
    Nested (.literal stringQuotes)
      ['a', '#', '\x7b', 'f', ' ', '"', '\x7d', '"', '\n', '\x7d', 'c']
      [' ', ' ', ' ', 'f', ' ', '"', ' ', '"', '\n', ' ', ' '] ∧
    maskLines (["x(<<A, \"a#\x7bf \"\x7d\"", "# body", "A", "\x7dc\") # note"].map String.toList) =
      [⟨"x(<<A, \"   f \" \"".toList, none⟩, .hidden "# body".toList, .hidden "A".toList,
        ⟨"  \")       ".toList, some 5⟩] := by
  have hquotes : stringQuotes.AreQuotes := ⟨by decide, rfl, rfl⟩
  have hcode : Nested .code ['f', ' ', '"', '\x7d', '"', '\n'] ['f', ' ', '"', ' ', '"', '\n'] :=
    .code (by decide) (.code (by decide) (.quoted (s := ['\x7d']) (t := [' ']) hquotes
      (.plain (by decide) (.nil _)) (.code (by decide) (.nil _))))
  have hnested : Nested (.literal stringQuotes)
      ['a', '#', '\x7b', 'f', ' ', '"', '\x7d', '"', '\n', '\x7d', 'c']
      [' ', ' ', ' ', 'f', ' ', '"', ' ', '"', '\n', ' ', ' '] :=
    .plain (by decide) (.interpolation rfl hcode (.plain (by decide) (.nil _)))
  refine ⟨hnested, ?_⟩
  have hbodies : Bodies [⟨false, ['A']⟩] (["# body", "A"].map String.toList) :=
    .cons ["# body".toList] ['A'] (by decide +kernel) (by decide +kernel) .nil
  obtain ⟨-, hlines⟩ :=
    literal_consumed hnested "x(<<A, \"".toList.reverse [] [⟨false, ['A']⟩]
  obtain ⟨shown, shownMore, shownLast, hshown, hmask⟩ :=
    hlines ['a', '#', '\x7b', 'f', ' ', '"', '\x7d', '"'] [] ['\x7d', 'c'] (by decide)
  have htext : Text.lines [' ', ' ', ' ', 'f', ' ', '"', ' ', '"', '\n', ' ', ' '] =
      [[' ', ' ', ' ', 'f', ' ', '"', ' ', '"'], [' ', ' ']] := by decide
  rw [htext] at hshown
  obtain ⟨rfl, hrest⟩ := List.cons.inj hshown
  obtain ⟨rfl, hlast⟩ := List.append_inj' ((List.nil_append _).trans hrest) rfl
  obtain ⟨rfl, -⟩ := List.cons.inj hlast
  have hopen : maskLines
      (["x(<<A, \"a#\x7bf \"\x7d\"", "# body", "A", "\x7dc\") # note"].map String.toList) =
        Midline.maskAll
          ⟨"x(<<A, \"".toList.reverse, [.literal '"' '"' true 0], [⟨false, ['A']⟩]⟩
          ['a', '#', '\x7b', 'f', ' ', '"', '\x7d', '"']
          (["# body", "A", "\x7dc\") # note"].map String.toList) := by
    decide +kernel
  rw [hopen]
  exact (hmask _ hbodies ") # note".toList []).trans (by decide +kernel)

/-- Without the body the second line of the content is hidden as one, and the literal stays open. -/
theorem literal_interrupted :
    Nested (.literal stringQuotes) ['a', '\n', 'b'] [' ', '\n', ' '] ∧
    scanFrom [] [] [] "x(<<A, \"".toList =
      ⟨⟨"x(<<A, \"".toList, none⟩, [.literal '"' '"' true 0], [⟨false, ['A']⟩]⟩ ∧
    Place.start.after ["x(<<A, \"a".toList, "b\") # note".toList] =
      ⟨.heredoc ⟨false, ['A']⟩ [], [.literal '"' '"' true 0]⟩ ∧
    maskLines ["x(<<A, \"a".toList, "b\") # note".toList] =
      [⟨"x(<<A, \" ".toList, none⟩, .hidden "b\") # note".toList] :=
  ⟨.plain (by decide) (.plain (by decide) (.plain (by decide) (.nil _))), by decide +kernel,
    by decide +kernel, by decide +kernel⟩

end TypeNotes.Ruby
