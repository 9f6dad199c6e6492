import TypeNotes.Proofs.Ruby.Declaration

/-!
# Carriage returns at line ends

A carriage return that is put at the end of a line changes nothing but the length of the line. The
masked line is one character longer, and the scanner finds the same comment and is in the same place
afterwards (`Place.mask_append_return`).

**Where a return could be seen.** Every step that looks ahead may reach the end of the line: a
backslash in a literal takes the next character with it, a character literal may want one more, and
names, heredocs and percent literals look for what stops them. A return stops all of them as the end
does, or is blanked out as the last character of the step (`Step.Extends`). It can close no literal,
because no delimiter is white space (`Frame.Visible`).
-/

namespace TypeNotes.Ruby

open Unicode

/-! ### Delimiters -/

/-- The delimiters of a literal are no carriage returns. -/
def Frame.Visible : Frame → Prop
  | .literal opener closer _ _ => opener ≠ '\r' ∧ closer ≠ '\r'
  | .interpolation _ => True

/-- No delimiter of a percent literal is a carriage return, nor is what closes it. -/
theorem ne_return_of_isDelimiter {c : Char} (h : isDelimiter c = true) :
    c ≠ '\r' ∧ closerOf c ≠ '\r' := by
  have hc : c ≠ '\r' := by
    rintro rfl
    revert h
    decide
  refine ⟨hc, ?_⟩
  unfold closerOf
  split
  all_goals first | decide | exact hc

/-- The frames of `percentOpening?` are not delimited by carriage returns (`Frame.Visible`). -/
theorem visible_of_percentOpening? {s opening : List Char} {frame : Frame}
    (h : percentOpening? s = some (opening, frame)) : frame.Visible := by
  unfold percentOpening? at h
  split at h
  · cases h
  split at h
  · split at h
    · cases h
    split at h
    · rename_i hd
      obtain ⟨-, rfl⟩ := Prod.mk.inj (Option.some.inj h)
      exact ne_return_of_isDelimiter hd
    · cases h
  split at h
  · rename_i hd
    obtain ⟨-, rfl⟩ := Prod.mk.inj (Option.some.inj h)
    exact ne_return_of_isDelimiter hd
  · cases h

/-- `stepHeredoc?` leaves the frames as they are. -/
theorem frames_of_stepHeredoc? {frames : List Frame} {before : List Char} {c : Char}
    {rest : List Char} {s : Step} (h : stepHeredoc? frames before c rest = some s) :
    s.frames = frames := by
  unfold stepHeredoc? at h
  split at h
  · simp only [Option.bind_eq_bind, Option.bind_eq_some_iff] at h
    obtain ⟨opening, -, first, -, hstep⟩ := h
    split at hstep
    · obtain rfl := Option.some.inj hstep
      rfl
    · cases hstep
  · cases h

/-- `stepCharacter?` leaves the frames as they are. -/
theorem frames_of_stepCharacter? {frames : List Frame} {before : List Char} {c : Char}
    {rest : List Char} {s : Step} (h : stepCharacter? frames before c rest = some s) :
    s.frames = frames := by
  simp only [stepCharacter?, Option.bind_eq_bind, Option.bind_eq_some_iff] at h
  obtain ⟨next, -, hstep⟩ := h
  generalize (if (next == '\\') = true then 2 else 1) = count at hstep
  split at hstep
  · obtain rfl := Option.some.inj hstep
    rfl
  · cases hstep

section Visible

variable {frames : List Frame} (hframes : ∀ f ∈ frames, f.Visible)

include hframes

/-- `stepLiteral` opens no frame that a carriage return delimits. -/
theorem visible_stepLiteral {opener closer : Char} (hopener : opener ≠ '\r') (hcloser : closer ≠ '\r')
    (interpolates : Bool) (nesting : Nat) (c : Char) (rest : List Char) :
    ∀ f ∈ (stepLiteral opener closer interpolates nesting frames c rest).frames, f.Visible := by
  have hhere : ∀ n, ∀ f ∈ Frame.literal opener closer interpolates n :: frames, f.Visible :=
    fun n => List.forall_mem_cons.2 ⟨⟨hopener, hcloser⟩, hframes⟩
  unfold stepLiteral
  simp only
  split
  · exact hhere nesting
  split
  · exact List.forall_mem_cons.2 ⟨trivial, hhere nesting⟩
  split
  · split
    · exact hframes
    · exact hhere _
  split
  · exact hhere _
  · exact hhere nesting

/-- `openBrace` opens no frame that a carriage return delimits. -/
theorem visible_openBrace : ∀ f ∈ openBrace frames, f.Visible := by
  unfold openBrace
  split
  · exact List.forall_mem_cons.2 ⟨trivial, (List.forall_mem_cons.1 hframes).2⟩
  · exact hframes

/-- `stepCloseBrace` opens no frame that a carriage return delimits. -/
theorem visible_stepCloseBrace (c : Char) : ∀ f ∈ (stepCloseBrace c frames).frames, f.Visible := by
  unfold stepCloseBrace
  split
  · exact (List.forall_mem_cons.1 hframes).2
  · exact List.forall_mem_cons.2 ⟨trivial, (List.forall_mem_cons.1 hframes).2⟩
  · exact hframes

/-- `stepCode` opens no frame that a carriage return delimits. -/
theorem visible_stepCode (before : List Char) (c : Char) (rest : List Char) :
    ∀ f ∈ (stepCode frames before c rest).frames, f.Visible := by
  unfold stepCode
  simp only
  split
  · exact visible_openBrace hframes
  · exact visible_stepCloseBrace hframes _
  · split
    · split
      · exact hframes
      · exact hframes
    · exact hframes
  · exact List.forall_mem_cons.2 ⟨⟨by decide, by decide⟩, hframes⟩
  · exact List.forall_mem_cons.2 ⟨⟨by decide, by decide⟩, hframes⟩
  · exact List.forall_mem_cons.2 ⟨⟨by decide, by decide⟩, hframes⟩
  · cases hheredoc : stepHeredoc? frames before '<' rest with
    | none => exact hframes
    | some s =>
      rw [Option.getD_some, frames_of_stepHeredoc? hheredoc]
      exact hframes
  · split
    · split
      · rename_i hopening
        exact List.forall_mem_cons.2 ⟨visible_of_percentOpening? hopening, hframes⟩
      · exact hframes
    · exact hframes
  · split
    · exact List.forall_mem_cons.2 ⟨⟨by decide, by decide⟩, hframes⟩
    · exact hframes
  · cases hcharacter : stepCharacter? frames before '?' rest with
    | none => exact hframes
    | some s =>
      rw [Option.getD_some, frames_of_stepCharacter? hcharacter]
      exact hframes
  · exact hframes

/-- No step opens a literal that a carriage return could close. -/
theorem visible_step {before : List Char} {c : Char} {rest : List Char} {s : Step}
    (h : step frames before c rest = some s) : ∀ f ∈ s.frames, f.Visible := by
  unfold step at h
  split at h
  · obtain ⟨hhere, houter⟩ := List.forall_mem_cons.1 hframes
    obtain rfl := Option.some.inj h
    exact visible_stepLiteral houter hhere.1 hhere.2 _ _ c rest
  · split at h
    · cases h
    · obtain rfl := Option.some.inj h
      exact visible_stepCode hframes before c rest

/-- The frames at the end of a line are not delimited by carriage returns if those at its start are
not. -/
theorem visible_scanFrom (before : List Char) (heredocs : List Heredoc) (line : List Char) :
    ∀ f ∈ (scanFrom before frames heredocs line).frames, f.Visible := by
  fun_induction scanFrom before frames heredocs line with
  | case1 => exact hframes
  | case2 => exact hframes
  | case3 before frames heredocs c rest s hstep ih => exact ih (visible_step hframes hstep)

end Visible

/-! ### Looking ahead -/

/-- `literalAllowed` is told the same way in front of the carriage return: it counts as the end of
the line does. -/
theorem literalAllowed_append_return (before rest : List Char) :
    literalAllowed before (rest ++ ['\r']).head? = literalAllowed before rest.head? := by
  cases rest with
  | nil =>
    have hspace : (!isSpace '\r') = false := by decide
    simp [literalAllowed, hspace]
  | cons c rest => rfl

/-- A slash is looked for on both sides of a character that is neither a slash nor a backslash. -/
theorem closesOnLine_append_stop {x : Char} (hbackslash : x ≠ '\\') (hslash : x ≠ '/')
    (s t : List Char) : closesOnLine (s ++ x :: t) = (closesOnLine s || closesOnLine t) := by
  fun_induction closesOnLine s with
  | case1 =>
    rw [List.nil_append, closesOnLine, Bool.false_or]
    · exact hbackslash
    · exact hslash
  | case2 rest ih =>
    cases rest with
    | nil => simp [closesOnLine]
    | cons c rest =>
      rw [List.cons_append, List.cons_append, closesOnLine]
      exact ih
  | case3 rest => rw [List.cons_append, closesOnLine, Bool.true_or]
  | case4 c rest hbackslash' hslash' ih =>
    rw [List.cons_append, closesOnLine, ih]
    · exact hbackslash'
    · exact hslash'

/-- A character that stops the name of a heredoc, and is no flag or quotation mark of one. -/
def stopsHeredoc (x : Char) : Bool := !isWord x && !"~-\"'`".toList.contains x

/-- A run of characters ends in front of a character that is not of their class. -/
theorem cut_append_stop {p : Char → Bool} {x : Char} (hx : p x = false) (s t : List Char) :
    (s ++ x :: t).takeWhile p = s.takeWhile p ∧
      (s ++ x :: t).dropWhile p = s.dropWhile p ++ x :: t := by
  induction s with
  | nil => simp [hx]
  | cons c s ih => by_cases hc : p c = true <;> simp [hc, ih.1, ih.2]

/-- A mark that may stand next is found as without what stands behind the stop. -/
theorem filter_take_append_stop {p : Char → Bool} {x : Char} (hx : p x = false) (s t : List Char) :
    ((s ++ x :: t).take 1).filter p = (s.take 1).filter p ∧
      (s ++ x :: t).drop ((s.take 1).filter p).length =
        s.drop ((s.take 1).filter p).length ++ x :: t := by
  cases s with
  | nil => simp [hx]
  | cons c s =>
    refine ⟨rfl, ?_⟩
    have hle : (((c :: s).take 1).filter p).length ≤ (c :: s).length :=
      Nat.le_trans (List.length_filter_le _ _) (List.length_take_le' 1 (c :: s))
    rw [List.drop_append_of_le_length hle]

/-- A character that is not in a word does not help the word to be a prefix. -/
theorem isPrefixOf_append_stop {start : List Char} {x : Char} (h : x ∉ start) (s t : List Char) :
    start.isPrefixOf (s ++ x :: t) = start.isPrefixOf s := by
  induction start generalizing s with
  | nil => simp
  | cons c start ih =>
    rw [List.mem_cons, not_or] at h
    cases s with
    | nil =>
      have hne : (c == x) = false := by simpa using Ne.symm h.1
      simp [List.isPrefixOf, hne]
    | cons d s => simp only [List.cons_append, List.isPrefixOf, ih h.2]

/-- The opening of a heredoc is read up to a stop. -/
theorem heredocOpening_append_stop {x : Char} (hx : stopsHeredoc x = true) (s t : List Char) :
    HeredocOpening.ofText? (s ++ x :: t) = HeredocOpening.ofText? s := by
  simp only [stopsHeredoc, Bool.and_eq_true, Bool.not_eq_true', List.contains_eq_mem,
    decide_eq_false_iff_not, String.reduceToList, List.mem_cons, List.not_mem_nil, or_false,
    not_or] at hx
  obtain ⟨hword, htilde, hdash, hdouble, hsingle, htick⟩ := hx
  have hflagged : (x == '~' || x == '-') = false := by simp [htilde, hdash]
  have hquoted : (x == '"' || x == '\'' || x == '`') = false := by simp [hdouble, hsingle, htick]
  have hname : isNameStart x = false := by
    simp only [isWord, isAlphanumeric, Char.isAlphanum, Bool.or_eq_false_iff] at hword
    simp only [isNameStart, hword.1.1.1, hword.2, Bool.or_self]
  obtain ⟨hflag, hdrop⟩ :=
    filter_take_append_stop (p := fun c => c == '~' || c == '-') hflagged s t
  unfold HeredocOpening.ofText?
  simp only [hflag, hdrop]
  generalize s.drop ((s.take 1).filter fun c => c == '~' || c == '-').length = named
  obtain ⟨hmark, hdrop'⟩ := filter_take_append_stop
    (p := fun c => c == '"' || c == '\'' || c == '`') hquoted named t
  simp only [hmark, hdrop']
  have hprefix := fun s => isPrefixOf_append_stop (not_mem_of_filter
    (p := fun c => c == '"' || c == '\'' || c == '`') hquoted (named.take 1)) s t
  generalize named.drop
    ((named.take 1).filter fun c => c == '"' || c == '\'' || c == '`').length = name
  cases name with
  | nil => simp [hname]
  | cons c rest =>
    obtain ⟨htake, hrest⟩ := cut_append_stop hword rest t
    simp only [List.cons_append, htake, hrest, hprefix]

/-- `percentOpening?` is the same in front of the carriage return as without it. -/
theorem percentOpening?_append_return (s : List Char) :
    percentOpening? (s ++ ['\r']) = percentOpening? s := by
  cases s with
  | nil => decide
  | cons c rest =>
    cases rest with
    | nil =>
      have hdelimiter : isDelimiter '\r' = false := by decide
      simp [percentOpening?, hdelimiter]
    | cons d rest => rfl

/-! ### One step -/

/-- A step in front of the carriage return at the end of its line: the same one as without it, or
one that reached the end of the line and blanks out the return as well. -/
def Step.Extends (s' s : Step) (rest : List Char) : Prop :=
  s' = s ∨ s.more.length = rest.length ∧ s' = { s with more := s.more ++ [' '] }

/-- `stepLiteral` is the same with a carriage return at the end of the line, or takes the return as
well. -/
theorem extends_stepLiteral (opener closer : Char) (interpolates : Bool) (nesting : Nat)
    (outer : List Frame) (c : Char) (rest : List Char) :
    (stepLiteral opener closer interpolates nesting outer c (rest ++ ['\r'])).Extends
      (stepLiteral opener closer interpolates nesting outer c rest) rest := by
  have hbrace : ((rest ++ ['\r']).head? == some '\x7b') = (rest.head? == some '\x7b') := by
    cases rest <;> rfl
  unfold stepLiteral
  simp only [hbrace]
  split
  · cases rest with
    | nil => exact .inr ⟨rfl, rfl⟩
    | cons d rest => exact .inl rfl
  · exact .inl rfl

/-- A carriage return is no character of a word, like the end of the line. -/
theorem any_getElem?_append_return (rest : List Char) (count : Nat) :
    (rest ++ ['\r'])[count]?.any isWord = rest[count]?.any isWord := by
  rcases Nat.lt_or_ge count rest.length with hlt | hge
  · rw [List.getElem?_append_left hlt]
  · rw [List.getElem?_append_right hge, List.getElem?_eq_none hge]
    have hword : isWord '\r' = false := by decide
    cases count - rest.length with
    | zero => simp [hword]
    | succ k => rfl

/-- `stepCharacter?` is the same with a carriage return at the end of the line, or takes the return
as well. -/
theorem extends_stepCharacter? (frames : List Frame) (before : List Char) (rest : List Char) :
    ((stepCharacter? frames before '?' (rest ++ ['\r'])).getD (.show '?' frames)).Extends
      ((stepCharacter? frames before '?' rest).getD (.show '?' frames)) rest := by
  cases rest with
  | nil =>
    -- With nothing behind it, a question mark may take the return as its character.
    have hplain : (if ('\r' == '\\') = true then 2 else 1) = 1 := rfl
    simp only [stepCharacter?, List.nil_append, List.head?_cons, List.head?_nil,
      Option.bind_eq_bind, Option.bind_none, Option.bind_some, Option.getD_none, hplain]
    split
    · exact .inr ⟨rfl, rfl⟩
    · exact .inl rfl
  | cons next rest =>
    have hhead : (next :: rest ++ ['\r']).head? = some next := rfl
    simp only [stepCharacter?, hhead, List.head?_cons, Option.bind_eq_bind, Option.bind_some,
      any_getElem?_append_return]
    obtain ⟨count, hcount, hle⟩ : ∃ count, (if (next == '\\') = true then 2 else 1) = count ∧
        count ≤ 2 := ⟨_, rfl, by split <;> omega⟩
    rw [hcount]
    split
    · rcases Nat.lt_or_ge (next :: rest).length count with hlt | hge
      · -- A backslash at the end takes the return with it.
        have hlength : count = (next :: rest).length + 1 := by
          rw [List.length_cons] at hlt ⊢
          omega
        refine .inr ⟨?_, ?_⟩
        · simp only [Option.getD_some, Text.blanks, List.length_replicate, List.length_take]
          omega
        · simp [hlength, Text.blanks, List.replicate_succ']
      · rw [List.take_append_of_le_length hge]
        exact .inl rfl
    · exact .inl rfl

/-- `stepHeredoc?` reads up to a character that stops it, whatever follows. -/
theorem stepHeredoc?_append_stop {x : Char} (hx : stopsHeredoc x = true) (hangle : x ≠ '<')
    (frames : List Frame) (before : List Char) (c : Char) (rest t : List Char) :
    stepHeredoc? frames before c (rest ++ x :: t) = stepHeredoc? frames before c rest := by
  have hnone : ∀ d more, d ≠ '<' → stepHeredoc? frames before c (d :: more) = none := by
    intro d more hd
    unfold stepHeredoc?
    split
    · rename_i heq
      exact absurd (List.cons.inj heq).1 hd
    · rfl
  cases rest with
  | nil => exact hnone x t hangle
  | cons d rest =>
    by_cases hd : d = '<'
    · subst hd
      simp only [stepHeredoc?, List.cons_append, heredocOpening_append_stop hx]
    · rw [List.cons_append, hnone d _ hd, hnone d _ hd]

/-- `stepCode` is the same with a carriage return at the end of the line, or takes the return as
well. -/
theorem extends_stepCode (frames : List Frame) (before : List Char) (c : Char) (rest : List Char) :
    (stepCode frames before c (rest ++ ['\r'])).Extends (stepCode frames before c rest) rest := by
  by_cases hcharacter : c = '?'
  · subst hcharacter
    exact extends_stepCharacter? frames before rest
  · -- All other steps are the same.
    refine .inl ?_
    have hcloses : closesOnLine (rest ++ ['\r']) = closesOnLine rest := by
      rw [closesOnLine_append_stop (by decide) (by decide), closesOnLine, Bool.or_false]
    have hregexp : regexpAllowed before (rest ++ ['\r']) = regexpAllowed before rest := by
      rw [regexpAllowed, regexpAllowed, literalAllowed_append_return, hcloses]
    have hheredoc : stepHeredoc? frames before c (rest ++ ['\r']) =
        stepHeredoc? frames before c rest :=
      stepHeredoc?_append_stop (by decide) (by decide) frames before c rest []
    unfold stepCode
    simp only [literalAllowed_append_return, percentOpening?_append_return, hheredoc, hregexp]
    split
    · rfl
    · rfl
    · cases rest with
      | nil => rfl
      | cons d rest => rfl
    · rfl
    · rfl
    · rfl
    · rfl
    · rfl
    · rfl
    · exact absurd rfl hcharacter
    · rfl

/-- A step that does not start a comment is the same in front of a return at the end of the line, but
for what it takes with it. -/
theorem extends_step {frames : List Frame} {before : List Char} {c : Char} {rest : List Char}
    {s : Step} (h : step frames before c rest = some s) :
    ∃ s', step frames before c (rest ++ ['\r']) = some s' ∧ s'.Extends s rest := by
  unfold step at h ⊢
  split at h
  · obtain rfl := Option.some.inj h
    exact ⟨_, rfl, extends_stepLiteral _ _ _ _ _ c rest⟩
  · split at h
    · cases h
    · rename_i hc
      obtain rfl := Option.some.inj h
      exact ⟨_, if_neg hc, extends_stepCode frames before c rest⟩

/-- A hash sign starts a comment or not, whatever stands behind it. -/
theorem step_hash_eq_none {frames : List Frame} {before text : List Char}
    (h : step frames before '#' text = none) (other : List Char) :
    step frames before '#' other = none := by
  unfold step at h ⊢
  split at h
  · cases h
  · rfl

/-- A carriage return is no delimiter and starts nothing. -/
theorem step_return {frames : List Frame} (hframes : ∀ f ∈ frames, f.Visible) (before : List Char) :
    ∃ x, (x = '\r' ∨ x = ' ') ∧ step frames before '\r' [] = some ⟨x, [], frames, none⟩ := by
  unfold step
  split
  · obtain ⟨⟨hopener, hcloser⟩, -⟩ := List.forall_mem_cons.1 hframes
    have hopener' : ('\r' == _) = false := beq_eq_false_iff_ne.2 hopener.symm
    have hcloser' : ('\r' == _) = false := beq_eq_false_iff_ne.2 hcloser.symm
    refine ⟨' ', .inr rfl, ?_⟩
    simp [stepLiteral, hopener', hcloser', Step.hide]
  · exact ⟨'\r', .inl rfl, rfl⟩

/-! ### Lines -/

/-- A scanned line with one more character at its end. -/
def ScannedLine.push (s : ScannedLine) (x : Char) : ScannedLine :=
  { s with masked := { s.masked with text := s.masked.text ++ [x] } }

/-- `scanFrom` scans a line with a carriage return at its end as without it. -/
theorem scanFrom_append_return (before : List Char) {frames : List Frame}
    (hframes : ∀ f ∈ frames, f.Visible) (heredocs : List Heredoc) (line : List Char) :
    ∃ x, (x = '\r' ∨ x = ' ') ∧ scanFrom before frames heredocs (line ++ ['\r']) =
      (scanFrom before frames heredocs line).push x := by
  fun_induction scanFrom before frames heredocs line with
  | case1 before frames heredocs =>
    obtain ⟨x, hx, hstep⟩ := step_return hframes before
    refine ⟨x, hx, ?_⟩
    rw [List.nil_append, scanFrom, hstep]
    simp [scanFrom, ScannedLine.push]
  | case2 before frames heredocs c rest hstep =>
    obtain rfl := eq_hash_of_step hstep
    refine ⟨' ', .inr rfl, ?_⟩
    rw [List.cons_append, scanFrom, step_hash_eq_none hstep]
    simp [ScannedLine.push, Text.blanks, List.replicate_succ', List.append_assoc]
  | case3 before frames heredocs c rest s hstep ih =>
    obtain ⟨s', hstep', hextends⟩ := extends_step hstep
    obtain ⟨taken, after, rfl, hshows⟩ := exists_shows_of_step hstep
    have hlength : s.more.length = taken.length := by
      have := hshows.length_eq
      simpa using this
    rw [List.cons_append, scanFrom, hstep']
    rcases hextends with rfl | ⟨hall, rfl⟩
    · obtain ⟨x, hx, hscan⟩ := ih (visible_step hframes hstep)
      refine ⟨x, hx, ?_⟩
      rw [hlength, List.drop_left] at hscan
      simp only [hlength, List.append_assoc, List.drop_left, hscan]
    · -- The step takes the return with it, so that the line ends after it.
      have hnil : after = [] := by
        rw [hlength, List.length_append] at hall
        exact List.length_eq_zero_iff.1 (by omega)
      refine ⟨' ', .inr rfl, ?_⟩
      subst hnil
      simp [hlength, scanFrom, ScannedLine.push]

/-! ### All regions -/

/-- No literal that is open could be closed by a carriage return. -/
def Place.Visible (p : Place) : Prop := ∀ f ∈ p.frames, f.Visible

/-- The frames after a line are not delimited by carriage returns if those before it are not. -/
theorem Place.visible_mask {p : Place} (hp : p.Visible) (line : List Char) :
    (p.mask line).2.Visible := by
  unfold Place.mask
  simp only
  split
  · exact hp
  · split
    · exact hp
    · exact hp
  · split
    · exact hp
    · exact hp
  · split
    · exact hp
    split
    · exact hp
    · exact visible_scanFrom hp [] [] line

/-- `Text.dropReturns` takes off one more carriage return. -/
theorem dropReturns_append_return (line : List Char) :
    Text.dropReturns (line ++ ['\r']) = Text.dropReturns line := by
  rw [Text.dropReturns, List.reverse_append, List.reverse_singleton, List.singleton_append,
    List.dropWhile_cons_of_pos (by decide), Text.dropReturns]

/-- A hidden line hides the carriage return at its end. -/
theorem hidden_append_return (line : List Char) :
    MaskedLine.hidden (line ++ ['\r']) = ⟨(MaskedLine.hidden line).text ++ [' '], none⟩ := by
  simp [MaskedLine.hidden, Text.blanks, List.replicate_succ']

/-- In every region of a file, `Place.mask` masks a line with a carriage return at its end as
without it. -/
theorem Place.mask_append_return {p : Place} (hp : p.Visible) (line : List Char) :
    ∃ x, (x = '\r' ∨ x = ' ') ∧ p.mask (line ++ ['\r']) =
      (⟨(p.mask line).1.text ++ [x], (p.mask line).1.comment⟩, (p.mask line).2) := by
  have hends : ∀ h : Heredoc, h.endsAt (line ++ ['\r']) = h.endsAt line := by
    intro h
    rw [Heredoc.endsAt, dropReturns_append_return]
    rfl
  have hbegin : Text.startsWith (line ++ ['\r']) "=begin" = Text.startsWith line "=begin" :=
    isPrefixOf_append_stop (by decide) line []
  have hend : Text.startsWith (line ++ ['\r']) "=end" = Text.startsWith line "=end" :=
    isPrefixOf_append_stop (by decide) line []
  obtain ⟨x, hx, hscan⟩ := scanFrom_append_return [] hp [] line
  unfold Place.mask
  simp only [hends, hbegin, hend, dropReturns_append_return, hidden_append_return, scanLine, hscan]
  split
  · exact ⟨' ', .inr rfl, rfl⟩
  · exact ⟨' ', .inr rfl, rfl⟩
  · exact ⟨' ', .inr rfl, rfl⟩
  · split
    · exact ⟨' ', .inr rfl, rfl⟩
    split
    · exact ⟨' ', .inr rfl, rfl⟩
    · exact ⟨x, hx, rfl⟩

end TypeNotes.Ruby
