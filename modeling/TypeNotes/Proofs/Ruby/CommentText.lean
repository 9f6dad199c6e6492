import TypeNotes.Proofs.Lint.Translation
import TypeNotes.Proofs.Ruby.Return

/-!
# What the text of a comment can change

The text of a comment is blanked out, and the code in front of it is read without it but for two
questions. A slash that may start the first argument of a call is taken for a division unless
another slash follows on the line, and the line goes on behind the hash sign. A question mark in
front of the hash sign makes a character literal of it unless a word character follows.

**Questions.** `questions` lists what the scanner asks of the text of a comment on its way through
the code. A text that gives the same answers can stand in its place: the comments of the file are at
the same places, and all lines show the same but for the blanks of the comment itself
(`maskLines_comment_text`). Where the answers differ the comment can be lost
(`comment_lost_by_text`).

**One step.** What a step does is the same for two texts that answer its question alike
(`step_congr_text`). A step never reaches behind the hash sign of a comment, so this carries over to
the whole line (`scanFrom_text`), to the place after it (`Place.mask_text`), and to the file.
-/

namespace TypeNotes.Ruby

open Unicode

/-! ### Questions -/

/-- What the scanner can ask of the text behind a hash sign. -/
inductive Question
  /-- Whether it holds a slash, those behind a backslash apart. -/
  | slash
  /-- Whether it starts with a word character. -/
  | word
  deriving DecidableEq, Repr

/-- What a text answers. -/
def Question.answer : Question → List Char → Bool
  | .slash, text => closesOnLine text
  | .word, text => text.head?.any isWord

/-- Whether the scanner reads code inside these frames. -/
def inCode : List Frame → Bool
  | .literal .. :: _ => false
  | _ => true

/-- What the scanner asks of the text of a comment when it comes to the character `c`, with `ahead`
between the character and the hash sign. -/
def question? (frames : List Frame) (before : List Char) (c : Char) (ahead : List Char) :
    Option Question :=
  if inCode frames && literalAllowed before (ahead ++ ['#']).head? then
    if c == '/' && !valueExpected before && !closesOnLine ahead then some .slash
    else if c == '?' && (ahead == [] || ahead == ['\\']) then some .word
    else none
  else none

/-- What the scanner asks of the text of a comment on its way through the code in front of it. -/
def questions (before : List Char) (frames : List Frame) (text : List Char) :
    List Char → List Question
  | [] => []
  | c :: ahead =>
    match step frames before c (ahead ++ '#' :: text) with
    | none => []
    | some s =>
      (question? frames before c ahead).toList ++
        questions (s.more.reverse ++ s.first :: before) s.frames text (ahead.drop s.more.length)
termination_by code => code.length
decreasing_by simp only [List.length_drop, List.length_cons]; omega

theorem question?_eq_none {c : Char} (hslash : c ≠ '/') (hmark : c ≠ '?') (frames : List Frame)
    (before ahead : List Char) : question? frames before c ahead = none := by
  simp [question?, hslash, hmark]

/-- Only slashes and question marks make the scanner ask (`questions`). -/
theorem questions_eq_nil {code : List Char} (hslash : '/' ∉ code) (hmark : '?' ∉ code)
    (before : List Char) (frames : List Frame) (text : List Char) :
    questions before frames text code = [] := by
  fun_induction questions before frames text code with
  | case1 => rfl
  | case2 => rfl
  | case3 before frames c ahead s hstep ih =>
    rw [List.mem_cons, not_or] at hslash hmark
    have hnone := question?_eq_none (Ne.symm hslash.1) (Ne.symm hmark.1) frames before ahead
    rw [hnone, ih]
    · rfl
    · exact fun hmem => hslash.2 (List.mem_of_mem_drop hmem)
    · exact fun hmem => hmark.2 (List.mem_of_mem_drop hmem)

/-! ### One step -/

theorem head?_append_hash (ahead text : List Char) :
    (ahead ++ '#' :: text).head? = (ahead ++ ['#']).head? := by
  cases ahead <;> rfl

theorem stepLiteral_congr_text (opener closer : Char) (interpolates : Bool) (nesting : Nat)
    (outer : List Frame) (c : Char) (ahead text other : List Char) :
    stepLiteral opener closer interpolates nesting outer c (ahead ++ '#' :: other) =
      stepLiteral opener closer interpolates nesting outer c (ahead ++ '#' :: text) := by
  cases ahead <;> rfl

theorem percentOpening?_congr_text (ahead text other : List Char) :
    percentOpening? (ahead ++ '#' :: other) = percentOpening? (ahead ++ '#' :: text) := by
  cases ahead with
  | nil => rfl
  | cons c ahead => cases ahead <;> rfl

section Step

variable {frames : List Frame} {before : List Char} {c : Char} {ahead text other : List Char}

theorem regexpAllowed_congr_text
    (h : valueExpected before = false → literalAllowed before (ahead ++ ['#']).head? = true →
      closesOnLine ahead = false → closesOnLine other = closesOnLine text) :
    regexpAllowed before (ahead ++ '#' :: other) = regexpAllowed before (ahead ++ '#' :: text) := by
  simp only [regexpAllowed, head?_append_hash,
    closesOnLine_append_stop (x := '#') (by decide) (by decide)]
  cases hvalue : valueExpected before with
  | true => rfl
  | false =>
    cases hliteral : literalAllowed before (ahead ++ ['#']).head? with
    | false => rfl
    | true =>
      cases hcloses : closesOnLine ahead with
      | true => rfl
      | false => rw [h hvalue hliteral hcloses]

theorem stepCharacter?_plain {d : Char} (hd : d ≠ '\\') (rest : List Char) :
    stepCharacter? frames before c (d :: rest) =
      if literalAllowed before (some d) && !(rest.head?.any isWord) then
        some ⟨c, [' '], frames, none⟩
      else none := by
  have hcount : (if (d == '\\') = true then 2 else 1) = 1 := if_neg (by simpa using hd)
  simp only [stepCharacter?, List.head?_cons, Option.bind_eq_bind, Option.bind_some, hcount,
    List.getElem?_cons_succ, ← List.head?_eq_getElem?]
  rfl

theorem stepCharacter?_escape (d : Char) (rest : List Char) :
    stepCharacter? frames before c ('\\' :: d :: rest) =
      if literalAllowed before (some '\\') && !(rest.head?.any isWord) then
        some ⟨c, [' ', ' '], frames, none⟩
      else none := by
  have hcount : (if ('\\' == '\\') = true then 2 else 1) = 2 := if_pos rfl
  simp only [stepCharacter?, List.head?_cons, Option.bind_eq_bind, Option.bind_some, hcount,
    List.getElem?_cons_succ, ← List.head?_eq_getElem?]
  rfl

theorem stepCharacter?_congr_text
    (h : literalAllowed before (ahead ++ ['#']).head? = true → ahead = [] ∨ ahead = ['\\'] →
      other.head?.any isWord = text.head?.any isWord) :
    stepCharacter? frames before c (ahead ++ '#' :: other) =
      stepCharacter? frames before c (ahead ++ '#' :: text) := by
  match ahead with
  | [] =>
    simp only [List.nil_append, stepCharacter?_plain (show '#' ≠ '\\' by decide)]
    cases hliteral : literalAllowed before (some '#') with
    | false => rfl
    | true => rw [h hliteral (.inl rfl)]
  | [d] =>
    by_cases hd : d = '\\'
    · subst hd
      simp only [List.cons_append, List.nil_append, stepCharacter?_escape]
      cases hliteral : literalAllowed before (some '\\') with
      | false => rfl
      | true => rw [h hliteral (.inr rfl)]
    · rw [List.singleton_append, List.singleton_append, stepCharacter?_plain hd,
        stepCharacter?_plain hd]
      rfl
  | d :: e :: ahead =>
    -- The character behind the literal stands in front of the hash sign, or is the hash sign.
    by_cases hd : d = '\\'
    · subst hd
      simp only [List.cons_append, stepCharacter?_escape, head?_append_hash]
    · simp only [List.cons_append]
      rw [stepCharacter?_plain hd, stepCharacter?_plain hd]
      rfl

theorem stepCode_congr_text (hcode : inCode frames = true)
    (h : ∀ q ∈ question? frames before c ahead, q.answer other = q.answer text) :
    stepCode frames before c (ahead ++ '#' :: other) =
      stepCode frames before c (ahead ++ '#' :: text) := by
  have hheredoc : stepHeredoc? frames before c (ahead ++ '#' :: other) =
      stepHeredoc? frames before c (ahead ++ '#' :: text) := by
    rw [stepHeredoc?_append_stop (by decide) (by decide),
      stepHeredoc?_append_stop (by decide) (by decide)]
  unfold stepCode
  simp only [head?_append_hash, hheredoc, percentOpening?_congr_text ahead text other]
  split
  · rfl
  · rfl
  · cases ahead <;> rfl
  · rfl
  · rfl
  · rfl
  · rfl
  · rfl
  · rw [regexpAllowed_congr_text]
    intro hvalue hliteral hcloses
    refine h .slash ?_
    rw [question?, hcode, hliteral, hvalue, hcloses]
    rfl
  · rw [stepCharacter?_congr_text]
    intro hliteral hahead
    refine h .word ?_
    rw [question?, hcode, hliteral]
    simp [hahead]
  · rfl

/-- `step` is the same in front of two texts that answer alike what it asks. -/
theorem step_congr_text
    (h : ∀ q ∈ question? frames before c ahead, q.answer other = q.answer text) :
    step frames before c (ahead ++ '#' :: other) = step frames before c (ahead ++ '#' :: text) := by
  unfold step
  split
  · rw [stepLiteral_congr_text]
  · rename_i hframes
    have hcode : inCode frames = true := by
      unfold inCode
      split
      · exact absurd rfl (hframes _ _ _ _ _)
      · rfl
    rw [stepCode_congr_text hcode h]

end Step

/-! ### One line -/

theorem le_column_of_scanFrom {before line : List Char} {frames : List Frame}
    {heredocs : List Heredoc} {column : Nat}
    (h : (scanFrom before frames heredocs line).masked.comment = some column) :
    before.length ≤ column := by
  obtain ⟨code, text, -, rfl⟩ := exists_hash_of_scanFrom h
  exact Nat.le_add_right _ _

/-- A line is scanned up to its comment as with another text behind the hash sign, if the two texts
answer alike. -/
theorem scanFrom_text {before code text other : List Char} {frames : List Frame}
    {heredocs : List Heredoc}
    (hcomment : (scanFrom before frames heredocs (code ++ '#' :: text)).masked.comment =
      some (before.length + code.length))
    (halike : ∀ q ∈ questions before frames text code, q.answer other = q.answer text) :
    ∃ shown after opened, shown.length = before.length + code.length ∧
      ∀ t ∈ [text, other], scanFrom before frames heredocs (code ++ '#' :: t) =
        ⟨⟨shown ++ Text.blanks (t.length + 1), some (before.length + code.length)⟩,
          after, opened⟩ := by
  fun_induction questions before frames text code generalizing heredocs with
  | case1 before frames =>
    have hstep : step frames before '#' text = none := by
      cases hstep : step frames before '#' text with
      | none => rfl
      | some s =>
        rw [List.nil_append, scanFrom, hstep] at hcomment
        have hle := le_column_of_scanFrom hcomment
        simp only [List.length_append, List.length_reverse, List.length_cons,
          List.length_nil] at hle
        omega
    refine ⟨before.reverse, frames, heredocs, by simp, fun t _ => ?_⟩
    rw [List.nil_append, scanFrom, step_hash_eq_none hstep t]
    rfl
  | case2 before frames c ahead hstep =>
    rw [List.cons_append, scanFrom, hstep] at hcomment
    simp at hcomment
  | case3 before frames c ahead s hstep ih =>
    have hother : step frames before c (ahead ++ '#' :: other) = some s := by
      rw [← hstep]
      exact step_congr_text fun q hq => halike q (List.mem_append_left _ (Option.mem_toList.2 hq))
    have hstep' : ∀ t ∈ [text, other], step frames before c (ahead ++ '#' :: t) = some s :=
      List.forall_mem_cons.2 ⟨hstep, List.forall_mem_singleton.2 hother⟩
    rw [List.cons_append, scanFrom, hstep] at hcomment
    -- The comment is found after the step, so that the step ends in front of it.
    have hmore : s.more.length ≤ ahead.length := by
      have hle := le_column_of_scanFrom hcomment
      simp only [List.length_append, List.length_reverse, List.length_cons] at hle
      omega
    have hcolumn : before.length + (c :: ahead).length =
        (s.more.reverse ++ s.first :: before).length + (ahead.drop s.more.length).length := by
      simp only [List.length_append, List.length_reverse, List.length_cons, List.length_drop]
      omega
    rw [hcolumn] at hcomment ⊢
    simp only [List.drop_append_of_le_length hmore] at hcomment
    obtain ⟨shown, after, opened, hlength, hscan⟩ :=
      ih hcomment fun q hq => halike q (List.mem_append_right _ hq)
    refine ⟨shown, after, opened, hlength, fun t ht => ?_⟩
    rw [List.cons_append, scanFrom, hstep' t ht]
    simp only [List.drop_append_of_le_length hmore]
    exact hscan t ht

/-! ### All lines -/

/-- A line with a comment is a line of code, and starts no embedded document. -/
theorem Place.region_of_comment {p : Place} {line : List Char} {column : Nat}
    (h : (p.mask line).1.comment = some column) :
    p.region = .code ∧ (p.frames.isEmpty && Text.startsWith line "=begin") = false := by
  unfold Place.mask at h
  split at h
  · cases h
  · cases h
  · cases h
  · rename_i hregion
    split at h
    · cases h
    · rename_i hbegin
      exact ⟨hregion, Bool.eq_false_iff.2 hbegin⟩

/-- A line of code with a hash sign in it is scanned by `Place.mask`. -/
theorem Place.mask_append_hash {p : Place} (hregion : p.region = .code) {code : List Char}
    (hbegin : (p.frames.isEmpty && Text.startsWith code "=begin") = false) (text : List Char) :
    p.mask (code ++ '#' :: text) = ((scanLine p.frames (code ++ '#' :: text)).masked,
      ⟨.ofHeredocs (scanLine p.frames (code ++ '#' :: text)).heredocs,
        (scanLine p.frames (code ++ '#' :: text)).frames⟩) := by
  have hstart : Text.startsWith (code ++ '#' :: text) "=begin" = Text.startsWith code "=begin" :=
    isPrefixOf_append_stop (by decide) code text
  have hmarker : (Text.dropReturns (code ++ '#' :: text) == endMarker) = false := by
    rw [dropReturns_append (by decide), beq_eq_false_iff_ne]
    intro hend
    have hmem : '#' ∈ endMarker := by
      rw [← hend]
      exact List.mem_append_right _ List.mem_cons_self
    revert hmem
    decide
  simp [Place.mask, hregion, hstart, hbegin, hmarker]

/-- A line is masked as with another text behind its hash sign, if the two texts answer alike, and
the scanner is at the same place afterwards. -/
theorem Place.mask_text {p : Place} {code text other : List Char}
    (hcomment : (p.mask (code ++ '#' :: text)).1.comment = some code.length)
    (halike : ∀ q ∈ questions [] p.frames text code, q.answer other = q.answer text) :
    ∃ shown next, shown.length = code.length ∧ ∀ t ∈ [text, other], p.mask (code ++ '#' :: t) =
      (⟨shown ++ Text.blanks (t.length + 1), some code.length⟩, next) := by
  obtain ⟨hregion, hbegin⟩ := Place.region_of_comment hcomment
  have hbegin' : (p.frames.isEmpty && Text.startsWith code "=begin") = false := by
    rwa [Text.startsWith, isPrefixOf_append_stop (by decide)] at hbegin
  have hcolumn : (scanFrom [] p.frames [] (code ++ '#' :: text)).masked.comment =
      some (([] : List Char).length + code.length) := by
    rw [Place.mask_append_hash hregion hbegin'] at hcomment
    rwa [List.length_nil, Nat.zero_add]
  obtain ⟨shown, after, opened, hlength, hscan⟩ := scanFrom_text hcolumn halike
  rw [List.length_nil, Nat.zero_add] at hlength hscan
  refine ⟨shown, ⟨.ofHeredocs opened, after⟩, hlength, fun t ht => ?_⟩
  rw [Place.mask_append_hash hregion hbegin', scanLine, hscan t ht]

theorem mem_commentPlaces {masked : List MaskedLine} {k c : Nat} :
    (k, c) ∈ commentPlaces masked ↔ ∃ line, masked[k]? = some line ∧ line.comment = some c := by
  simp only [commentPlaces, List.mem_filterMap, Option.map_eq_some_iff, Prod.mk.injEq, Prod.exists,
    List.mem_zipIdx_iff_getElem?]
  constructor
  · rintro ⟨line, index, hline, column, hcolumn, rfl, rfl⟩
    exact ⟨line, hline, hcolumn⟩
  · rintro ⟨line, hline, hcolumn⟩
    exact ⟨line, k, hline, c, hcolumn, rfl, rfl⟩

theorem commentPlaces_congr {masked masked' : List MaskedLine}
    (h : masked.map (·.comment) = masked'.map (·.comment)) :
    commentPlaces masked = commentPlaces masked' := by
  have hplaces : ∀ masked : List MaskedLine, commentPlaces masked =
      (masked.map (·.comment)).zipIdx.filterMap fun (column?, index) =>
        column?.map fun column => (index, column) := by
    intro masked
    rw [List.zipIdx_map, List.filterMap_map]
    rfl
  rw [hplaces, hplaces, h]

/-- One of `commentPlaces` is on a line, between those above and those below it. -/
theorem exists_line_of_mem_commentPlaces {lines : List (List Char)} {k c : Nat}
    (h : (k, c) ∈ commentPlaces (maskLines lines)) :
    ∃ above line below, lines = above ++ line :: below ∧ above.length = k ∧
      ((Place.start.after above).mask line).1.comment = some c := by
  obtain ⟨masked, hmasked, hcolumn⟩ := mem_commentPlaces.1 h
  have hlength : ∀ ls, (Place.start.maskAll ls).length = ls.length :=
    fun ls => (forall₂_maskAll Place.start ls).length_eq
  obtain ⟨hlt, -⟩ := List.getElem?_eq_some_iff.1 hmasked
  have hk : k < lines.length := by rwa [maskLines, hlength] at hlt
  refine ⟨lines.take k, lines[k], lines.drop (k + 1), ?_, List.length_take_of_le hk.le, ?_⟩
  · rw [List.getElem_cons_drop, List.take_append_drop]
  · have htake : (Place.start.maskAll (lines.take k)).length = k := by
      rw [hlength, List.length_take_of_le hk.le]
    rw [maskLines, ← List.take_append_drop k lines, ← List.getElem_cons_drop hk,
      Place.maskAll_append, Place.maskAll, List.getElem?_append_right (Nat.le_of_eq htake), htake,
      Nat.sub_self] at hmasked
    obtain rfl := Option.some.inj hmasked
    exact hcolumn

/-- **The text of a comment.** The line of a comment ends with a hash sign and a text. Any text that
answers the scanner's questions alike can stand in its place: the comments are at the same places,
and the lines show the same, but for the number of blanks at the end of this line. Nothing is asked
behind code without slashes and question marks. -/
theorem maskLines_comment_text {lines : List (List Char)} {k c : Nat}
    (hcomment : (k, c) ∈ commentPlaces (maskLines lines)) :
    ∃ code text, lines[k]? = some (code ++ '#' :: text) ∧ code.length = c ∧
      ('/' ∉ code → '?' ∉ code →
        questions [] (Place.start.after (lines.take k)).frames text code = []) ∧
      ∀ other, (∀ q ∈ questions [] (Place.start.after (lines.take k)).frames text code,
          q.answer other = q.answer text) →
        commentPlaces (maskLines (lines.set k (code ++ '#' :: other))) =
            commentPlaces (maskLines lines) ∧
          ∃ above shown below, above.length = k ∧ shown.length = c ∧
            maskLines lines =
              above ++ ⟨shown ++ Text.blanks (text.length + 1), some c⟩ :: below ∧
            maskLines (lines.set k (code ++ '#' :: other)) =
              above ++ ⟨shown ++ Text.blanks (other.length + 1), some c⟩ :: below := by
  obtain ⟨above, line, below, rfl, rfl, hcolumn⟩ := exists_line_of_mem_commentPlaces hcomment
  obtain ⟨code, text, rfl, rfl⟩ := exists_hash_of_mask hcolumn
  rw [List.take_left]
  refine ⟨code, text, by simp, rfl, fun hslash hmark => questions_eq_nil hslash hmark _ _ _,
    fun other halike => ?_⟩
  obtain ⟨shown, next, hlength, hmask⟩ := Place.mask_text hcolumn halike
  have hlines : ∀ t ∈ [text, other], maskLines (above ++ (code ++ '#' :: t) :: below) =
      Place.start.maskAll above ++
        ⟨shown ++ Text.blanks (t.length + 1), some code.length⟩ :: next.maskAll below := by
    intro t ht
    rw [maskLines, Place.maskAll_append, Place.maskAll, hmask t ht]
  have hset : (above ++ (code ++ '#' :: text) :: below).set above.length (code ++ '#' :: other) =
      above ++ (code ++ '#' :: other) :: below := by
    simp
  have htext := hlines text (by simp)
  have hother := hlines other (by simp)
  rw [hset]
  refine ⟨?_, _, shown, _, ?_, hlength, htext, hother⟩
  · refine commentPlaces_congr ?_
    rw [htext, hother]
    simp
  · exact (forall₂_maskAll Place.start above).length_eq

/-- The slash of a division is asked for, and both texts answer no. -/
theorem maskLines_comment_text_division :
    (0, 9) ∈ commentPlaces (maskLines ["count /2 # note".toList]) ∧
      questions [] [] " note".toList "count /2 ".toList = [.slash] ∧
      commentPlaces (maskLines ["count /2 # a half".toList]) =
        commentPlaces (maskLines ["count /2 # note".toList]) := by
  have hplace : (0, 9) ∈ commentPlaces (maskLines ["count /2 # note".toList]) := by decide +kernel
  obtain ⟨code, text, hline, hlength, -, hall⟩ := maskLines_comment_text hplace
  have heq : "count /2 ".toList ++ '#' :: " note".toList = code ++ '#' :: text :=
    Option.some.inj hline
  obtain ⟨rfl, htext⟩ := List.append_inj heq hlength.symm
  obtain rfl := (List.cons.inj htext).2
  have halike := hall " a half".toList (by decide +kernel)
  exact ⟨hplace, by decide +kernel, halike.1⟩

/-- A comment can be lost by its text: a slash in it makes a regular expression of a division, and
a blank at its start makes a character literal of the hash sign. -/
theorem comment_lost_by_text :
    commentPlaces (maskLines ["count /2 # note".toList]) = [(0, 9)] ∧
      commentPlaces (maskLines ["count /2 # 1/2".toList]) = [] ∧
      commentPlaces (maskLines ["x = ?#abc".toList]) = [(0, 5)] ∧
      commentPlaces (maskLines ["x = ?# abc".toList]) = [] := by
  decide +kernel

end TypeNotes.Ruby
