import TypeNotes.Proofs.Note.Motion
import TypeNotes.Proofs.Rule.CrossReference
import TypeNotes.Violation

/-!
# Offenses in a file whose places have moved

Where one file is another one, moved, each rule finds the same offenses, moved
(`Motion.Carries.check`), and linting reports the same violations on other lines
(`Motion.Carries.lint`).

**One rule at a time.** A rule looks at comments, their blocks and notes, at declarations, and at the
lines between them, and all of these move together. Where a rule counts characters from the start of
a comment, it stays in the comment (`Shape.stop_le_of_keywordWithColon?`), so that the place it finds
moves with the comment. Orders are kept, as motions keep the order of places.
-/

namespace TypeNotes

open Ruby Signature Utf8

/-! ### Places inside a comment -/

namespace Shape

/-- `afterSpace?` gives no longer text than it is given. -/
theorem length_le_of_afterSpace? {s rest : List Char} (h : afterSpace? s = some rest) :
    rest.length ≤ s.length := by
  unfold afterSpace? at h
  split at h
  · split at h
    · obtain rfl := Option.some.inj h
      exact Nat.le_succ_of_le (Text.length_dropWhile_le Unicode.isSpace _)
    · cases h
  · cases h

/-- `afterMarker?` gives no longer text than it is given. -/
theorem length_le_of_afterMarker? {s rest : List Char} (h : afterMarker? s = some rest) :
    rest.length ≤ s.length := by
  simp only [afterMarker?, Option.bind_eq_bind, Option.bind_eq_some_iff] at h
  obtain ⟨body, hbody, spaced, hspaced, marked, hmarked, hrest⟩ := h
  have hlength := congrArg List.length (after?_eq_some_iff.1 hbody)
  have hlength' := congrArg List.length (after?_eq_some_iff.1 hmarked)
  have hle := length_le_of_afterSpace? hspaced
  have hle' := length_le_of_afterSpace? hrest
  rw [List.length_append] at hlength hlength'
  omega

/-- The place that `markedWord?` gives is in the text. -/
theorem stop_le_of_markedWord? {s token : List Char} {stop : Nat}
    (h : markedWord? s = some (token, stop)) : stop ≤ s.length := by
  simp only [markedWord?, Option.bind_eq_bind, Option.bind_eq_some_iff] at h
  obtain ⟨rest, hrest, htoken⟩ := h
  have hle := length_le_of_afterMarker? hrest
  have htake := (List.takeWhile_sublist (fun c => !Unicode.isSpace c) (l := rest)).length_le
  split at htoken
  · cases htoken
  · obtain ⟨rfl, rfl⟩ := Prod.mk.inj (Option.some.inj htoken)
    omega

/-- The place that `keywordWithColon?` gives is in the text, and not at its start. -/
theorem stop_le_of_keywordWithColon? {s keyword : List Char} {stop : Nat}
    (h : keywordWithColon? s = some (keyword, stop)) : 0 < stop ∧ stop ≤ s.length := by
  simp only [keywordWithColon?, Option.bind_eq_bind, Option.bind_eq_some_iff] at h
  obtain ⟨rest, hrest, hkeyword⟩ := h
  obtain ⟨found, -, hfound⟩ := List.exists_of_findSome?_eq_some hkeyword
  have hle := length_le_of_afterMarker? hrest
  split at hfound
  · rename_i tail hafter
    obtain ⟨rfl, rfl⟩ := Prod.mk.inj (Option.some.inj hfound)
    have hlength := congrArg List.length (after?_eq_some_iff.1 hafter)
    rw [List.length_append, List.length_cons] at hlength
    omega
  · cases hfound

end Shape

/-! ### Lists -/

/-- Leaving repetitions out commutes with every injective function. -/
theorem eraseDups_map {α β : Type} [BEq α] [LawfulBEq α] [BEq β] [LawfulBEq β] {f : α → β}
    (hf : Function.Injective f) (l : List α) : (l.map f).eraseDups = l.eraseDups.map f := by
  induction hlen : l.length using Nat.strongRecOn generalizing l with
  | ind n ih =>
    subst hlen
    cases l with
    | nil => rfl
    | cons a l =>
      have hbeq : (fun b => !b == f a) ∘ f = fun b => !b == a := by
        funext b
        rw [Function.comp_apply, Bool.not_inj_iff, Bool.eq_iff_iff, beq_iff_eq, beq_iff_eq]
        exact hf.eq_iff
      have hlt : (l.filter fun b => !b == a).length < (a :: l).length :=
        Nat.lt_succ_of_le (List.length_filter_le _ l)
      rw [List.map_cons, List.eraseDups_cons, List.eraseDups_cons, List.filter_map, hbeq,
        ih _ hlt _ rfl, List.map_cons]

/-- What is found by a search that finds less, in the same order. -/
theorem filterMap_sublist_filterMap {α β : Type} {f g : α → Option β}
    (h : ∀ a b, f a = some b → g a = some b) (l : List α) :
    (l.filterMap f).Sublist (l.filterMap g) := by
  induction l with
  | nil => exact List.Sublist.refl _
  | cons a l ih =>
    cases hf : f a with
    | none =>
      rw [List.filterMap_cons_none hf]
      cases hg : g a with
      | none => rwa [List.filterMap_cons_none hg]
      | some b =>
        rw [List.filterMap_cons_some hg]
        exact ih.cons b
    | some b =>
      rw [List.filterMap_cons_some hf, List.filterMap_cons_some (h a b hf)]
      exact ih.cons_cons b

namespace Motion

variable (m : Motion)

/-! ### Offenses -/

/-- An offense, moved. -/
def offense (o : Offense) : Offense := ⟨m.span o.span, o.message⟩

/-- Different offenses stay different when moved. -/
theorem injective_offense : Function.Injective m.offense := by
  intro a b hab
  obtain ⟨⟨start, stop⟩, message⟩ := a
  obtain ⟨⟨start', stop'⟩, message'⟩ := b
  simp only [offense, span, Offense.mk.injEq, Range.mk.injEq] at hab ⊢
  exact ⟨⟨m.strictMono_char.injective hab.1.1, m.strictMono_char.injective hab.1.2⟩, hab.2⟩

/-- Moved offenses are in the same order. -/
theorem le_offense (a b : Offense) : (m.offense a).le (m.offense b) = a.le b := by
  have hlt : ∀ i j, m.char i < m.char j ↔ i < j := fun _ _ => m.strictMono_char.lt_iff_lt
  have heq : ∀ i j, m.char i = m.char j ↔ i = j := fun _ _ => m.strictMono_char.injective.eq_iff
  rw [Bool.eq_iff_iff, Offense.le_iff, Offense.le_iff]
  simp only [offense, span, hlt, heq]

/-- `Offense.sort` may be done before or after moving. -/
theorem sort_map (l : List Offense) :
    Offense.sort (l.map m.offense) = (Offense.sort l).map m.offense :=
  (List.map_mergeSort fun a _ b _ => (m.le_offense a b).symm).symm

/-- `Range.clamp` may be done before or after both spans are moved. -/
theorem clamp_span (target bounds : Span) :
    (m.span target).clamp (m.span bounds) = m.span (target.clamp bounds) := by
  simp only [Range.clamp, span, m.strictMono_char.monotone.map_max,
    m.strictMono_char.monotone.map_min]

/-- `commentAt?` a place moves with the place. -/
theorem commentAt?_map (cs : List Comment) (offset : Nat) :
    commentAt? (cs.map m.comment) (m.char offset) = (commentAt? cs offset).map m.comment := by
  have hle : ∀ i j, m.char i ≤ m.char j ↔ i ≤ j := fun _ _ => m.strictMono_char.le_iff_le
  have hfits : (fun c : Comment => c.start ≤ m.char offset && m.char offset ≤ c.stop) ∘ m.comment =
      fun c : Comment => c.start ≤ offset && offset ≤ c.stop := by
    funext c
    simp only [Function.comp_apply, comment, hle]
  rw [commentAt?, commentAt?, List.find?_map, hfits, List.getLast?_map, Option.map_or]

/-! ### Runs of comments -/

/-- `runEnd` moves with the comments, if what continues the run does not depend on places. -/
theorem runEnd_map {continues : Comment → Bool} (hcontinues : ∀ c, continues (m.comment c) = continues c)
    (c : Comment) (cs : List Comment) :
    runEnd continues (m.comment c) (cs.map m.comment) = m.comment (runEnd continues c cs) := by
  induction cs generalizing c with
  | nil => rfl
  | cons d cs ih =>
    have hline : ((m.comment d).line == (m.comment c).line + 1) = (d.line == c.line + 1) := by
      rw [Bool.eq_iff_iff, beq_iff_eq, beq_iff_eq, line_comment, line_comment]
      omega
    rw [List.map_cons, runEnd, runEnd, hline, hcontinues]
    split
    · exact ih d
    · rfl

/-- `runEnds` move with the comments, if what opens and continues the runs does not depend on
places. -/
theorem runEnds_map {opens : Comment → Option (Comment → Bool)}
    (hopens : ∀ c, opens (m.comment c) = opens c)
    (hcontinues : ∀ c continues, opens c = some continues → ∀ d,
      continues (m.comment d) = continues d) (cs : List Comment) :
    runEnds opens (cs.map m.comment) = (runEnds opens cs).map m.comment := by
  induction cs with
  | nil => rfl
  | cons c cs ih =>
    rw [List.map_cons, runEnds, runEnds, hopens, ih]
    cases hc : opens c with
    | none => rfl
    | some continues => simp only [m.runEnd_map (hcontinues c continues hc), List.map_cons]

/-! ### Notes on a method -/

theorem isAboutMethod_note (n : Note) : isAboutMethod (m.note n) = isAboutMethod n := by
  obtain ⟨first, more, signature, error, content⟩ := n
  cases content <;> rfl

theorem isSkip_note (n : Note) : isSkip (m.note n) = isSkip n := by
  obtain ⟨first, more, signature, error, content⟩ := n
  cases content <;> rfl

theorem skipMark_note (n : Note) : SkipMark.ofNote? (m.note n) = SkipMark.ofNote? n := by
  obtain ⟨first, more, signature, error, content⟩ := n
  cases content <;> rfl

/-- `redundancy?` does not depend on where a note stands. -/
theorem redundancy?_note (n : Note) : redundancy? (m.note n) = redundancy? n := by
  obtain ⟨first, more, signature, error, content⟩ := n
  cases content <;> rfl

theorem span_note (n : Note) : (m.note n).span = m.span n.span := by
  rw [Note.span, last_note]
  rfl

/-- `redundantNotes` does not depend on where notes stand. -/
theorem redundantNotes_map (first : Option SkipMark) (notes : List Note) :
    redundantNotes first (notes.map m.note) =
      (redundantNotes first notes).map fun y => (m.note y.1, y.2) := by
  induction notes generalizing first with
  | nil => rfl
  | cons n notes ih =>
    rw [List.map_cons, redundantNotes, redundantNotes, skipMark_note, redundancy?_note]
    cases SkipMark.ofNote? n with
    | some mark =>
      cases first with
      | none => exact ih (some mark)
      | some earlier => simp only [ih, List.map_cons]
    | none =>
      simp only [ih, List.map_append]
      cases redundancy? n <;> rfl

/-- The parameter that a note names moves with it. -/
theorem parameterName?_note (n : Note) :
    CrossReference.parameterName? (m.note n) = (CrossReference.parameterName? n).map m.named := by
  obtain ⟨first, more, signature, error, content⟩ := n
  cases content <;> rfl

/-- The name that a note gives to be matched moves with it. -/
theorem methodName?_note (n : Note) :
    CrossReference.methodName? (m.note n) = (CrossReference.methodName? n).map m.named := by
  obtain ⟨first, more, signature, error, content⟩ := n
  cases content <;> rfl

/-! ### Blocks above declarations -/

/-- A block ends right above the same line as before. -/
theorem beq_lastLine_block (b : CommentBlock) (line : Nat) :
    ((m.block b).lastLine + 1 == line + m.lines) = (b.lastLine + 1 == line) := by
  rw [Bool.eq_iff_iff, beq_iff_eq, beq_iff_eq, lastLine_block]
  omega

/-- A block is above a declaration (`isAbove`) if and only if it was before both moved. -/
theorem isAbove_block (d : Declaration) (b : CommentBlock) :
    CrossReference.isAbove (m.declaration d) (m.block b) = CrossReference.isAbove d b := by
  rw [CrossReference.isAbove, CrossReference.isAbove, isLeading_block]
  exact congrArg _ (m.beq_lastLine_block b d.line)

/-- `leadingBlock?` of a line moves with the line. -/
theorem leadingBlock?_map (blocks : List CommentBlock) (line : Nat) :
    leadingBlock? (blocks.map m.block) (line + m.lines) =
      (leadingBlock? blocks line).map m.block := by
  rw [leadingBlock?, leadingBlock?, List.find?_map]
  congr 2
  funext b
  rw [Function.comp_apply, isLeading_block, beq_lastLine_block]

/-- `claimer?` of a block moves with the block. -/
theorem claimer?_map (ds : List Declaration) (b : CommentBlock) :
    CrossReference.claimer? (ds.map m.declaration) (m.block b) =
      (CrossReference.claimer? ds b).map m.declaration := by
  rw [CrossReference.claimer?, CrossReference.claimer?, List.find?_map]
  congr 2
  funext d
  rw [Function.comp_apply, isAbove_block]

end Motion

/-- The offenses against the rule about parameters, from who claims which block. -/
theorem unmatchedNotes_eq_sort (s : Source) :
    unmatchedNotes s = Offense.sort
      ((s.blocks.flatMap (CrossReference.unmatchedIn s.declarations)).map
        (CrossReference.offense s)) :=
  Offense.sort_eq_of_perm ((CrossReference.ledger_recorded s s.declarations).perm_unmatched.map _)

/-- `unmatchedIn` are names of the notes of the block. -/
theorem CrossReference.unmatchedIn_sublist (ds : List Declaration) (b : CommentBlock) :
    (unmatchedIn ds b).Sublist (b.notes.filterMap Note.named?) := by
  have hparameter : ∀ n named, parameterName? n = some named → n.named? = some named := by
    intro n named hn
    unfold parameterName? at hn
    unfold Note.named?
    split at hn
    all_goals simp_all
  have hmethod : ∀ n named, methodName? n = some named → n.named? = some named := by
    intro n named hn
    unfold methodName? at hn
    unfold Note.named?
    split at hn
    all_goals simp_all
  unfold unmatchedIn
  split
  · exact List.filter_sublist.trans (filterMap_sublist_filterMap hparameter b.notes)
  · exact filterMap_sublist_filterMap hmethod b.notes

/-- One of `unmatchedIn` is the name of one of the notes of the block. -/
theorem CrossReference.exists_note_of_mem_unmatchedIn {ds : List Declaration} {b : CommentBlock}
    {named : NamedType} (h : named ∈ unmatchedIn ds b) : ∃ n ∈ b.notes, n.named? = some named :=
  List.mem_filterMap.1 ((unmatchedIn_sublist ds b).subset h)

namespace Motion.Carries

variable {m : Motion} {s s' : Source} (h : m.Carries s s')

include h

/-! ### Rules about the form of a note -/

/-- `Rule.invalidComment` finds the same offenses, moved. -/
theorem invalidComment : invalidComment s' = (invalidComment s).map m.offense := by
  rw [TypeNotes.invalidComment, TypeNotes.invalidComment, h.comments, List.filter_map, List.map_map,
    List.map_map]
  rfl

/-- The comments in which parameters are named are the same, moved. -/
theorem parameterComments : parameterComments s' = (parameterComments s).map m.comment := by
  rw [TypeNotes.parameterComments, TypeNotes.parameterComments, h.declarations, h.blocks,
    List.flatMap_map, List.map_flatMap]
  congr 1
  funext d
  rw [show (m.declaration d).line = d.line + m.lines from rfl, leadingBlock?_map]
  cases leadingBlock? s.blocks d.line with
  | none => rfl
  | some b =>
    simp only [Option.map_some, comments_block, List.filter_map]
    rfl

/-- A place that is counted from the start of a comment, and lies in it. -/
theorem char_start_add {c : Comment} (hc : c ∈ s.comments) {k : Nat} (hk : k ≤ c.text.length) :
    (m.comment c).start + k = m.char (c.start + k) := ((h.keeps c hc).char k hk).symm

/-- A colon behind a keyword is in its comment, so that `keywordOffense?` moves with the comment. -/
theorem keywordOffense? {c : Comment} (hc : c ∈ s.comments) (named : List Comment) :
    keywordOffense? (named.map m.comment) (m.comment c) =
      (keywordOffense? named c).map m.offense := by
  have hcontains : ((named.map m.comment).map (·.start)).contains (m.comment c).start =
      (named.map (·.start)).contains c.start := by
    have hmap : (named.map m.comment).map (·.start) = (named.map (·.start)).map m.char := by
      rw [List.map_map, List.map_map]
      rfl
    rw [hmap, Bool.eq_iff_iff, List.contains_iff_mem, List.contains_iff_mem]
    exact List.mem_map_of_injective m.strictMono_char.injective
  have htext : (m.comment c).text = c.text := rfl
  unfold TypeNotes.keywordOffense?
  rw [htext, hcontains]
  cases hkeyword : Shape.keywordWithColon? c.text with
  | none => rfl
  | some parts =>
    obtain ⟨keyword, stop⟩ := parts
    obtain ⟨hpos, hle⟩ := Shape.stop_le_of_keywordWithColon? hkeyword
    -- The blank after the colon belongs to the comment as well.
    have hle' : (if (c.text.drop stop).head? == some ' ' then stop + 1 else stop) ≤ c.text.length := by
      split
      · rename_i hblank
        have hne : c.text.drop stop ≠ [] := by
          intro hnil
          rw [hnil] at hblank
          cases hblank
        have hlt := List.length_pos_iff.2 hne
        rw [List.length_drop] at hlt
        omega
      · exact hle
    simp only
    split
    · rfl
    · rw [h.char_start_add hc (by omega), h.char_start_add hc hle']
      rfl

theorem keywordSeparator : keywordSeparator s' = (keywordSeparator s).map m.offense := by
  rw [TypeNotes.keywordSeparator, TypeNotes.keywordSeparator, h.comments, h.parameterComments,
    List.filterMap_map, List.map_filterMap]
  exact List.filterMap_congr fun c hc => h.keywordOffense? hc _

theorem parametersSeparator : parametersSeparator s' = (parametersSeparator s).map m.offense := by
  rw [TypeNotes.parametersSeparator, TypeNotes.parametersSeparator, h.comments, List.filterMap_map,
    List.map_filterMap]
  refine List.filterMap_congr fun c hc => ?_
  have htext : (m.comment c).text = c.text := rfl
  rw [Function.comp_apply, htext]
  cases hword : Shape.markedWord? c.text with
  | none => rfl
  | some parts =>
    obtain ⟨token, stop⟩ := parts
    have hle := Shape.stop_le_of_markedWord? hword
    simp only
    split
    · rfl
    · rw [h.char_start_add hc hle]
      rfl

/-! ### The rule about types -/

/-- For bytes inside of comments, `spanOfBytes` is the same, moved. -/
theorem spanOfBytes {start stop : Nat} (hstart : ∃ c ∈ s.comments, c.Has start)
    (hstop : ∃ c ∈ s.comments, c.Has stop) :
    s'.spanOfBytes (m.byte start) (m.byte stop) = m.span (s.spanOfBytes start stop) := by
  obtain ⟨c, hc, hhas⟩ := hstart
  obtain ⟨c', hc', hhas'⟩ := hstop
  rw [Source.spanOfBytes, h.characterOffset hc hhas, h.characterOffset hc' hhas']
  rfl

/-- The place of an error is inside of comments, so that `typeOffense` moves with them. -/
theorem typeOffense {n : Note} {err : Error} (hstart : ∃ c ∈ s.comments, c.Has err.offset)
    (hstop : ∃ c ∈ s.comments, c.Has (err.offset + err.length)) :
    typeOffense s' (m.note n) (m.error err) = m.offense (typeOffense s n err) := by
  have hle : m.byte err.offset ≤ m.byte (err.offset + err.length) :=
    m.strictMono_byte.monotone (Nat.le_add_right _ _)
  have hspan : s'.spanOfBytes (m.error err).offset ((m.error err).offset + (m.error err).length) =
      m.span (s.spanOfBytes err.offset (err.offset + err.length)) := by
    rw [← h.spanOfBytes hstart hstop, error]
    simp only [Nat.add_sub_cancel' hle]
  have hcomment : ∀ offset, ((commentAt? (m.note n).comments (m.char offset)).getD (m.note n).first) =
      m.comment ((commentAt? n.comments offset).getD n.first) := by
    intro offset
    rw [comments_note, commentAt?_map]
    cases commentAt? n.comments offset <;> rfl
  unfold TypeNotes.typeOffense
  simp only [hspan]
  have hstart' : ∀ r : Span, (m.span r).start = m.char r.start := fun _ => rfl
  rw [hstart', hcomment]
  simp only [offense, ← clamp_span]
  rfl

theorem invalidTypes : invalidTypes s' = (invalidTypes s).map m.offense := by
  rw [TypeNotes.invalidTypes, TypeNotes.invalidTypes, ← sort_map, h.blocks, List.flatMap_map,
    List.map_flatMap]
  congr 1
  refine List.flatMap_congr fun b hb => ?_
  rw [h.notes hb, List.filterMap_map, List.map_filterMap]
  refine List.filterMap_congr fun n hn => ?_
  have herror : (m.note n).error = n.error.map m.error := rfl
  rw [Function.comp_apply, herror, Option.map_map, Option.map_map]
  cases hn' : n.error with
  | none => rfl
  | some err =>
    obtain ⟨e, he, hread⟩ := List.mem_filterMap.1 hn
    have hfrom : e.From s.comments :=
      (CommentBlock.from_of_mem_entries he).mono (CommentBlock.sublist_of_mem_group hb)
    obtain ⟨hstart, hstop⟩ := hfrom.has_of_error hread hn'
    exact congrArg some (h.typeOffense hstart hstop)

/-! ### The rule about parameters -/

/-- `unmatchedIn` a block are the same names, moved. -/
theorem unmatchedIn {b : CommentBlock} (hb : b ∈ s.blocks) :
    CrossReference.unmatchedIn s'.declarations (m.block b) =
      (CrossReference.unmatchedIn s.declarations b).map m.named := by
  have hparameter : CrossReference.parameterName? ∘ m.note =
      fun n => (CrossReference.parameterName? n).map m.named := funext m.parameterName?_note
  have hmethod : CrossReference.methodName? ∘ m.note =
      fun n => (CrossReference.methodName? n).map m.named := funext m.methodName?_note
  unfold CrossReference.unmatchedIn
  rw [h.declarations, claimer?_map, h.notes hb, List.filterMap_map, List.filterMap_map, hparameter,
    hmethod, ← List.map_filterMap, ← List.map_filterMap]
  cases CrossReference.claimer? s.declarations b with
  | none => rfl
  | some d =>
    simp only [Option.map_some, List.filter_map]
    rfl

theorem unmatchedNotes : unmatchedNotes s' = (unmatchedNotes s).map m.offense := by
  rw [unmatchedNotes_eq_sort, unmatchedNotes_eq_sort, ← sort_map, h.blocks, List.flatMap_map,
    List.map_map, List.map_flatMap, List.map_flatMap]
  congr 1
  refine List.flatMap_congr fun b hb => ?_
  rw [h.unmatchedIn hb, List.map_map]
  refine List.map_congr_left fun named hnamed => ?_
  obtain ⟨n, hn, hname⟩ := CrossReference.exists_note_of_mem_unmatchedIn hnamed
  obtain ⟨e, he, hread⟩ := List.mem_filterMap.1 hn
  have hfrom : e.From s.comments :=
    (CommentBlock.from_of_mem_entries he).mono (CommentBlock.sublist_of_mem_group hb)
  obtain ⟨c, hc, u, v, hcomment, hstart⟩ := hfrom.exists_comment_of_named? hread hname
  have hsize : size c.text = size u + (size named.name + size v) := by
    rw [hcomment, size_append, size_append]
  -- The name lies in the comment, so that its end moves with its start.
  have hend : m.byte (named.offset + size named.name) = m.byte named.offset + size named.name := by
    rw [hstart, Nat.add_assoc, (h.keeps c hc).byte _ (by omega), (h.keeps c hc).byte _ (by omega),
      Nat.add_assoc]
  have hhas : c.Has named.offset := ⟨u, _, hcomment, .inl hstart⟩
  have hhas' : c.Has (named.offset + size named.name) :=
    ⟨u ++ named.name, _, hcomment.trans (List.append_assoc _ _ _).symm,
      .inl (by rw [hstart, size_append, Nat.add_assoc])⟩
  have hspan := h.spanOfBytes ⟨c, hc, hhas⟩ ⟨c, hc, hhas'⟩
  rw [hend] at hspan
  simp only [Function.comp_apply, CrossReference.offense, offense, ← hspan]
  rfl

/-! ### Rules about blank lines -/

/-- `isBlankLine` holds below the added lines if and only if it did before. -/
theorem isBlankLine (number : Nat) :
    s'.isBlankLine (number + 1 + m.lines) = s.isBlankLine (number + 1) := by
  rw [Source.isBlankLine, Source.isBlankLine, h.line?]

/-- `isDefinitionLine` holds below the added lines if and only if it did before. -/
theorem isDefinitionLine (number : Nat) :
    s'.isDefinitionLine (number + 1 + m.lines) = s.isDefinitionLine (number + 1) := by
  rw [Source.isDefinitionLine, Source.isDefinitionLine, h.line?]

/-- `missingBlankLines` are the same, moved. -/
theorem missingBlankLines (message : String) (ends : List Comment) :
    missingBlankLines s' message (ends.map m.comment) =
      (missingBlankLines s message ends).map m.offense := by
  rw [TypeNotes.missingBlankLines, TypeNotes.missingBlankLines, ← eraseDups_map m.injective_offense,
    List.filterMap_map, List.map_filterMap]
  congr 2
  funext c
  have hline : (m.comment c).line + 1 = c.line + 1 + m.lines := by
    rw [line_comment]
    omega
  simp only [Function.comp_apply, hline, h.isBlankLine, h.lineSpan?]
  split
  · rfl
  · rw [Option.map_map, Option.map_map]
    rfl

theorem embeddedSpacing : embeddedSpacing s' = (embeddedSpacing s).map m.offense := by
  have hcontinues : ∀ (c : Comment) continues, (Shape.embeddedIndent? c.text).map continuesEmbedded =
      some continues → ∀ d : Comment, continues (m.comment d) = continues d := by
    intro c continues hc d
    obtain ⟨indent, -, rfl⟩ := Option.map_eq_some_iff.1 hc
    rfl
  rw [TypeNotes.embeddedSpacing, h.comments, m.runEnds_map (fun _ => rfl) hcontinues,
    h.missingBlankLines]
  rfl

theorem variableSpacing : variableSpacing s' = (variableSpacing s).map m.offense := by
  have hcontinues : ∀ (c : Comment) continues, (if Shape.isVariableComment c.text then
      some fun c : Comment => Shape.isVariableComment c.text else none) = some continues →
      ∀ d : Comment, continues (m.comment d) = continues d := by
    intro c continues hc d
    split at hc
    · obtain rfl := Option.some.inj hc
      rfl
    · cases hc
  rw [TypeNotes.variableSpacing, h.comments]
  simp only
  rw [m.runEnds_map (fun _ => rfl) hcontinues, h.missingBlankLines]
  rfl

theorem methodSpacingOffense? {b : CommentBlock} (hb : b ∈ s.blocks) :
    methodSpacingOffense? s' (m.block b) = (methodSpacingOffense? s b).map m.offense := by
  have hline : (m.block b).lastLine + 1 = b.lastLine + 1 + m.lines := by
    rw [lastLine_block]
    omega
  have hnext : b.lastLine + 1 + m.lines + 1 = b.lastLine + 1 + 1 + m.lines := by omega
  have hall : (m.block b).notes.all isSkip = b.notes.all isSkip := by
    rw [h.notes hb, List.all_map]
    exact congrArg _ (funext m.isSkip_note)
  have hmisplaced : misplacedOffense (m.block b).last = m.offense (misplacedOffense b.last) := by
    rw [last_block]
    rfl
  unfold TypeNotes.methodSpacingOffense?
  simp only [hline, hnext, h.isBlankLine, h.isDefinitionLine, h.lineSpan?, hall, hmisplaced]
  split
  · split
    · rw [Option.map_map, Option.map_map]
      rfl
    · rfl
  · split
    · rfl
    · rfl

theorem methodSpacing : methodSpacing s' = (methodSpacing s).map m.offense := by
  have hfilter : ∀ b ∈ s.blocks, ((m.block b).isLeading && (m.block b).notes.any isAboutMethod) =
      (b.isLeading && b.notes.any isAboutMethod) := by
    intro b hb
    rw [isLeading_block, h.notes hb, List.any_map]
    exact congrArg _ (congrArg _ (funext m.isAboutMethod_note))
  rw [TypeNotes.methodSpacing, TypeNotes.methodSpacing, h.blocks, List.filter_map,
    List.filterMap_map, List.map_filterMap]
  have hsame : s.blocks.filter ((fun b : CommentBlock => b.isLeading && b.notes.any isAboutMethod) ∘
      m.block) = s.blocks.filter fun b => b.isLeading && b.notes.any isAboutMethod :=
    List.filter_congr hfilter
  rw [hsame]
  exact List.filterMap_congr fun b hb => h.methodSpacingOffense? (List.mem_filter.1 hb).1

/-! ### The rule about skipped methods -/

/-- `redundantResult?` is the same, moved. -/
theorem redundantResult? (d : Declaration) :
    redundantResult? s'.comments (m.declaration d) =
      (redundantResult? s.comments d).map m.offense := by
  rw [TypeNotes.redundantResult?, TypeNotes.redundantResult?, h.comments, List.find?_map,
    Option.map_map, Option.map_map]
  have hfits : (fun c : Comment => c.line == (m.declaration d).parametersEndLine &&
      Text.startsWith c.text "#:") ∘ m.comment =
      fun c : Comment => c.line == d.parametersEndLine && Text.startsWith c.text "#:" := by
    funext c
    have hline : ((m.comment c).line == (m.declaration d).parametersEndLine) =
        (c.line == d.parametersEndLine) := by
      have hend : (m.declaration d).parametersEndLine = d.parametersEndLine + m.lines := rfl
      rw [Bool.eq_iff_iff, beq_iff_eq, beq_iff_eq, line_comment, hend]
      omega
    exact congrArg (· && Text.startsWith c.text "#:") hline
  rw [hfits]
  rfl

theorem redundantWithSkip : redundantWithSkip s' = (redundantWithSkip s).map m.offense := by
  rw [TypeNotes.redundantWithSkip, TypeNotes.redundantWithSkip]
  simp only
  rw [← sort_map, h.declarations, List.flatMap_map, List.map_flatMap]
  congr 2
  funext d
  rw [show (m.declaration d).line = d.line + m.lines from rfl, h.blocks, leadingBlock?_map]
  cases hblock : leadingBlock? s.blocks d.line with
  | none => rfl
  | some b =>
    have hb : b ∈ s.blocks := List.mem_of_find?_eq_some hblock
    have hany : (b.notes.map m.note).any (fun n => (SkipMark.ofNote? n).isSome) =
        b.notes.any fun n => (SkipMark.ofNote? n).isSome := by
      rw [List.any_map]
      congr 1
      funext n
      rw [Function.comp_apply, skipMark_note]
    simp only [Option.map_some, h.notes hb, hany, redundantNotes_map, h.redundantResult?]
    split
    · rw [List.map_append, List.map_map, List.map_map, Option.toList_map]
      congr 2
      funext y
      simp only [Function.comp_apply, span_note, offense]
    · rfl

/-! ### All rules -/

/-- `Rule.check` finds the same offenses, moved. -/
theorem check (rule : Rule) : rule.check s' = (rule.check s).map m.offense := by
  cases rule with
  | invalidComment => exact h.invalidComment
  | invalidTypes => exact h.invalidTypes
  | keywordSeparator => exact h.keywordSeparator
  | parametersSeparator => exact h.parametersSeparator
  | unmatchedNotes => exact h.unmatchedNotes
  | embeddedSpacing => exact h.embeddedSpacing
  | methodSpacing => exact h.methodSpacing
  | variableSpacing => exact h.variableSpacing
  | redundantWithSkip => exact h.redundantWithSkip

end Motion.Carries

/-- A violation some lines further down. -/
def Violation.moveDown (count : Nat) (v : Violation) : Violation := { v with line := v.line + count }

/-- Violations on lines further down are in the same order. -/
theorem Violation.le_moveDown (count : Nat) (a b : Violation) :
    (a.moveDown count).le (b.moveDown count) = a.le b := by
  have heq : (a.line + count == b.line + count) = (a.line == b.line) := by
    rw [Bool.eq_iff_iff, beq_iff_eq, beq_iff_eq]
    omega
  have hlt : decide (a.line + count < b.line + count) = decide (a.line < b.line) := by simp
  simp only [Violation.le, Violation.moveDown, heq]
  exact congrArg (· || _) hlt

/-- Linting a file that has moved reports the same violations, further down. -/
theorem Motion.Carries.lint {m : Motion} {s s' : Source} (h : m.Carries s s') (rules : RuleSet) :
    lint rules s' = (lint rules s).map (Violation.moveDown m.lines) := by
  have hviolation : ∀ rule severity o, Violation.ofOffense s' rule severity (m.offense o) =
      (Violation.ofOffense s rule severity o).moveDown m.lines := by
    intro rule severity o
    have hlocation : s'.location (m.offense o).span.start = _ := h.location o.span.start
    simp only [Violation.ofOffense, hlocation, h.path]
    rfl
  unfold TypeNotes.lint
  rw [List.map_mergeSort fun a _ b _ => (Violation.le_moveDown m.lines a b).symm, List.map_flatMap]
  congr 2
  funext ⟨rule, severity⟩
  simp only [h.check, List.map_map]
  exact congrArg (List.map · _) (funext (hviolation rule severity))

end TypeNotes
