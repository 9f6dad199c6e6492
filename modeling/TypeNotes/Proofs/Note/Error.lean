import TypeNotes.Proofs.Note.Entry
import TypeNotes.Proofs.Signature.Blame
import TypeNotes.Rule.Types

/-!
# Errors in notes

An error in a note comes from reading the text of its entry, or that text with its heading blanked
out, as a signature. Either way it shows in the text of the entry (`Entry.Reads`), and the offense
for it shows what is wrong in the file (`Note.ShowsError`).

**One comment.** The place of an error is carried from the text of the entry into the file, where it
lies in a comment of the note. The search for that comment finds it, and what of the error goes on
after the end of the comment is cut off.
-/

namespace TypeNotes

open Ruby Signature Utf8

/-! ### Blanked headings -/

/-- A text of blanks has as many bytes as blanks. -/
@[simp]
theorem Text.size_blanks (n : Nat) : size (Text.blanks n) = n := by
  induction n with
  | zero => rfl
  | succ n ih =>
    have hsize : ' '.utf8Size = 1 := rfl
    rw [Text.blanks, List.replicate_succ, size_cons, hsize, ← Text.blanks, ih, Nat.add_comm]

/-- Behind blanks only blanks are passed over to reach what is no blank. -/
theorem Text.exists_of_blanks_append {n : Nat} {b before after : List Char} {c : Char}
    (h : Text.blanks n ++ b = before ++ c :: after) (hc : isBlankCharacter c = false) :
    ∃ before', b = before' ++ c :: after ∧ size before = n + size before' := by
  rcases List.append_eq_append_iff.1 h with ⟨before', rfl, hb⟩ | ⟨more, hblanks, hmore⟩
  · exact ⟨before', hb, by rw [size_append, Text.size_blanks]⟩
  · cases more with
    | nil =>
      rw [List.append_nil] at hblanks
      exact ⟨[], hmore.symm, by rw [← hblanks, Text.size_blanks]; rfl⟩
    | cons d more =>
      obtain ⟨rfl, -⟩ := List.cons.inj hmore
      have hmem : c ∈ Text.blanks n := by simp [hblanks]
      rw [List.eq_of_mem_replicate hmem] at hc
      cases hc

/-- An error in a text whose start is blanked out with `Text.blanks` shows in the text itself. -/
theorem Signature.Error.Shown.of_blanks {a b : List Char} {e : Error}
    (h : e.Shown (Text.blanks (size a) ++ b)) : e.Shown (a ++ b) := by
  -- What an error is about starts with no blank, so it stands behind the blanks.
  generalize htext : Text.blanks (size a) ++ b = text at h
  cases h with
  | end_ expected =>
    rw [← htext, size_append, Text.size_blanks, ← size_append]
    exact .end_ expected
  | token expected hparts hc =>
    rw [hparts, List.cons_append] at htext
    obtain ⟨before, rfl, hsize⟩ := Text.exists_of_blanks_append htext hc
    rw [hsize, ← size_append]
    exact .token expected (List.append_assoc a before _).symm hc
  | @quotation before after c hparts hc =>
    rw [hparts] at htext
    have hblank : isBlankCharacter c = false := by
      rcases hc with rfl | rfl <;> decide
    obtain ⟨before, rfl, hsize⟩ := Text.exists_of_blanks_append htext hblank
    rw [hsize, ← size_append]
    exact .quotation (List.append_assoc a before _).symm hc
  | character hparts hc =>
    rw [hparts] at htext
    obtain ⟨before, rfl, hsize⟩ := Text.exists_of_blanks_append htext hc
    rw [hsize, ← size_append]
    exact .character (List.append_assoc a before _).symm hc

/-! ### Reading entries -/

/-- The note is taken from the comments of the entry, and its error is one that shows in the text of
the entry. -/
structure Entry.Reads (e : Entry) (n : Note) : Prop where
  comments : n.comments = e.comments
  error : ∀ err, n.error = some err → ∃ shown : Error, shown.Shown e.text ∧ err = e.relocate shown

variable {α : Type}

/-- A note made with `Entry.note` is taken from the comments of the entry, and its error shows if
the one that was raised does. -/
theorem Entry.reads_note (e : Entry) (signature : List Char) {error : Option Error}
    (content : Content) (h : ∀ err ∈ error, err.Shown e.text) :
    e.Reads (e.note signature error content) where
  comments := by simp [Note.comments, Entry.note, Entry.comments, Entry.segments]
  error err herr := by
    obtain ⟨shown, hshown, rfl⟩ := Option.map_eq_some_iff.1 herr
    exact ⟨shown, h shown hshown, rfl⟩

/-- The error of an outcome is what the outcome is. -/
theorem eq_error_of_mem_error? {outcome : Except Error α} {err : Error}
    (h : err ∈ error? outcome) : outcome = .error err := by
  cases outcome with
  | ok a => cases h
  | error err' =>
    obtain rfl := Option.some.inj h
    rfl

/-- An error that `readSignature` raises shows in the text of the entry it is given. -/
theorem Entry.shown_of_readSignature {e : Entry} {x : Script α} (hx : x.Honest) {lenient : Bool}
    {err : Error} (h : err ∈ error? (readSignature x lenient e.text)) : err.Shown e.text :=
  Signature.shown_of_readSignature hx (eq_error_of_mem_error? h)

/-- The error of a signature shows in the text of the entry also when what stands in front of the
signature was blanked out with `Entry.blankedTo`. -/
theorem Entry.shown_of_readSignature_blankedTo {e : Entry} {x : Script α} (hx : x.Honest)
    {lenient : Bool} {count : Nat} {err : Error}
    (h : err ∈ error? (readSignature x lenient (e.blankedTo count))) : err.Shown e.text := by
  have hread := Signature.shown_of_readSignature hx (eq_error_of_mem_error? h)
  have hshown := hread.of_blanks
  rwa [List.take_append_drop] at hshown

/-- A note made with `Entry.namedNote` is taken from its entry, and its error shows there. -/
theorem Entry.reads_namedNote (e : Entry) (h : Heading) {x : Script String} (hx : x.Honest)
    (content : NamedType → Content) : e.Reads (e.namedNote h x content) :=
  e.reads_note _ _ fun _ => Entry.shown_of_readSignature_blankedTo hx

/-- A note made with `Entry.keywordNote` is taken from its entry, and its error shows there. -/
theorem Entry.reads_keywordNote (e : Entry) (h : Heading) {x : Script α} (hx : x.Honest)
    (content : Option α → Content) : e.Reads (e.keywordNote h x content) :=
  e.reads_note _ _ fun _ => Entry.shown_of_readSignature_blankedTo hx

/-- The errors of tagged method types show where they are raised (`Script.Honest`). -/
theorem Entry.honest_taggedMethodTypes : Entry.taggedMethodTypes.Honest := by
  intro ok Fault h
  simp [Entry.taggedMethodTypes, Script.call]

/-- The errors of block signatures show where they are raised (`Script.Honest`). -/
theorem Entry.honest_declarations : Grammar.declarations.Honest := by
  intro ok Fault h
  simp [Grammar.declarations, Script.call]

section Forms

variable {e : Entry} {n : Note}

/-- What `Entry.readNamed?` gives is taken from the entry. -/
theorem Entry.reads_of_readNamed? (h : e.readNamed? = some n) : e.Reads n := by
  simp only [Entry.readNamed?, Option.orElse_eq_orElse, Option.orElse_eq_or, Option.or_eq_some_iff,
    Option.map_eq_some_iff] at h
  rcases h with ⟨head, -, rfl⟩ | ⟨-, ⟨head, -, rfl⟩ | ⟨-, ⟨head, -, rfl⟩ | ⟨-, head, -, rfl⟩⟩⟩
  · exact e.reads_namedNote head (fun _ => blames_type) _
  · exact e.reads_namedNote head (fun h => blames_blockSignature h) _
  · exact e.reads_namedNote head (fun _ => blames_type) _
  · exact e.reads_namedNote head (fun _ => blames_type) _

/-- What `Entry.readLone?` gives is taken from the entry. -/
theorem Entry.reads_of_readLone? (h : e.readLone? = some n) : e.Reads n := by
  unfold Entry.readLone? at h
  split at h
  · cases h
    exact e.reads_note _ _ (by simp)
  split at h
  · cases h
    exact e.reads_note _ _ (by simp)
  · cases h

/-- What `Entry.readKeyword?` gives is taken from the entry. -/
theorem Entry.reads_of_readKeyword? (h : e.readKeyword? = some n) : e.Reads n := by
  unfold Entry.readKeyword? at h
  simp only at h
  split at h <;> cases h
  · exact e.reads_keywordNote _ (fun h => blames_classReference h) _
  · exact e.reads_keywordNote _ (fun h => blames_useClauses h) _
  · exact e.reads_keywordNote _ (fun h => blames_selfTypes h) _
  · exact e.reads_keywordNote _ (fun h => blames_typeParameter h true) _
  · exact e.reads_keywordNote _ (fun h => blames_moduleHead h) _
  · exact e.reads_keywordNote _ (fun h => blames_classHead h) _

/-- What `Entry.readMethodType?` gives is taken from the entry. -/
theorem Entry.reads_of_readMethodType? (h : e.readMethodType? = some n) : e.Reads n := by
  unfold Entry.readMethodType? at h
  split at h
  · cases h
    split
    · rename_i err hread
      refine e.reads_note _ _ fun err' herr' => ?_
      cases herr'
      exact Signature.shown_of_readSignature Entry.honest_taggedMethodTypes hread
    · exact e.reads_note _ _ (by simp)
    · exact e.reads_note _ _ (by simp)
  · cases h

/-- What `Entry.readBare?` gives is taken from the entry. -/
theorem Entry.reads_of_readBare? (h : e.readBare? = some n) : e.Reads n := by
  obtain ⟨head, -, rfl⟩ := Option.map_eq_some_iff.1 h
  exact e.reads_note _ _ (by simp)

/-- What `Entry.readAssertion` gives is taken from the entry, and its error shows there. -/
theorem Entry.reads_readAssertion (e : Entry) : e.Reads e.readAssertion := by
  unfold Entry.readAssertion
  simp only
  split
  · exact e.reads_note _ _ (by simp)
  · rename_i methodError hmethod
    split
    · exact e.reads_note _ _ (by simp)
    · rename_i typeError htype
      refine e.reads_note _ _ fun err herr => ?_
      obtain rfl := Option.some.inj herr
      split
      · exact Signature.shown_of_readSignature (fun h => blames_methodType h) hmethod
      · exact Signature.shown_of_readSignature (fun _ => blames_type) htype

/-- Whatever the form of an entry, the error of what `Entry.read?` gives shows in its text. -/
theorem Entry.reads_of_read? (h : e.read? = some n) : e.Reads n := by
  unfold Entry.read? at h
  split at h
  · simp only [Entry.readMarked?, Option.orElse_eq_orElse, Option.orElse_eq_or,
      Option.or_eq_some_iff] at h
    rcases h with h | ⟨-, h | ⟨-, h | ⟨-, h | ⟨-, h⟩⟩⟩⟩
    · exact Entry.reads_of_readNamed? h
    · exact Entry.reads_of_readLone? h
    · exact Entry.reads_of_readKeyword? h
    · exact Entry.reads_of_readMethodType? h
    · exact Entry.reads_of_readBare? h
  · cases h
    exact e.reads_note _ _ fun _ => Entry.shown_of_readSignature Entry.honest_declarations
  · cases h
    exact e.reads_readAssertion
  · cases h
    exact e.reads_note _ _ fun _ => Entry.shown_of_readSignature fun h => blames_typeList h

end Forms

/-! ### Offenses -/

/-- Among comments that come one after another (`Comment.Before`), the one that contains a position
is found. -/
theorem find?_eq_of_pairwise {cs : List Comment} (hcs : cs.Pairwise Comment.Before) {c : Comment}
    (hc : c ∈ cs) {offset : Nat} (hstart : c.start ≤ offset) (hstop : offset ≤ c.stop) :
    cs.find? (fun c => c.start ≤ offset && offset ≤ c.stop) = some c := by
  obtain ⟨before, after, rfl⟩ := List.append_of_mem hc
  refine List.find?_eq_some_iff_append.2 ⟨by simp [hstart, hstop], before, after, rfl, ?_⟩
  intro a ha
  have hbefore : a.Before c := (List.pairwise_append.1 hcs).2.2 a ha c List.mem_cons_self
  have hlt : ¬ offset ≤ a.stop := by
    have := hbefore.stop
    omega
  simp [hlt]

namespace Entry.Lands

variable {s : Source} {e : Entry} {before rest pre : List Char} {c : Comment}

/-- The offset of an error is that of the place where it lands, in bytes of the file. -/
theorem fileOffset_before (h : e.Lands s.text before rest c pre) :
    e.fileOffset (size before) = size pre := h.fileOffset 0 (Nat.zero_le _)

/-- The offset of an error is that of the place where it lands, in characters of the file. -/
theorem characterOffset_before (h : e.Lands s.text before rest c pre) :
    s.characterOffset (e.fileOffset (size before)) = pre.length := by
  obtain ⟨post, hpost⟩ := h.line
  rw [h.fileOffset_before, Source.characterOffset, hpost, characterOffset_size]

/-- The place of the error lies in the comment, which is the first one found that contains it. -/
theorem find?_eq (h : e.Lands s.text before rest c pre) (he : e.From s.comments) :
    e.comments.find? (fun c => c.start ≤ pre.length && pre.length ≤ c.stop) = some c := by
  have hstop := h.stop
  exact find?_eq_of_pairwise he.pairwise_comments h.mem (Nat.le_of_lt h.start) (by omega)

/-- The span of `typeOffense` starts where the error does, and ends where the error does or with the
comment. -/
theorem span_typeOffense (h : e.Lands s.text before rest c pre) (he : e.From s.comments) {n : Note}
    (hn : n.comments = e.comments) (cause : Cause) {length : Nat}
    (hle : e.fileOffset (size before) ≤ e.fileOffset (size before + length)) :
    (typeOffense s n (e.relocate ⟨cause, size before, length⟩)).span =
      ⟨pre.length, min (max (s.characterOffset (e.fileOffset (size before + length))) pre.length)
        c.stop⟩ := by
  have hstart := h.start
  have hstop := h.stop
  simp only [typeOffense, Entry.relocate, Source.spanOfBytes, Nat.add_sub_cancel' hle,
    h.characterOffset_before, hn, commentAt?, h.find?_eq he, Option.some_or, Option.getD_some,
    Range.clamp, Comment.span]
  rw [Nat.max_eq_left (Nat.le_of_lt hstart), Nat.min_eq_left (by omega)]

/-- For a stretch of the text, `typeOffense` shows the first line of it. -/
theorem span_typeOffense_body (h : e.Lands s.text before rest c pre) (he : e.From s.comments)
    {n : Note} (hn : n.comments = e.comments) (cause : Cause) {body after : List Char}
    (hrest : rest = body ++ after) :
    (typeOffense s n (e.relocate ⟨cause, size before, size body⟩)).span =
      ⟨pre.length, pre.length + (Text.firstLine body).length⟩ := by
  have hstop := h.stop
  by_cases hmem : '\n' ∈ body
  · -- The error goes on after the comment, which is cut off.
    obtain ⟨pre', post', hfile, hoffset, hlt⟩ := h.beyond body after hrest hmem
    obtain ⟨post, hpost⟩ := h.line
    have hsize : size pre ≤ size pre' := by
      rw [hfile] at hpost
      rcases List.append_eq_append_iff.1 hpost with ⟨more, rfl, -⟩ | ⟨more, rfl, -⟩
      · rw [List.length_append] at hstop
        omega
      · rw [size_append]
        omega
    rw [h.span_typeOffense he hn cause (by rwa [h.fileOffset_before, hoffset]), hoffset,
      Source.characterOffset, hfile, characterOffset_size]
    rw [hrest, Text.firstLine_append_of_mem hmem] at hstop
    rw [Nat.max_eq_left (by omega), Nat.min_eq_right (by omega), hstop]
  · -- The error ends on its line, and is shown whole.
    rw [hrest, Text.firstLine_append hmem] at hstop
    have hsize : size body ≤ size (Text.firstLine rest) := by
      rw [hrest, Text.firstLine_append hmem, size_append]
      omega
    obtain ⟨post, hpost⟩ := h.line
    rw [h.span_typeOffense he hn cause (by rw [h.fileOffset_before, h.fileOffset _ hsize]; omega),
      h.fileOffset _ hsize, Source.characterOffset, hpost, hrest, Text.firstLine_append hmem,
      ← size_append, ← List.append_assoc, ← List.append_assoc, List.append_assoc (pre ++ body),
      characterOffset_size, Text.firstLine_of_not_mem hmem, List.length_append]
    rw [List.length_append] at hstop
    rw [Nat.max_eq_left (by omega), Nat.min_eq_left (by omega)]

/-- For one byte, `typeOffense` shows one character. -/
theorem span_typeOffense_one {rest : List Char} {ch : Char}
    (h : e.Lands s.text before (ch :: rest) c pre) (he : e.From s.comments) {n : Note}
    (hn : n.comments = e.comments) (cause : Cause) (hch : ch ≠ '\n') :
    (typeOffense s n (e.relocate ⟨cause, size before, 1⟩)).span = ⟨pre.length, pre.length + 1⟩ := by
  have hfirst := Text.firstLine_cons hch rest
  have hstop := h.stop
  have hpos := Char.utf8Size_pos ch
  -- The second byte of the character, or what follows it, counts as the next character.
  have hsize : 1 ≤ size (Text.firstLine (ch :: rest)) := by
    rw [hfirst, size_cons]
    omega
  obtain ⟨post, hpost⟩ := h.line
  rw [h.span_typeOffense he hn cause (by rw [h.fileOffset_before, h.fileOffset _ hsize]; omega),
    h.fileOffset _ hsize, Source.characterOffset, hpost, hfirst, List.cons_append,
    characterOffset_size_add_one]
  rw [hfirst, List.length_cons] at hstop
  rw [Nat.max_eq_left (by omega), Nat.min_eq_left (by omega)]

end Entry.Lands

/-- What stands in the file at the place where an error of a note is shown, in one of its comments. -/
def Signature.Cause.ShowsAt (file : List Char) (n : Note) (c : Comment) (place : Span) :
    Cause → Prop
  | unexpectedToken found _ =>
    (file.drop place.start).take (place.stop - place.start) = Text.firstLine found.toList
  | unexpectedCharacter ch => place.stop = place.start + 1 ∧ file[place.start]? = some ch
  | unterminatedString =>
    (file[place.start]? = some '"' ∨ file[place.start]? = some '\'') ∧ place.stop = c.stop
  | unexpectedEnd _ => place.start = place.stop ∧ place.stop = n.last.stop
  | tooDeep => False

/-- The offense for an error of a note lies in a comment of the note, behind its hash sign, and shows
there what the error is about. The search for the place of the error finds the comment, so that none
has to be taken in its stead. -/
structure Note.ShowsError (s : Source) (n : Note) (e : Error) (c : Comment) : Prop where
  mem : c ∈ n.comments
  find?_eq : n.comments.find? (fun c => c.start ≤ s.characterOffset e.offset &&
    s.characterOffset e.offset ≤ c.stop) = some c
  start_lt : c.start < (typeOffense s n e).span.start
  start_le_stop : (typeOffense s n e).span.start ≤ (typeOffense s n e).span.stop
  stop_le : (typeOffense s n e).span.stop ≤ c.stop
  showsAt : e.cause.ShowsAt s.text n c (typeOffense s n e).span

/-- The last of the comments of a note is `Note.last`. -/
theorem Note.eq_last_of_mem_getLast? {n : Note} {c : Comment} (h : c ∈ n.comments.getLast?) :
    c = n.last := by
  rw [Note.comments, List.getLast?_cons, Option.mem_some_iff] at h
  rw [Note.last, List.getLastD_eq_getLast?, h]

namespace Entry.Lands

variable {s : Source} {e : Entry} {before rest pre : List Char} {c : Comment} {n : Note}

/-- An error whose offense goes from the place where it lands to somewhere in the same comment is
shown, if what it is about stands there. -/
theorem showsError (h : e.Lands s.text before rest c pre) (he : e.From s.comments)
    (hn : n.comments = e.comments) {cause : Cause} {length stop : Nat}
    (hspan : (typeOffense s n (e.relocate ⟨cause, size before, length⟩)).span = ⟨pre.length, stop⟩)
    (hle : pre.length ≤ stop) (hstop : stop ≤ c.stop)
    (hcause : cause.ShowsAt s.text n c ⟨pre.length, stop⟩) :
    n.ShowsError s (e.relocate ⟨cause, size before, length⟩) c where
  mem := hn ▸ h.mem
  find?_eq := by
    rw [hn, Entry.relocate, h.characterOffset_before]
    exact h.find?_eq he
  start_lt := by
    rw [hspan]
    exact h.start
  start_le_stop := by
    rw [hspan]
    exact hle
  stop_le := by
    rw [hspan]
    exact hstop
  showsAt := by
    rw [hspan]
    exact hcause

/-- An error about a stretch of the text, if its cause is shown by the first line of the stretch. -/
theorem showsError_body (h : e.Lands s.text before rest c pre) (he : e.From s.comments)
    (hn : n.comments = e.comments) {cause : Cause} {body after : List Char}
    (hrest : rest = body ++ after)
    (hcause : cause.ShowsAt s.text n c ⟨pre.length, pre.length + (Text.firstLine body).length⟩) :
    n.ShowsError s (e.relocate ⟨cause, size before, size body⟩) c := by
  refine h.showsError he hn (h.span_typeOffense_body he hn cause hrest) (Nat.le_add_right _ _) ?_
    hcause
  obtain ⟨more, hmore⟩ := Text.exists_firstLine_append body after
  rw [← h.stop, hrest, hmore, List.length_append]
  omega

/-- The character of the entry at the place where it lands is that of the file. -/
theorem getElem?_length {ch : Char} {rest : List Char}
    (h : e.Lands s.text before (ch :: rest) c pre) (hch : ch ≠ '\n') :
    s.text[pre.length]? = some ch := by
  obtain ⟨post, hpost⟩ := h.line
  rw [hpost, Text.firstLine_cons hch]
  simp

end Entry.Lands

/-- An error that shows in the text of an entry is shown in the file (`Note.ShowsError`). -/
theorem Entry.From.exists_showsError {s : Source} {e : Entry} (he : e.From s.comments) {n : Note}
    (hn : n.comments = e.comments) {err : Error} (h : err.Shown e.text) :
    ∃ c, n.ShowsError s (e.relocate err) c := by
  cases h with
  | end_ expected =>
    -- The end of the text lies at the end of the last comment, and is no stretch at all.
    obtain ⟨c, pre, hlands⟩ := Entry.exists_lands he (List.append_nil e.text).symm
    have hlast : c = n.last := Note.eq_last_of_mem_getLast? (hn ▸ hlands.last rfl)
    have hcause : (Cause.unexpectedEnd expected).ShowsAt s.text n c
        ⟨pre.length, pre.length + (Text.firstLine []).length⟩ := by
      exact ⟨rfl, hlast ▸ hlands.stop⟩
    exact ⟨c, hlands.showsError_body he hn (List.append_nil []).symm hcause⟩
  | @token before after ch more expected htext hch =>
    obtain ⟨c, pre, hlands⟩ := Entry.exists_lands he htext
    obtain ⟨post, hpost⟩ := hlands.line
    obtain ⟨rest, hrest⟩ := Text.exists_firstLine_append (ch :: more) after
    refine ⟨c, hlands.showsError_body he hn rfl ?_⟩
    simp only [Cause.ShowsAt, String.toList_ofList, Nat.add_sub_cancel_left]
    rw [hpost, hrest, List.drop_left, List.append_assoc, List.take_left]
  | @quotation before after ch htext hch =>
    -- The stretch is all the rest of the text, of which the comment shows one line.
    obtain ⟨c, pre, hlands⟩ := Entry.exists_lands he htext
    have hquote : s.text[pre.length]? = some '"' ∨ s.text[pre.length]? = some '\'' := by
      rcases hch with rfl | rfl
      · exact .inl (hlands.getElem?_length (by decide))
      · exact .inr (hlands.getElem?_length (by decide))
    have hcause : Cause.unterminatedString.ShowsAt s.text n c
        ⟨pre.length, pre.length + (Text.firstLine (ch :: after)).length⟩ := ⟨hquote, hlands.stop⟩
    exact ⟨c, hlands.showsError_body he hn (List.append_nil _).symm hcause⟩
  | @character before after ch htext hch =>
    obtain ⟨c, pre, hlands⟩ := Entry.exists_lands he htext
    have hne : ch ≠ '\n' := by
      rintro rfl
      cases hch
    have hstop := hlands.stop
    rw [Text.firstLine_cons hne, List.length_cons] at hstop
    have hcause : (Cause.unexpectedCharacter ch).ShowsAt s.text n c
        ⟨pre.length, pre.length + 1⟩ := ⟨rfl, hlands.getElem?_length hne⟩
    exact ⟨c, hlands.showsError he hn (hlands.span_typeOffense_one he hn _ hne)
      (Nat.le_add_right _ _) (by omega) hcause⟩

/-- **Errors are shown where they are.** Every error in a note of a file is an offense against the
rule about types, which shows in a comment of the note what the error is about: the token that was
not expected up to its first line end, the one character that starts no token, the quotation mark and
what follows it in the comment, or the end of the last comment if the signature ends too early. -/
theorem showsError_of_mem_notes {s : Source} {b : CommentBlock} (hb : b ∈ s.blocks) {n : Note}
    (hn : n ∈ b.notes) {e : Error} (he : n.error = some e) :
    typeOffense s n e ∈ invalidTypes s ∧ ∃ c, n.ShowsError s e c := by
  have hoffense : typeOffense s n e ∈ invalidTypes s := by
    rw [invalidTypes, Offense.sort, List.mem_mergeSort]
    exact List.mem_flatMap.2 ⟨b, hb, List.mem_filterMap.2 ⟨n, hn, by rw [he]; rfl⟩⟩
  obtain ⟨entry, hentry, hread⟩ := List.mem_filterMap.1 hn
  have hfrom : entry.From s.comments :=
    (CommentBlock.from_of_mem_entries hentry).mono (CommentBlock.sublist_of_mem_group hb)
  have hreads := Entry.reads_of_read? hread
  obtain ⟨shown, hshown, rfl⟩ := hreads.error e he
  exact ⟨hoffense, hfrom.exists_showsError hreads.comments hshown⟩

/-- A note on two lines, with a character on the second one that starts no token. -/
theorem showsError_second_line :
    ∃ b ∈ (Source.ofText "# @rbs x: [A,\n#   é]".toList).blocks, ∃ n ∈ b.notes, ∃ c,
      n.ShowsError (.ofText "# @rbs x: [A,\n#   é]".toList) ⟨.unexpectedCharacter 'é', 18, 1⟩ c := by
  have hnote : ∃ b ∈ (Source.ofText "# @rbs x: [A,\n#   é]".toList).blocks, ∃ n ∈ b.notes,
      n.error = some ⟨.unexpectedCharacter 'é', 18, 1⟩ := by decide +kernel
  obtain ⟨b, hb, n, hn, he⟩ := hnote
  exact ⟨b, hb, n, hn, (showsError_of_mem_notes hb hn he).2⟩

end TypeNotes
