import TypeNotes.Proofs.Checked.Basic
import TypeNotes.Proofs.Note.Error

/-!
# Reading notes

A signature is read from a buffer of tokens, whose places have to exist, and whatever cannot be read
ends the reading with a fault. Reading a note catches the faults of signatures, and no others
(`Checked.attempt`), and puts them into the note with their place in the file, which is looked up in a
table of the segments.

**What is caught.** The errors that a signature can end in are those that show in its text; in
particular a budget is never used up. So every fault of a signature is caught, and reading the notes
of a block never fails (`Checked.notes_eq`).
-/

namespace TypeNotes.Checked

open Signature

variable {α β : Type}

/-! ### Running scripts -/

/-- The fault for an error of a signature. -/
def faultOf (e : Error) : Fault := if e.cause = .tooDeep then .depth else .signature e

/-- What is read from a cursor, or the fault that ends the reading. -/
abbrev Run (α : Type) : Type := Cursor → Checked α × Cursor

/-- The token `ahead` places after the next: that of the buffer, or its last one, which is the end
of input. -/
def peek (ahead : Nat) : Run Token := fun c =>
  match Cursor.fill (ahead + 1 - c.buffer.length) c with
  | (.error e, c) => (.error (faultOf e), c)
  | (.ok (), c) =>
    (if c.buffer.length ≤ ahead then lastItem c.buffer else item c.buffer ahead, c)

/-- Takes the next token out of the buffer; the end of input stays in it. -/
def advance : Run Token := fun c =>
  match peek 0 c with
  | (.error f, c) => (.error f, c)
  | (.ok t, c) =>
    if t.isEnd then (.ok t, c)
    else match c.buffer with
      | [] => (.error .index, c)
      | _ :: rest => (.ok t, { c with buffer := rest, lastEnd := t.stop })

/-- Goes on with the answer, if there is one. -/
def andThen (outcome : Checked α × Cursor) (next : α → Run β) : Checked β × Cursor :=
  match outcome with
  | (.ok a, c) => next a c
  | (.error f, c) => (.error f, c)

/-- Runs a script, with a way to read the phrases it calls. -/
def run (perform : (p : Phrase) → Run p.Answer) : Script α → Run α
  | .done a, c => (.ok a, c)
  | .fail e, c => (.error (faultOf e), c)
  | .peekAt ahead next, c => andThen (peek ahead c) fun t => run perform (next t)
  | .take next, c => andThen (advance c) fun t => run perform (next t)
  | .askEnd next, c => run perform (next c.lastEnd) c
  | .cutFrom start next, c => run perform (next (c.textSince start)) c
  | .read p next, c => andThen (perform p c) fun a => run perform (next a)

/-- Reads a phrase with at most `budget` calls nested in each other. -/
def perform : Nat → (p : Phrase) → Run p.Answer
  | 0, _, c => (.error .depth, c)
  | budget + 1, p, c => run (perform budget) p.script c

/-- Accepts what may follow a signature. -/
def acceptTrailing (lenient : Bool) (c : Cursor) : Checked Unit := do
  let t ← (peek 0 c).1
  if t.isEnd || lenient then return ()
  else if t.kind == .mark "-" && (c.data.drop t.start).take 2 == [byte '-', byte '-'] then return ()
  else .error (faultOf (t.unexpected "end of input"))

/-- Reads a text as one signature, with what may follow it. -/
def readSignature (script : Script α) (lenient : Bool) (text : List Char) : Checked α :=
  match run (perform (budget (Cursor.ofText text).data.length)) script (Cursor.ofText text) with
  | (.error f, _) => .error f
  | (.ok a, c) => do
    acceptTrailing lenient c
    return a

/-! ### Reading entries -/

/-- A segment as a row of a table: where it starts in the text of the entry, its size, and where it
starts in the file. -/
structure Row where
  start : Nat
  size : Nat
  byteStart : Nat

/-- The rows of segments that start here. -/
def rowsFrom (start : Nat) : List Segment → List Row
  | [] => []
  | seg :: more =>
    ⟨start, Utf8.size seg.text, seg.byteStart⟩ :: rowsFrom (start + Utf8.size seg.text + 1) more

/-- The byte of the file for a byte of the text: in the first row that ends after it, or else at the
end of the last one. -/
def lookUp (rows : List Row) (offset : Nat) : Checked Nat :=
  match rows.find? fun row => offset ≤ row.start + row.size with
  | some row => .ok (row.byteStart + (offset - row.start))
  | none => do
    let row ← lastItem rows
    return row.byteStart + row.size

/-- The byte of the file for a byte of the text of an entry. -/
def fileOffset (e : Entry) (offset : Nat) : Checked Nat := lookUp (rowsFrom 0 e.segments) offset

/-- An error in the text of an entry as an error in the file. -/
def relocate (e : Entry) (error : Error) : Checked Error := do
  let start ← fileOffset e error.offset
  let stop ← fileOffset e (error.offset + error.length)
  return ⟨error.cause, start, stop - start⟩

/-- The answer and the error of reading a signature. No other fault is caught. -/
def attempt (e : Entry) (outcome : Checked α) : Checked (Option α × Option Error) :=
  match outcome with
  | .ok a => .ok (some a, none)
  | .error (.signature error) => do return (none, some (← relocate e error))
  | .error fault => .error fault

/-- The note of an entry, with an error in the file. -/
def noteOf (e : Entry) (signature : List Char) (error : Option Error) (content : Content) : Note :=
  ⟨e.first.comment, e.more.map (·.comment), signature, error, content⟩

/-- The note of a name. -/
def namedNote (e : Entry) (script : Script String) (content : NamedType → Content) (h : Heading) :
    Checked Note := do
  let offset ← fileOffset e (Utf8.size (e.text.take h.start))
  let (type, error) ← attempt e (readSignature script true (e.blankedTo h.stop))
  return noteOf e (Text.trim (e.text.drop h.stop)) error (content ⟨h.name, offset, type⟩)

/-- The note of a keyword. -/
def keywordNote (e : Entry) (h : Heading) (script : Script α) (content : Option α → Content) :
    Checked Note := do
  let (value, error) ← attempt e (readSignature script false (e.blankedTo h.stop))
  return noteOf e (Text.trim (e.text.drop h.stop)) error (content value)

/-- The first of two answers, if there is one, or else the second. -/
def orNext (first next : Checked (Option α)) : Checked (Option α) := do
  match ← first with
  | some a => return some a
  | none => next

/-- Does something with an answer, if there is one. -/
def onSome (f : α → Checked β) : Option α → Checked (Option β)
  | some a => do return some (← f a)
  | none => return none

/-- Reads a name with a colon. -/
def readNamed? (e : Entry) : Checked (Option Note) :=
  orNext (onSome (namedNote e Grammar.type .objectVariable)
    (Heading.withColon? variableName e.text)) <|
  orNext (onSome (namedNote e Grammar.blockSignature .block)
    (Heading.withColon? blockName e.text)) <|
  orNext (onSome (namedNote e Grammar.type .parameter) (Heading.withColon? splatName e.text)) <|
  onSome (namedNote e Grammar.type Entry.contentOfName) (Heading.withColon? parameterName e.text)

/-- Reads a keyword and its argument. -/
def readKeyword? (e : Entry) : Checked (Option Note) :=
  let h := Heading.firstWord e.text
  match String.ofList h.name with
  | "inherits" => some <$> keywordNote e h Grammar.classReference .inherits
  | "use" => some <$> keywordNote e h Grammar.useClauses fun l => .uses (l.getD [])
  | "module-self" => some <$> keywordNote e h Grammar.selfTypes fun l => .moduleSelf (l.getD [])
  | "generic" => some <$> keywordNote e h (Grammar.typeParameter true) .generic
  | "module" => some <$> keywordNote e h Grammar.moduleHead .moduleHead
  | "class" => some <$> keywordNote e h Grammar.classHead .classHead
  | _ => return none

/-- Reads tags alone or method types. -/
def readMethodType? (e : Entry) : Checked (Option Note) := do
  if startsMethodType e.text then
    let signature := Text.trim e.text
    let (value, error) ← attempt e (readSignature Entry.taggedMethodTypes false e.text)
    match value with
    | none => return some (noteOf e signature error (.methodType [] []))
    | some (tags, none) => return some (noteOf e signature error (.tags tags))
    | some (tags, some types) => return some (noteOf e signature error (.methodType tags types))
  else return none

/-- Reads a name without a colon. -/
def readBare? (e : Entry) : Checked (Option Note) :=
  onSome (fun h => do
    let offset ← fileOffset e (Utf8.size (e.text.take h.start))
    return noteOf e (Text.trim (e.text.drop h.stop)) none
      (Entry.contentOfName ⟨h.name, offset, none⟩)) (Heading.bare? e.text)

/-- Reads an entry after the marker. -/
def readMarked? (e : Entry) : Checked (Option Note) :=
  orNext (readNamed? e) <| orNext (.ok e.readLone?) <| orNext (readKeyword? e) <|
    orNext (readMethodType? e) (readBare? e)

/-- Reads an assertion. -/
def readAssertion (e : Entry) : Checked Note := do
  let signature := Text.trim e.text
  match ← attempt e (readSignature Grammar.methodType false e.text) with
  | (some type, _) => return noteOf e signature none (.methodAssertion type)
  | (none, methodError) =>
    match ← attempt e (readSignature Grammar.type false e.text) with
    | (some type, _) => return noteOf e signature none (.typeAssertion type)
    | (none, typeError) =>
      let methodError ← orFault .form methodError
      let typeError ← orFault .form typeError
      return noteOf e signature
        (some (if typeError.offset ≤ methodError.offset then methodError else typeError))
        .unreadable

/-- Reads an entry. -/
def read? (e : Entry) : Checked (Option Note) := do
  match e.kind with
  | .marked => readMarked? e
  | .embedded =>
    let (count, error) ← attempt e (readSignature Grammar.declarations false e.text)
    return some (noteOf e (Text.trim e.text) error (.embedded (count.getD 0)))
  | .assertion => return some (← readAssertion e)
  | .application =>
    let (types, error) ← attempt e (readSignature Grammar.typeList false e.text)
    return some (noteOf e (Text.trim e.text) error (.application (types.getD [])))

/-- The notes in a block of comments. -/
def notes (b : CommentBlock) : Checked (List Note) := b.entries.filterMapM read?

/-- The blocks of comments, each with its notes. -/
def blocksWithNotes (comments : List Ruby.Comment) : Checked (List (CommentBlock × List Note)) :=
  (CommentBlock.group comments).mapM fun b => do return (b, ← notes b)

/-! ### Buffers -/

/-- A plain outcome with its error as a fault. -/
def raise : Except Error α → Checked α
  | .ok a => .ok a
  | .error e => .error (faultOf e)

/-- A plain run with its error as a fault. -/
def lift (outcome : Except Error α × Cursor) : Checked α × Cursor := (raise outcome.1, outcome.2)

/-- `fill` makes the buffer long enough, or its last token is the end of input. -/
theorem length_or_sawEnd_of_fill {count : Nat} {c c' : Cursor}
    (h : Cursor.fill count c = (.ok (), c')) :
    c.buffer.length + count ≤ c'.buffer.length ∨ c'.sawEnd = true := by
  induction count generalizing c with
  | zero =>
    obtain rfl : c = c' := by simpa [Cursor.fill] using h
    exact .inl (Nat.le_refl _)
  | succ count ih =>
    rw [Cursor.fill] at h
    split at h
    · rename_i hsaw
      obtain rfl : c = c' := by simpa using h
      exact .inr hsaw
    · split at h
      · cases h
      · rcases ih h with hle | hsaw
        · rw [List.length_append, List.length_singleton] at hle
          exact .inl (by omega)
        · exact .inr hsaw

/-- The token of `peek` is in the buffer, or is the last one in it. -/
theorem peek_eq (ahead : Nat) (c : Cursor) : peek ahead c = lift (Cursor.peek ahead c) := by
  unfold peek Cursor.peek
  cases hfill : Cursor.fill (ahead + 1 - c.buffer.length) c with
  | mk outcome c' =>
    cases outcome with
    | error e => rfl
    | ok _ =>
      simp only [lift]
      by_cases hle : c'.buffer.length ≤ ahead
      · have hnone : c'.buffer[ahead]? = none := List.getElem?_eq_none hle
        obtain ⟨t, ht⟩ : ∃ t, c'.buffer.getLast? = some t := by
          rcases length_or_sawEnd_of_fill hfill with hlength | hsaw
          · omega
          · rw [Cursor.sawEnd, Option.any_eq_true] at hsaw
            obtain ⟨t, ht, -⟩ := hsaw
            exact ⟨t, ht⟩
        rw [if_pos hle, lastItem_eq_ok ht, hnone, Option.none_or, ht]
        rfl
      · have hsome : c'.buffer[ahead]? = some c'.buffer[ahead] :=
          List.getElem?_eq_getElem (by omega)
        rw [if_neg hle, item_eq_ok hsome, hsome]
        rfl

/-- Behind a token that was looked at the buffer is not empty. -/
theorem buffer_ne_nil_of_peek {ahead : Nat} {c c' : Cursor} {t : Token}
    (h : peek ahead c = (.ok t, c')) : c'.buffer ≠ [] := by
  unfold peek at h
  split at h
  · cases h
  · rename_i c'' hfill
    obtain ⟨hitem, rfl⟩ := Prod.mk.inj h
    intro hnil
    rw [hnil, if_pos (by simp)] at hitem
    cases hitem

/-- `advance` takes the same token by places of the buffer. -/
theorem advance_eq (c : Cursor) : advance c = lift (Cursor.advance c) := by
  have hpeek := peek_eq 0 c
  unfold advance Cursor.advance
  rw [hpeek]
  cases hplain : Cursor.peek 0 c with
  | mk outcome c' =>
    cases outcome with
    | error e => rfl
    | ok t =>
      rw [hplain] at hpeek
      obtain ⟨first, rest, hbuffer⟩ := List.exists_cons_of_ne_nil (buffer_ne_nil_of_peek hpeek)
      simp only [lift, raise]
      split
      · rfl
      · rw [hbuffer]
        rfl

/-! ### Scripts -/

/-- Going on after an outcome is the same with faults for errors. -/
theorem andThen_lift (outcome : Except Error α × Cursor) {next : α → Run β}
    {next' : α → Reader Cursor β} (h : ∀ a c, next a c = lift (next' a c)) :
    andThen (lift outcome) next = lift (Reader.andThen outcome next') := by
  obtain ⟨result, c⟩ := outcome
  cases result with
  | ok a => exact h a c
  | error e => rfl

/-- `Script.run` runs as it does on plain cursors, with its errors as faults. -/
theorem run_eq {perform : (p : Phrase) → Run p.Answer}
    {perform' : (p : Phrase) → Reader Cursor p.Answer}
    (hperform : ∀ p c, perform p c = lift (perform' p c)) (x : Script α) (c : Cursor) :
    run perform x c = lift (x.run perform' c) := by
  induction x generalizing c with
  | done a => rfl
  | fail e => rfl
  | peekAt ahead next ih =>
    rw [run, peek_eq]
    exact andThen_lift _ ih
  | take next ih =>
    rw [run, advance_eq]
    exact andThen_lift _ ih
  | askEnd next ih => exact ih _ c
  | cutFrom start next ih => exact ih _ c
  | read p next ih =>
    rw [run, hperform]
    exact andThen_lift _ ih

/-- `perform` reads phrases the same with every budget. -/
theorem perform_eq (budget : Nat) (p : Phrase) (c : Cursor) :
    perform budget p c = lift (Phrase.perform budget p c) := by
  induction budget generalizing p c with
  | zero => rfl
  | succ budget ih => exact run_eq ih p.script c

/-- `acceptTrailing` accepts the same behind a signature. -/
theorem acceptTrailing_eq (lenient : Bool) (c : Cursor) :
    acceptTrailing lenient c = raise (TypeNotes.acceptTrailing lenient c) := by
  rw [acceptTrailing, TypeNotes.acceptTrailing, peek_eq, lift]
  generalize (Cursor.peek 0 c).1 = outcome
  cases outcome with
  | error e => rfl
  | ok t =>
    simp only [raise, ok_bind]
    split
    · rfl
    split <;> rfl

/-- `readSignature` reads the same, with a fault for its error. -/
theorem readSignature_eq (x : Script α) (lenient : Bool) (text : List Char) :
    readSignature x lenient text = raise (TypeNotes.readSignature x lenient text) := by
  have hrun := run_eq (perform_eq (budget (Cursor.ofText text).data.length)) x (Cursor.ofText text)
  rw [readSignature, TypeNotes.readSignature, hrun, Cursor.run]
  cases x.run (Phrase.perform (budget (Cursor.ofText text).data.length)) (Cursor.ofText text) with
  | mk outcome c =>
    cases outcome with
    | error e => rfl
    | ok a =>
      simp only [lift, raise, acceptTrailing_eq]
      cases TypeNotes.acceptTrailing lenient c <;> rfl

/-! ### Places in the file -/

/-- `lookUp` finds a place in the first row there. -/
theorem lookUp_cons_of_le {row : Row} {offset : Nat} (h : offset ≤ row.start + row.size)
    (rows : List Row) : lookUp (row :: rows) offset = .ok (row.byteStart + (offset - row.start)) := by
  rw [lookUp, List.find?_cons_of_pos (by simpa using h)]

/-- To `lookUp` a place in the rows is to find it among the segments. -/
theorem lookUp_rowsFrom {start offset : Nat} (hle : start ≤ offset) (seg : Segment)
    (more : List Segment) :
    lookUp (rowsFrom start (seg :: more)) offset = .ok (seg.fileOffset more (offset - start)) := by
  induction more generalizing start seg with
  | nil =>
    rw [rowsFrom, Segment.fileOffset]
    by_cases hseg : offset ≤ start + Utf8.size seg.text
    · rw [lookUp_cons_of_le hseg, Nat.min_eq_left (by omega)]
    · rw [lookUp, List.find?_cons_of_neg (by simpa using hseg), Nat.min_eq_right (by omega)]
      rfl
  | cons next more ih =>
    rw [rowsFrom, Segment.fileOffset]
    by_cases hseg : offset ≤ start + Utf8.size seg.text
    · rw [lookUp_cons_of_le hseg, if_pos (by omega)]
    · have hlt : start + Utf8.size seg.text + 1 ≤ offset := by omega
      have hnext := ih hlt next
      rw [if_neg (by omega), show offset - start - (Utf8.size seg.text + 1) =
        offset - (start + Utf8.size seg.text + 1) by omega, ← hnext, rowsFrom, lookUp, lookUp,
        List.find?_cons_of_neg (by simpa using hseg)]
      rfl

/-- `fileOffset` finds every place of an entry in the table. -/
theorem fileOffset_eq (e : Entry) (offset : Nat) :
    fileOffset e offset = .ok (e.fileOffset offset) :=
  lookUp_rowsFrom (Nat.zero_le offset) e.first e.more

/-- `relocate` places every error of an entry in the file. -/
theorem relocate_eq (e : Entry) (error : Error) : relocate e error = .ok (e.relocate error) := by
  rw [relocate, fileOffset_eq, fileOffset_eq]
  rfl

/-! ### Errors are caught -/

/-- An error that shows in a text is caught, as no budget is used up. -/
theorem faultOf_of_shown {text : List Char} {error : Error} (h : error.Shown text) :
    faultOf error = .signature error := by
  cases h <;> rfl

/-- `attempt` puts an error in a signature into the note. -/
theorem attempt_eq (e : Entry) {x : Script α} (hx : x.Honest) (lenient : Bool) (text : List Char) :
    attempt e (readSignature x lenient text) =
      .ok (answer? (TypeNotes.readSignature x lenient text),
        (error? (TypeNotes.readSignature x lenient text)).map e.relocate) := by
  rw [readSignature_eq]
  cases hread : TypeNotes.readSignature x lenient text with
  | ok a => rfl
  | error error =>
    simp only [raise, faultOf_of_shown (shown_of_readSignature hx hread), attempt,
      relocate_eq]
    rfl

/-- `namedNote` never fails. -/
theorem namedNote_eq (e : Entry) {x : Script String} (hx : x.Honest) (content : NamedType → Content)
    (h : Heading) : namedNote e x content h = .ok (e.namedNote h x content) := by
  rw [namedNote, fileOffset_eq, ok_bind, attempt_eq e hx]
  rfl

/-- `keywordNote` never fails. -/
theorem keywordNote_eq (e : Entry) (h : Heading) {x : Script α} (hx : x.Honest)
    (content : Option α → Content) : keywordNote e h x content = .ok (e.keywordNote h x content) := by
  rw [keywordNote, attempt_eq e hx]
  rfl

theorem orNext_ok (first next : Option α) :
    orNext (.ok first) (.ok next) = .ok (first <|> next) := by
  cases first <;> rfl

/-- Doing something with a value that is there never fails, if doing it does not. -/
theorem onSome_eq {f : α → Checked β} {g : α → β} (h : ∀ a, f a = .ok (g a)) (o : Option α) :
    onSome f o = .ok (o.map g) := by
  cases o with
  | none => rfl
  | some a =>
    rw [onSome, h]
    rfl

/-- `readNamed?` never fails; and so each form below. -/
theorem readNamed?_eq (e : Entry) : readNamed? e = .ok e.readNamed? := by
  have hblock : Grammar.blockSignature.Honest := fun h => blames_blockSignature h
  rw [readNamed?, onSome_eq (namedNote_eq e (fun _ => blames_type) _),
    onSome_eq (namedNote_eq e hblock _), onSome_eq (namedNote_eq e (fun _ => blames_type) _),
    onSome_eq (namedNote_eq e (fun _ => blames_type) _), orNext_ok, orNext_ok, orNext_ok]
  rfl

theorem readKeyword?_eq (e : Entry) : readKeyword? e = .ok e.readKeyword? := by
  unfold readKeyword? Entry.readKeyword?
  simp only
  generalize String.ofList (Heading.firstWord e.text).name = word
  split
  · rw [keywordNote_eq e _ fun h => blames_classReference h]
    rfl
  · rw [keywordNote_eq e _ fun h => blames_useClauses h]
    rfl
  · rw [keywordNote_eq e _ fun h => blames_selfTypes h]
    rfl
  · rw [keywordNote_eq e _ fun h => blames_typeParameter h true]
    rfl
  · rw [keywordNote_eq e _ fun h => blames_moduleHead h]
    rfl
  · rw [keywordNote_eq e _ fun h => blames_classHead h]
    rfl
  · simp only [pure_eq]

theorem readMethodType?_eq (e : Entry) : readMethodType? e = .ok e.readMethodType? := by
  unfold readMethodType? Entry.readMethodType?
  split
  · rw [attempt_eq e Entry.honest_taggedMethodTypes, ok_bind]
    cases TypeNotes.readSignature Entry.taggedMethodTypes false e.text with
    | error error => rfl
    | ok value =>
      obtain ⟨tags, types⟩ := value
      cases types <;> rfl
  · rfl

theorem readBare?_eq (e : Entry) : readBare? e = .ok e.readBare? := by
  rw [readBare?, onSome_eq fun h => by rw [fileOffset_eq, ok_bind, pure_eq]]
  rfl

/-- `readMarked?` never fails, whatever the form of the note. -/
theorem readMarked?_eq (e : Entry) : readMarked? e = .ok e.readMarked? := by
  rw [readMarked?, readNamed?_eq, readKeyword?_eq, readMethodType?_eq, readBare?_eq, orNext_ok,
    orNext_ok, orNext_ok, orNext_ok]
  rfl

theorem readAssertion_eq (e : Entry) : readAssertion e = .ok e.readAssertion := by
  have hmethod : Grammar.methodType.Honest := fun h => blames_methodType h
  rw [readAssertion, Entry.readAssertion, attempt_eq e hmethod, ok_bind]
  cases TypeNotes.readSignature Grammar.methodType false e.text with
  | ok type => rfl
  | error methodError =>
    simp only [answer?, attempt_eq e fun _ => blames_type, ok_bind]
    cases TypeNotes.readSignature Grammar.type false e.text with
    | ok type => rfl
    | error typeError =>
      simp only [error?, Option.map_some, orFault, ok_bind, pure_eq, noteOf, Entry.note]
      split <;> rfl

/-- `read?` never fails. -/
theorem read?_eq (e : Entry) : read? e = .ok e.read? := by
  unfold read? Entry.read?
  cases e.kind with
  | marked => exact readMarked?_eq e
  | embedded =>
    simp only [attempt_eq e Entry.honest_declarations]
    rfl
  | assertion =>
    simp only [readAssertion_eq]
    rfl
  | application =>
    simp only [attempt_eq e fun h => blames_typeList h]
    rfl

/-- `notes` of a block are read without a failure. -/
theorem notes_eq (b : CommentBlock) : notes b = .ok b.notes :=
  filterMapM_eq_ok fun e _ => read?_eq e

/-- `blocksWithNotes` gathers all blocks of a file and their notes without a failure. -/
theorem blocksWithNotes_eq (s : Ruby.Source) :
    blocksWithNotes s.comments = .ok (s.blocks.map fun b => (b, b.notes)) := by
  refine mapM_eq_ok fun b _ => ?_
  rw [notes_eq]
  rfl

end TypeNotes.Checked
