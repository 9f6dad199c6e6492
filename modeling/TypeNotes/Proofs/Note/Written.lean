import TypeNotes.Proofs.Ruby.Written
import TypeNotes.Proofs.Signature.Margin
import TypeNotes.Rule.Shape

/-!
# Notes as they are written

A note about a method is written on one line: the marker `@rbs`, a name, a colon, and a type
(`noteText`). The name is plain, or it stands behind asterisks or an ampersand, where it may be left
out (`IsNoteName`).

**Reading back.** Of the four readers of names with a colon, exactly one finds the name of such a
note, and the type behind it is read in the place where it stands. So the note has no error if its
type is accepted by itself (`exists_tells_of_markedEntry`).

**Shapes.** The name stands behind the marker with its colon (`Shape.markedWord?_noteText`), and is
the keyword if there is one (`Shape.keywordWithColon?_noteText`).
-/

namespace TypeNotes

open Ruby Signature Unicode Utf8

/-! ### Names -/

/-- A name that a note about a method is written with. -/
inductive IsNoteName : List Char → Prop
  | plain (name : PlainName) : IsNoteName name.text
  | splat (name : Option PlainName) : IsNoteName ('*' :: name.elim [] PlainName.text)
  | doubleSplat (name : Option PlainName) : IsNoteName ('*' :: '*' :: name.elim [] PlainName.text)
  | block (name : Option PlainName) : IsNoteName ('&' :: name.elim [] PlainName.text)

/-- Notes can be written with all names that refer to a parameter (`matchableNames`). -/
theorem isNoteName_of_mem_matchableNames {p : PlainParameter} {name : List Char}
    (h : name ∈ p.parameter.matchableNames) : IsNoteName name := by
  have hblock : IsNoteName "&block".toList := .block (some ⟨"block".toList, by decide, by decide⟩)
  cases p with
  | required n => exact List.mem_singleton.1 h ▸ .plain n
  | keyword n => exact List.mem_singleton.1 h ▸ .plain n
  | rest n =>
    cases n with
    | none => exact List.mem_singleton.1 h ▸ .splat none
    | some n =>
      rcases List.mem_pair.1 h with rfl | rfl
      · exact .splat (some n)
      · exact .splat none
  | keywordRest n _ =>
    cases n with
    | none => exact List.mem_singleton.1 h ▸ .doubleSplat none
    | some n =>
      rcases List.mem_pair.1 h with rfl | rfl
      · exact .doubleSplat (some n)
      · exact .doubleSplat none
  | block n =>
    cases n with
    | none =>
      rcases List.mem_pair.1 h with rfl | rfl
      · exact .block none
      · exact hblock
    | some n =>
      rcases List.mem_pair.1 h with rfl | rfl
      · exact .block none
      · exact .block (some n)
  | forward =>
    simp only [PlainParameter.parameter, Parameter.matchableNames, List.mem_cons, List.not_mem_nil,
      or_false] at h
    rcases h with rfl | rfl | rfl
    · exact .splat none
    · exact .doubleSplat none
    · exact .block none

/-- The characters of names. -/
def noteNameCharacters : List Char := ['*', '&'] ++ plainCharacters

/-- Names of notes are written with `noteNameCharacters`. -/
theorem IsNoteName.subset {name : List Char} (h : IsNoteName name) : name ⊆ noteNameCharacters := by
  have hname (n : PlainName) : n.text ⊆ noteNameCharacters := fun c hc =>
    List.mem_append_right _ (n.plain hc)
  have hoptional (n : Option PlainName) : n.elim [] PlainName.text ⊆ noteNameCharacters := by
    cases n with
    | none => exact List.nil_subset _
    | some n => exact hname n
  cases h with
  | plain n => exact hname n
  | splat n => exact List.cons_subset.2 ⟨by decide, hoptional n⟩
  | doubleSplat n =>
    exact List.cons_subset.2 ⟨by decide, List.cons_subset.2 ⟨by decide, hoptional n⟩⟩
  | block n => exact List.cons_subset.2 ⟨by decide, hoptional n⟩

theorem IsNoteName.ne_nil {name : List Char} (h : IsNoteName name) : name ≠ [] := by
  cases h with
  | plain n =>
    obtain ⟨c, more, htext, -⟩ := n.exists_cons
    simp [htext]
  | _ => simp

/-- No character of a name ends a word or is part of a marker. -/
theorem IsNoteName.ne_of_mem {name : List Char} (h : IsNoteName name) {c : Char} (hc : c ∈ name) :
    isSpace c = false ∧ c ≠ ':' ∧ c ≠ '@' ∧ c ≠ '.' := by
  have hall : ∀ c ∈ noteNameCharacters, isSpace c = false ∧ c ≠ ':' ∧ c ≠ '@' ∧ c ≠ '.' :=
    List.all_iff_forall_prop.1 (by decide)
  exact hall c (h.subset hc)

/-- The grammar of what follows the name: that of blocks behind an ampersand, else that of types. -/
def grammarOf (name : List Char) : Script String :=
  if name.head? = some '&' then Grammar.blockSignature else Grammar.type

/-- The comment of a note with a name and a type. -/
def noteText (name type : List Char) : List Char := "# @rbs ".toList ++ name ++ ':' :: ' ' :: type

/-- `noteText`, character by character. -/
theorem noteText_eq (name type : List Char) : noteText name type =
    '#' :: ' ' :: '@' :: 'r' :: 'b' :: 's' :: ' ' :: (name ++ ':' :: ' ' :: type) := rfl

/-! ### Headings -/

/-- In front of what is no word, `word` reads a plain name whole. -/
theorem word_append (n : PlainName) {start : Char → Bool}
    (hstart : ∀ c ∈ plainCharacters, c.isDigit = false → start c = true) {tail : List Char}
    (htail : ∀ c ∈ tail.head?, isWord c = false) :
    word start (n.text ++ tail) = some (n.text, tail) := by
  obtain ⟨c, more, htext, hc, hdigit, htake, hdrop⟩ := n.exists_cons_append htail
  rw [htext, List.cons_append, word, if_pos (hstart c hc hdigit), htake, hdrop]

section Heading

variable {name : List Char} (type : List Char)

theorem isWord_colon : ∀ c ∈ (':' :: type).head?, isWord c = false :=
  isWord_head? (by decide) type

/-- No name in front of a colon refers to the object. -/
theorem IsNoteName.ne_self (h : IsNoteName name) (rest : List Char) :
    name ++ ':' :: type ≠ "self.".toList ++ rest := by
  intro heq
  have hdot : '.' ∉ name := fun hmem => (h.ne_of_mem hmem).2.2.2 rfl
  rcases List.append_eq_append_iff.1 heq with ⟨more, hself, hrest⟩ | ⟨more, hname, -⟩
  · cases more with
    | nil =>
      rw [List.append_nil] at hself
      exact hdot (hself ▸ by decide)
    | cons c more =>
      obtain ⟨rfl, -⟩ := List.cons.inj hrest
      have hcolon : ':' ∈ "self.".toList := hself ▸ by simp
      exact absurd hcolon (by decide)
  · exact hdot (hname ▸ List.mem_append_left _ (by decide))

/-- The name of a note starts with a visible character, which is no at sign. -/
theorem IsNoteName.exists_cons (h : IsNoteName name) :
    ∃ c more, name = c :: more ∧ isSpace c = false ∧ c ≠ '@' := by
  obtain ⟨c, more, rfl⟩ := List.exists_cons_of_ne_nil h.ne_nil
  obtain ⟨hspace, -, hat, -⟩ := h.ne_of_mem List.mem_cons_self
  exact ⟨c, more, rfl, hspace, hat⟩

/-- `variableName` does not read the name of a note. -/
theorem IsNoteName.variableName (h : IsNoteName name) :
    variableName (name ++ ':' :: type) = none := by
  have hself : Text.startsWith (name ++ ':' :: type) "self." = false := by
    rw [Bool.eq_false_iff]
    intro hstart
    obtain ⟨rest, hrest⟩ := List.isPrefixOf_iff_prefix.1 hstart
    exact h.ne_self type rest hrest.symm
  obtain ⟨c, more, rfl, -, hat⟩ := h.exists_cons
  rw [List.cons_append] at hself ⊢
  simp [TypeNotes.variableName, hself, hat]

/-- Names that may be left out are made of word characters. -/
theorem isWord_elim (n : Option PlainName) : ∀ c ∈ n.elim [] PlainName.text, isWord c = true := by
  cases n with
  | none => simp
  | some n => exact fun c hc => n.isWord hc

/-- `blockName` reads an ampersand with a name or without one. -/
theorem blockName_block (n : Option PlainName) :
    blockName ('&' :: n.elim [] PlainName.text ++ ':' :: type) =
      some ('&' :: n.elim [] PlainName.text, ':' :: type) := by
  obtain ⟨htake, hdrop⟩ := cut_run (isWord_elim n) (isWord_colon type)
  rw [List.cons_append, blockName, htake, hdrop]

/-- `splatName` reads one or two asterisks, with a name or without one. -/
theorem splatName_append {stars : List Char} (hstars : stars = ['*'] ∨ stars = ['*', '*'])
    (n : Option PlainName) :
    splatName (stars ++ n.elim [] PlainName.text ++ ':' :: type) =
      some (stars ++ n.elim [] PlainName.text, ':' :: type) := by
  have hword : (word Ruby.isNameStart (n.elim [] PlainName.text ++ ':' :: type)).getD
      ([], n.elim [] PlainName.text ++ ':' :: type) =
      (n.elim [] PlainName.text, ':' :: type) := by
    cases n with
    | none => rfl
    | some n =>
      rw [Option.elim_some, word_append n (fun c hc => isNameStart_of_plain hc) (isWord_colon type)]
      rfl
  have hrun : (n.elim [] PlainName.text ++ ':' :: type).takeWhile (· == '*') = [] := by
    cases n with
    | none => rfl
    | some n =>
      obtain ⟨c, more, htext, hc, hdigit⟩ := n.exists_cons
      have hne : c ≠ '*' := ne_of_isNameStart (isNameStart_of_plain hc hdigit) (by decide)
      simp [htext, hne]
  rw [List.append_assoc]
  rcases hstars with rfl | rfl
  · simp [splatName, hrun, hword]
  · simp [splatName, hrun, hword]

/-- `parameterName` reads a plain name. -/
theorem parameterName_plain (n : PlainName) :
    parameterName (n.text ++ ':' :: type) = some (n.text, ':' :: type) := by
  have hstart : ∀ c ∈ plainCharacters, c.isDigit = false → isParameterStart c = true :=
    List.all_iff_forall_prop.1 (by decide)
  rw [parameterName, word_append n hstart (isWord_colon type)]
  simp

/-! ### Headings with a colon -/

/-- One blank stands in front of the name. -/
theorem IsNoteName.blank (h : IsNoteName name) (rest : List Char) :
    indentation (' ' :: (name ++ rest)) = 1 ∧
      Text.trimLeft (' ' :: (name ++ rest)) = name ++ rest := by
  obtain ⟨c, more, rfl, hspace, -⟩ := h.exists_cons
  simp [indentation, Text.trimLeft, hspace]

/-- A name that is read whole makes a heading of `Heading.withColon?` with the colon behind it. -/
theorem withColon?_of_some (h : IsNoteName name) (part : NamePart)
    (hpart : part (name ++ ':' :: ' ' :: type) = some (name, ':' :: ' ' :: type)) :
    Heading.withColon? part (' ' :: (name ++ ':' :: ' ' :: type)) =
      some ⟨1, name, 1 + name.length + 1⟩ := by
  obtain ⟨hindent, htrim⟩ := h.blank (':' :: ' ' :: type)
  have hcolon : isSpace ':' = false := by decide
  rw [Heading.withColon?, htrim, hpart, hindent]
  simp [Text.trimLeft, indentation, hcolon]

/-- `Heading.withColon?` finds nothing with a reader that does not find the name. -/
theorem withColon?_of_none (h : IsNoteName name) (part : NamePart)
    (hpart : part (name ++ ':' :: ' ' :: type) = none) :
    Heading.withColon? part (' ' :: (name ++ ':' :: ' ' :: type)) = none := by
  rw [Heading.withColon?, (h.blank (':' :: ' ' :: type)).2, hpart]

end Heading

/-! ### Reading -/

/-- The entry of a comment with a marker and nothing else. -/
def markedEntry (c : Comment) : Entry := Marker.entry ⟨1, false⟩ c []

section Reading

variable {name type : List Char} {c : Comment} (hc : c.text = noteText name type)

include hc

/-- The body of a comment with `noteText` is what stands behind its hash sign. -/
theorem body_noteText :
    c.body = ' ' :: '@' :: 'r' :: 'b' :: 's' :: ' ' :: (name ++ ':' :: ' ' :: type) := by
  rw [Comment.body, hc, noteText_eq, List.drop_one, List.tail_cons]

/-- A comment with `noteText` has a marker behind one blank. -/
theorem ofBody?_noteText : Marker.ofBody? c.body = some ⟨1, false⟩ := by
  have hat : isSpace '@' = false := by decide
  rw [body_noteText hc]
  simp [Marker.ofBody?, Text.trimLeft, Text.after?, atGap, indentation, hat]

/-- The text of `markedEntry` is what stands behind the marker. -/
theorem text_markedEntry : (markedEntry c).text = ' ' :: (name ++ ':' :: ' ' :: type) := by
  have htext : (markedEntry c).text = c.body.drop 5 := rfl
  rw [htext, body_noteText hc]
  simp

/-- The signature of `markedEntry` is its type, behind as many blanks as the heading has bytes. -/
theorem exists_blankedTo_markedEntry :
    ∃ count, (markedEntry c).blankedTo (1 + name.length + 1) = Text.blanks count ++ type := by
  have hdrop : (markedEntry c).text.drop (1 + name.length + 1) = ' ' :: type := by
    rw [text_markedEntry hc, show 1 + name.length + 1 = (name.length + 1) + 1 by omega]
    simp [List.drop_append]
  refine ⟨size ((markedEntry c).text.take (1 + name.length + 1)) + 1, ?_⟩
  rw [Entry.blankedTo, hdrop, Text.blanks, Text.blanks, List.replicate_succ', List.append_assoc]
  rfl

end Reading

/-- What a note with a name says: it is about the result, a block, or a parameter. -/
def contentWith (named : NamedType) : Content :=
  if named.name = "return".toList then .result named
  else if named.name.head? = some '&' then .block named
  else .parameter named

/-- The note has no error, and is about what its name says. -/
structure Note.Tells (n : Note) (name : List Char) : Prop where
  error : n.error = none
  content : ∃ named : NamedType, named.name = name ∧ n.content = contentWith named

/-- A note that tells about a name (`Note.Tells`) is about the result, or else about a block or a
parameter. -/
theorem Note.Tells.cases_content {n : Note} {name : List Char} (h : n.Tells name) :
    ∃ named : NamedType, named.name = name ∧ (n.content = .result named ∨
      name ≠ "return".toList ∧ (n.content = .block named ∨ n.content = .parameter named)) := by
  obtain ⟨named, hname, hcontent⟩ := h.content
  refine ⟨named, hname, ?_⟩
  rw [contentWith, hname] at hcontent
  split at hcontent
  · exact .inl hcontent
  · rename_i hreturn
    refine .inr ⟨hreturn, ?_⟩
    split at hcontent
    · exact .inl hcontent
    · exact .inr hcontent

/-- What the grammar for a name (`grammarOf`) accepts by itself, it accepts behind a heading and
without carriage returns. -/
theorem exists_answer_grammarOf {name type : List Char}
    (h : ∃ a, (grammarOf name).whole.answer (encode type) = .ok a) (count : Nat) :
    ∃ a, (grammarOf name).whole.answer (encode (Text.blanks count ++ Text.dropReturns type)) =
      .ok a := by
  unfold grammarOf at h ⊢
  split
  · rename_i hblock
    rw [if_pos hblock] at h
    exact exists_answer_margins cut_blockSignature readsTo_blockSignature h count
  · rename_i hblock
    rw [if_neg hblock] at h
    exact exists_answer_margins cut_type (fun h => readsTo_type h (free_nil _)) h count

/-- A heading whose type is accepted makes a note without an error. -/
theorem tells_namedNote {name type : List Char} {c : Comment}
    (hc : c.text = noteText name (Text.dropReturns type))
    (haccepted : ∃ a, (grammarOf name).whole.answer (encode type) = .ok a)
    (content : NamedType → Content)
    (hcontent : ∀ named : NamedType, named.name = name → content named = contentWith named) :
    ((markedEntry c).namedNote ⟨1, name, 1 + name.length + 1⟩ (grammarOf name) content).Tells
      name := by
  obtain ⟨count, hblanked⟩ := exists_blankedTo_markedEntry hc
  obtain ⟨a, ha⟩ := exists_answer_grammarOf haccepted count
  have hread := readSignature_of_answer ha true
  rw [← hblanked] at hread
  refine ⟨?_, ⟨name, (markedEntry c).fileOffsetOfCharacter 1, some a⟩, rfl, ?_⟩
  · simp [Entry.namedNote, Entry.note, hread, error?]
  · simp [Entry.namedNote, Entry.note, hread, answer?, hcontent]

section Reading

variable {name type : List Char} {c : Comment}
  (hc : c.text = noteText name (Text.dropReturns type))
  (haccepted : ∃ a, (grammarOf name).whole.answer (encode type) = .ok a)

include hc haccepted

/-- A note about a block is read as one. -/
theorem exists_tells_of_block (n : Option PlainName) (h : name = '&' :: n.elim [] PlainName.text) :
    ∃ note, (markedEntry c).readNamed? = some note ∧ note.Tells name := by
  have hname : IsNoteName name := h ▸ .block n
  have hvariable := withColon?_of_none (Text.dropReturns type) hname variableName
    (hname.variableName _)
  have hblock := withColon?_of_some (Text.dropReturns type) hname blockName
    (h ▸ blockName_block _ n)
  have hgrammar : grammarOf name = Grammar.blockSignature := if_pos (h ▸ rfl)
  refine ⟨_, ?_, tells_namedNote hc haccepted .block ?_⟩
  · rw [Entry.readNamed?, text_markedEntry hc, hvariable, hblock, hgrammar]
    rfl
  · intro named hnamed
    simp [contentWith, hnamed, h]

/-- A note about a splat is read as one. -/
theorem exists_tells_of_splat {stars : List Char} (hstars : stars = ['*'] ∨ stars = ['*', '*'])
    (n : Option PlainName) (hname : IsNoteName name)
    (h : name = stars ++ n.elim [] PlainName.text) :
    ∃ note, (markedEntry c).readNamed? = some note ∧ note.Tells name := by
  have hvariable := withColon?_of_none (Text.dropReturns type) hname variableName
    (hname.variableName _)
  obtain ⟨more, hmore⟩ : ∃ more, name = '*' :: more := by
    rcases hstars with rfl | rfl
    · exact ⟨_, h⟩
    · exact ⟨_, h⟩
  have hblock := withColon?_of_none (Text.dropReturns type) hname blockName
    (by rw [hmore]; rfl)
  have hsplat := withColon?_of_some (Text.dropReturns type) hname splatName
    (h ▸ splatName_append _ hstars n)
  have hgrammar : grammarOf name = Grammar.type := if_neg (by simp [hmore])
  refine ⟨_, ?_, tells_namedNote hc haccepted .parameter ?_⟩
  · rw [Entry.readNamed?, text_markedEntry hc, hvariable, hblock, hsplat, hgrammar]
    rfl
  · intro named hnamed
    simp [contentWith, hnamed, hmore]

/-- A note with a plain name is read as one about a parameter or the result. -/
theorem exists_tells_of_plain (n : PlainName) (h : name = n.text) :
    ∃ note, (markedEntry c).readNamed? = some note ∧ note.Tells name := by
  have hname : IsNoteName name := h ▸ .plain n
  have hvariable := withColon?_of_none (Text.dropReturns type) hname variableName
    (hname.variableName _)
  obtain ⟨d, more, htext, hd, hdigit⟩ := n.exists_cons
  have hstart := isNameStart_of_plain hd hdigit
  have hampersand : d ≠ '&' := ne_of_isNameStart hstart (by decide)
  have hstar : d ≠ '*' := ne_of_isNameStart hstart (by decide)
  have hblock := withColon?_of_none (Text.dropReturns type) hname blockName
    (by simp [h, htext, blockName, hampersand])
  have hsplat := withColon?_of_none (Text.dropReturns type) hname splatName
    (by simp [h, htext, splatName, hstar])
  have hparameter := withColon?_of_some (Text.dropReturns type) hname parameterName
    (h ▸ parameterName_plain _ n)
  have hgrammar : grammarOf name = Grammar.type := if_neg (by simp [h, htext, hampersand])
  refine ⟨_, ?_, tells_namedNote hc haccepted Entry.contentOfName ?_⟩
  · rw [Entry.readNamed?, text_markedEntry hc, hvariable, hblock, hsplat, hparameter, hgrammar]
    rfl
  · intro named hnamed
    have hhead : named.name.head? ≠ some '&' := by simp [hnamed, h, htext, hampersand]
    simp only [contentWith, Entry.contentOfName, if_neg hhead, beq_iff_eq]

/-- The entry of a note is read as a note about its name, without an error if its type is accepted
by itself. -/
theorem exists_tells_of_markedEntry (hname : IsNoteName name) :
    ∃ note, (markedEntry c).read? = some note ∧ note.Tells name := by
  have hread : (markedEntry c).read? = (markedEntry c).readMarked? := rfl
  obtain ⟨note, hnote, htells⟩ :
      ∃ note, (markedEntry c).readNamed? = some note ∧ note.Tells name := by
    cases hname with
    | plain n => exact exists_tells_of_plain hc haccepted n rfl
    | splat n => exact exists_tells_of_splat hc haccepted (.inl rfl) n (.splat n) rfl
    | doubleSplat n => exact exists_tells_of_splat hc haccepted (.inr rfl) n (.doubleSplat n) rfl
    | block n => exact exists_tells_of_block hc haccepted n rfl
  refine ⟨note, ?_, htells⟩
  rw [hread, Entry.readMarked?, hnote]
  rfl

end Reading

/-! ### Shapes -/

namespace Shape

variable {name type : List Char}

/-- `isInvalidNote` is false for the comment of a note. -/
theorem isInvalidNote_noteText : isInvalidNote (noteText name type) = false := by
  have hat : isSpace '@' = false := by decide
  rw [noteText_eq]
  simp [isInvalidNote, isBareSignature, isDetachedAssertion, isMarkedAssertion, isUnmarked,
    Text.after?, afterSpace?, Text.trimLeft, hat, startsMethodSignature]

/-- `embeddedIndent?` finds no embedded declarations in a note about a method. -/
theorem embeddedIndent?_noteText : embeddedIndent? (noteText name type) = none := by
  have hat : isSpace '@' = false := by decide
  rw [noteText_eq]
  simp [embeddedIndent?, Text.after?, afterSpace?, Text.trimLeft, hat]

variable (h : IsNoteName name)

include h

theorem afterMarker?_noteText :
    afterMarker? (noteText name type) = some (name ++ ':' :: ' ' :: type) := by
  have hat : isSpace '@' = false := by decide
  obtain ⟨c, more, rfl, hspace, -⟩ := h.exists_cons
  rw [noteText_eq]
  simp [afterMarker?, Text.after?, afterSpace?, Text.trimLeft, hat, hspace]

/-- `isVariableComment` is false for a note about a method. -/
theorem isVariableComment_noteText : isVariableComment (noteText name type) = false := by
  have hself : Text.after? "self.".toList (name ++ ':' :: ' ' :: type) = none := by
    cases hafter : Text.after? "self.".toList (name ++ ':' :: ' ' :: type) with
    | none => rfl
    | some rest => exact absurd (after?_eq_some_iff.1 hafter) (h.ne_self _ rest)
  simp only [isVariableComment, afterMarker?_noteText h, hself, Option.getD_none]
  obtain ⟨c, more, rfl, -, hat⟩ := h.exists_cons
  simp [hat]

/-- `markedWord?` finds the name with its colon behind the marker. -/
theorem markedWord?_noteText (type : List Char) :
    ∃ stop, markedWord? (noteText name type) = some (name ++ [':'], stop) := by
  have hname : ∀ c ∈ name, (!isSpace c) = true := fun c hc => by simp [(h.ne_of_mem hc).1]
  have hcolon : isSpace ':' = false := by decide
  have hword : (name ++ ':' :: ' ' :: type).takeWhile (fun c => !isSpace c) = name ++ [':'] := by
    rw [List.takeWhile_append_of_pos hname]
    simp [hcolon]
  rw [markedWord?, afterMarker?_noteText h]
  simp only [Option.bind_eq_bind, Option.bind_some, hword]
  rw [if_neg (by simp)]
  exact ⟨_, rfl⟩

theorem isNameWithColon_name : isNameWithColon (name ++ [':']) = true := by
  have hname : ∀ c ∈ name, (!isSpace c && c != ':') = true := by
    intro c hc
    obtain ⟨hspace, hcolon, -⟩ := h.ne_of_mem hc
    simp [hspace, hcolon]
  have hdrop : (name ++ [':']).dropWhile (fun c => !isSpace c && c != ':') = [':'] :=
    (cut_run hname (by simp)).2
  have hhead : (name ++ [':']).head?.any (fun c => !isSpace c && c != ':') = true := by
    obtain ⟨c, more, hcons⟩ := List.exists_cons_of_ne_nil h.ne_nil
    have hc := hname c (hcons ▸ List.mem_cons_self)
    simpa [hcons] using hc
  rw [isNameWithColon]
  simp only [hhead, hdrop, Bool.and_self]

omit h in
/-- What stands before the first colon. -/
theorem eq_of_append_colon {a b s t : List Char} (ha : ':' ∉ a) (hb : ':' ∉ b)
    (heq : a ++ ':' :: s = b ++ ':' :: t) : a = b := by
  have hbefore : ∀ {u v : List Char}, ':' ∉ u → (u ++ ':' :: v).takeWhile (· != ':') = u := by
    intro u v hu
    refine (cut_run (fun c hc => bne_iff_ne.2 ?_) (by simp)).1
    rintro rfl
    exact hu hc
  rw [← hbefore (v := s) ha, heq, hbefore hb]

/-- `keywordWithColon?` finds the name of a note, with its type behind the colon. -/
theorem keywordWithColon?_noteText {keyword : List Char} {stop : Nat}
    (hkeyword : keywordWithColon? (noteText name type) = some (keyword, stop)) :
    keyword = name ∧ name ∈ keywords ∧ (noteText name type).drop stop = ' ' :: type := by
  rw [keywordWithColon?, afterMarker?_noteText h] at hkeyword
  obtain ⟨keyword', hmem, hafter⟩ := List.exists_of_findSome?_eq_some hkeyword
  split at hafter
  · rename_i rest hrest
    obtain ⟨rfl, rfl⟩ := Prod.mk.inj (Option.some.inj hafter)
    have heq : name = keyword' := by
      have hcolons : ∀ k ∈ keywords, ':' ∉ k := by decide
      have hname : ':' ∉ name := fun hmem => (h.ne_of_mem hmem).2.1 rfl
      exact eq_of_append_colon hname (hcolons keyword' hmem) (after?_eq_some_iff.1 hrest)
    subst heq
    refine ⟨rfl, hmem, ?_⟩
    have hlength : (noteText name type).length =
        7 + (name ++ ':' :: ' ' :: type).length := by
      rw [noteText_eq]
      simp only [List.length_cons]
      omega
    have htext : noteText name type =
        ('#' :: ' ' :: '@' :: 'r' :: 'b' :: 's' :: ' ' :: (name ++ [':'])) ++ ' ' :: type := by
      rw [noteText_eq]
      simp
    rw [hlength, Nat.add_sub_cancel, htext]
    refine List.drop_left' ?_
    simp only [List.length_cons, List.length_append, List.length_nil]
    omega
  · cases hafter

end Shape

end TypeNotes
