import TypeNotes.Note.Basic
import TypeNotes.Proofs.Ruby.Declaration

/-!
# Names in the text of an entry

A heading is a piece of the text it is found in: its name stands behind as many characters as it
says, on one line (`Heading.Fits`). So a note with a name tells the place of that name in the file
(`Entry.Names`), whatever form the note has (`Entry.names_of_read?`).
-/

namespace TypeNotes

open Ruby Unicode Utf8

/-! ### Parts of names -/

/-- A part of a name is cut off the front of a text, and has no line end in it. -/
def NamePart.Cuts (part : NamePart) : Prop :=
  ∀ s name rest, part s = some (name, rest) → s = name ++ rest ∧ '\n' ∉ name

/-- `word` cuts off words on one line. -/
theorem cuts_word {start : Char → Bool} (hstart : start '\n' = false) : (word start).Cuts := by
  intro s name rest h
  cases s with
  | nil => cases h
  | cons c s =>
    rw [word] at h
    split at h
    · rename_i hc
      obtain ⟨rfl, rfl⟩ := Prod.mk.inj (Option.some.inj h)
      refine ⟨?_, ?_⟩
      · rw [List.cons_append, List.takeWhile_append_dropWhile]
      · have hne : '\n' ≠ c := by
          rintro rfl
          rw [hstart] at hc
          cases hc
        rw [List.mem_cons, not_or]
        exact ⟨hne, not_mem_takeWhile (by decide) s⟩
    · cases h

/-- A run of one character, as far as it is taken. -/
theorem append_drop_take_takeWhile {c : Char} (hc : c ≠ '\n') (count : Nat) (s : List Char) :
    let run := (s.takeWhile (· == c)).take count
    run ++ s.drop run.length = s ∧ '\n' ∉ run := by
  have hprefix := (List.take_prefix count (s.takeWhile (· == c))).trans (List.takeWhile_prefix _)
  refine ⟨List.prefix_iff_eq_append.1 hprefix, ?_⟩
  intro hmem
  have hfalse : ('\n' == c) = false := by simpa using hc.symm
  exact not_mem_takeWhile (p := (· == c)) hfalse s (List.mem_of_mem_take hmem)

/-- `variableName` cuts off names on one line. -/
theorem cuts_variableName : variableName.Cuts := by
  intro s name rest h
  obtain ⟨self, hself, hline, hname⟩ : ∃ self, self ++ s.drop self.length = s ∧ '\n' ∉ self ∧
      (if Text.startsWith s "self." then s.take 5 else []) = self := by
    split
    · rename_i hstart
      obtain ⟨more, rfl⟩ := List.isPrefixOf_iff_prefix.1 hstart
      exact ⟨"self.".toList, rfl, by decide, rfl⟩
    · exact ⟨[], rfl, by simp, rfl⟩
  obtain ⟨hmarks, hmarksLine⟩ := append_drop_take_takeWhile (by decide : '@' ≠ '\n') 2
    (s.drop self.length)
  rw [variableName] at h
  simp only [hname] at h
  generalize ((s.drop self.length).takeWhile (· == '@')).take 2 = marks at h hmarks hmarksLine
  split at h
  · cases h
  · obtain ⟨⟨tail, rest'⟩, hword, heq⟩ := Option.map_eq_some_iff.1 h
    obtain ⟨rfl, rfl⟩ := Prod.mk.inj heq
    obtain ⟨hdrop, htail⟩ := cuts_word (by decide) _ _ _ hword
    refine ⟨?_, ?_⟩
    · rw [List.append_assoc, List.append_assoc, ← hdrop, ← List.drop_drop, hmarks, hself]
    · simp only [List.mem_append, not_or]
      exact ⟨⟨hline, hmarksLine⟩, htail⟩

/-- `blockName` cuts off names on one line. -/
theorem cuts_blockName : blockName.Cuts := by
  intro s name rest h
  unfold blockName at h
  split at h
  · obtain ⟨rfl, rfl⟩ := Prod.mk.inj (Option.some.inj h)
    refine ⟨?_, ?_⟩
    · rw [List.cons_append, List.takeWhile_append_dropWhile]
    · rw [List.mem_cons, not_or]
      exact ⟨by decide, not_mem_takeWhile (by decide) _⟩
  · cases h

/-- `splatName` cuts off names on one line. -/
theorem cuts_splatName : splatName.Cuts := by
  intro s name rest h
  obtain ⟨hstars, hline⟩ := append_drop_take_takeWhile (by decide : '*' ≠ '\n') 2 s
  rw [splatName] at h
  generalize (s.takeWhile (· == '*')).take 2 = stars at h hstars hline
  simp only at h
  split at h
  · cases h
  · obtain ⟨rfl, rfl⟩ := Prod.mk.inj (Option.some.inj h)
    cases hword : word isNameStart (s.drop stars.length) with
    | none =>
      simp only [Option.getD_none, List.append_nil]
      exact ⟨hstars.symm, hline⟩
    | some parts =>
      obtain ⟨hdrop, htail⟩ := cuts_word (by decide) _ _ _ hword
      simp only [Option.getD_some]
      refine ⟨?_, ?_⟩
      · rw [List.append_assoc, ← hdrop, hstars]
      · rw [List.mem_append, not_or]
        exact ⟨hline, htail⟩

/-- `parameterName` cuts off names on one line. -/
theorem cuts_parameterName : parameterName.Cuts := by
  intro s name rest h
  obtain ⟨⟨base, tail⟩, hword, heq⟩ := Option.map_eq_some_iff.1 h
  obtain ⟨rfl, rfl⟩ := Prod.mk.inj heq
  obtain ⟨rfl, hbase⟩ := cuts_word (by decide) _ _ _ hword
  have hending := Lexer.append_drop_filter_take (fun c => c == '?' || c == '!') tail
  refine ⟨?_, ?_⟩
  · rw [List.append_assoc, hending]
  · rw [List.mem_append, not_or]
    exact ⟨hbase, not_mem_of_filter (by decide) _⟩

/-! ### Headings -/

/-- The name of a heading stands in the text, behind as many characters as the heading says. -/
def Heading.Fits (h : Heading) (s : List Char) : Prop :=
  ∃ before rest, s = before ++ (h.name ++ rest) ∧ before.length = h.start ∧ '\n' ∉ h.name

/-- What is cut off behind the white space at the front of a text stands in the text. -/
theorem Heading.fits_of_cuts {part : NamePart} (hpart : part.Cuts) {s : List Char} {h : Heading}
    {rest : List Char} (hcut : part (Text.trimLeft s) = some (h.name, rest))
    (hstart : h.start = indentation s) : h.Fits s := by
  obtain ⟨htrim, hline⟩ := hpart _ _ _ hcut
  refine ⟨s.takeWhile isSpace, rest, ?_, hstart.symm, hline⟩
  rw [← htrim, Text.trimLeft, List.takeWhile_append_dropWhile]

/-- The name of a heading that `Heading.withColon?` finds stands in the text. -/
theorem Heading.fits_of_withColon? {part : NamePart} (hpart : part.Cuts) {s : List Char}
    {h : Heading} (hhead : Heading.withColon? part s = some h) : h.Fits s := by
  rw [Heading.withColon?] at hhead
  simp only at hhead
  split at hhead
  · cases hhead
  · rename_i name rest hcut
    split at hhead
    · cases hhead
    · obtain rfl := Option.some.inj hhead
      exact Heading.fits_of_cuts hpart hcut rfl
    · cases hhead

/-- The name of a heading that `Heading.bare?` finds stands in the text. -/
theorem Heading.fits_of_bare? {s : List Char} {h : Heading} (hhead : Heading.bare? s = some h) :
    h.Fits s := by
  unfold Heading.bare? at hhead
  simp only at hhead
  split at hhead
  · cases hhead
  · split at hhead
    · rename_i name rest hcut
      split at hhead
      · obtain rfl := Option.some.inj hhead
        exact Heading.fits_of_cuts cuts_parameterName hcut rfl
      · cases hhead
    · cases hhead

/-! ### Names in notes -/

/-- The name stands in the text of the entry, on one line, and is told by its place in the file. -/
def Entry.Names (e : Entry) (named : NamedType) : Prop :=
  ∃ before rest, e.text = before ++ (named.name ++ rest) ∧ '\n' ∉ named.name ∧
    named.offset = e.fileOffset (size before)

variable {e : Entry} {n : Note} {named : NamedType}

/-- A name that stands in the text of an entry (`Heading.Fits`) is named by it (`Entry.Names`). -/
theorem Entry.names_of_fits {h : Heading} (hfits : h.Fits e.text) (type : Option String) :
    e.Names ⟨h.name, e.fileOffsetOfCharacter h.start, type⟩ := by
  obtain ⟨before, rest, htext, hlength, hline⟩ := hfits
  refine ⟨before, rest, htext, hline, ?_⟩
  rw [Entry.fileOffsetOfCharacter, htext, ← hlength, List.take_left]

/-- A note made from a name is about it. -/
theorem named?_contentOfName (e : Entry) (signature : List Char) (error : Option Signature.Error)
    (named : NamedType) :
    (e.note signature error (Entry.contentOfName named)).named? = some named := by
  unfold Entry.contentOfName
  split
  · rfl
  · rfl

/-- What `Entry.readNamed?` gives names something in the entry. -/
theorem Entry.names_of_readNamed? (h : e.readNamed? = some n) (hn : n.named? = some named) :
    e.Names named := by
  simp only [Entry.readNamed?, Option.orElse_eq_orElse, Option.orElse_eq_or, Option.or_eq_some_iff,
    Option.map_eq_some_iff] at h
  rcases h with ⟨head, hhead, rfl⟩ | ⟨-, ⟨head, hhead, rfl⟩ | ⟨-, ⟨head, hhead, rfl⟩ |
    ⟨-, head, hhead, rfl⟩⟩⟩
  · obtain rfl := Option.some.inj hn
    exact Entry.names_of_fits (Heading.fits_of_withColon? cuts_variableName hhead) _
  · obtain rfl := Option.some.inj hn
    exact Entry.names_of_fits (Heading.fits_of_withColon? cuts_blockName hhead) _
  · obtain rfl := Option.some.inj hn
    exact Entry.names_of_fits (Heading.fits_of_withColon? cuts_splatName hhead) _
  · rw [Entry.namedNote, named?_contentOfName] at hn
    obtain rfl := Option.some.inj hn
    exact Entry.names_of_fits (Heading.fits_of_withColon? cuts_parameterName hhead) _

/-- What `Entry.readLone?` gives names nothing. -/
theorem Entry.named?_of_readLone? (h : e.readLone? = some n) : n.named? = none := by
  unfold Entry.readLone? at h
  split at h
  · obtain rfl := Option.some.inj h
    rfl
  split at h
  · obtain rfl := Option.some.inj h
    rfl
  · cases h

/-- What `Entry.readKeyword?` gives names nothing. -/
theorem Entry.named?_of_readKeyword? (h : e.readKeyword? = some n) : n.named? = none := by
  unfold Entry.readKeyword? at h
  simp only at h
  split at h
  all_goals first
    | (obtain rfl := Option.some.inj h; rfl)
    | cases h

/-- What `Entry.readMethodType?` gives names nothing. -/
theorem Entry.named?_of_readMethodType? (h : e.readMethodType? = some n) : n.named? = none := by
  unfold Entry.readMethodType? at h
  split at h
  · obtain rfl := Option.some.inj h
    split
    all_goals rfl
  · cases h

/-- What `Entry.readAssertion` gives names nothing. -/
theorem Entry.named?_readAssertion (e : Entry) : e.readAssertion.named? = none := by
  unfold Entry.readAssertion
  simp only
  split
  · rfl
  · split
    · rfl
    · rfl

/-- Whatever the form of an entry, a name in what `Entry.read?` gives is one in its text. -/
theorem Entry.names_of_read? (h : e.read? = some n) (hn : n.named? = some named) :
    e.Names named := by
  have hnone : n.named? = none → e.Names named := by
    intro hnone
    rw [hnone] at hn
    cases hn
  unfold Entry.read? at h
  split at h
  · simp only [Entry.readMarked?, Option.orElse_eq_orElse, Option.orElse_eq_or,
      Option.or_eq_some_iff] at h
    rcases h with h | ⟨-, h | ⟨-, h | ⟨-, h | ⟨-, h⟩⟩⟩⟩
    · exact Entry.names_of_readNamed? h hn
    · exact hnone (Entry.named?_of_readLone? h)
    · exact hnone (Entry.named?_of_readKeyword? h)
    · exact hnone (Entry.named?_of_readMethodType? h)
    · obtain ⟨head, hhead, rfl⟩ := Option.map_eq_some_iff.1 h
      rw [named?_contentOfName] at hn
      obtain rfl := Option.some.inj hn
      exact Entry.names_of_fits (Heading.fits_of_bare? hhead) _
  · obtain rfl := Option.some.inj h
    cases hn
  · obtain rfl := Option.some.inj h
    exact hnone e.named?_readAssertion
  · obtain rfl := Option.some.inj h
    cases hn

end TypeNotes
