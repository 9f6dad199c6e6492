import TypeNotes.Proofs.Note.Marker
import TypeNotes.Proofs.Note.Remark
import TypeNotes.Proofs.Rule.NamePlace

/-!
# Names without a colon

A note whose name has no colon behind it has no type, and no error either. The rule about separators
reports the end of its name. It finds the name by the shape of a comment and not by the note, so it
reports the notes that start in this shape, with white space in front of the marker and the name on
the same line (`Note.StartsInLine`), and no others (`mem_parametersSeparator_iff`).

**The same word.** A name has no white space in it, so it is the word behind the marker, and it is
none of the words that may stand there without a colon: keywords are read as such before a name is
(`Heading.Bare.mayFollowMarker_eq_false`).
-/

namespace TypeNotes

open Ruby Unicode Utf8

/-! ### Characters of names -/

/-- The characters of a parameter's name. -/
def isNamePart (c : Char) : Bool := isWord c || c == '?' || c == '!'

theorem isSpace_of_isNamePart {c : Char} (h : isNamePart c) : isSpace c = false := by
  rw [Bool.eq_false_iff]
  intro hspace
  simp only [isNamePart, isWord_of_isSpace hspace, Bool.false_or, Bool.or_eq_true, beq_iff_eq] at h
  rcases h with rfl | rfl <;> revert hspace <;> decide

theorem isWord_of_isParameterStart {c : Char} (h : isParameterStart c) : isWord c := by
  simp only [isParameterStart, Bool.or_eq_true] at h
  rcases h with h | h
  · have halpha : c.isAlpha = true := Bool.or_eq_true_iff.2 (.inr h)
    simp [isWord, isAlphanumeric, Char.isAlphanum, halpha]
  · simp [isWord, h]

theorem isNamePart_of_parameterName {s name rest : List Char}
    (h : parameterName s = some (name, rest)) :
    name.head?.any isParameterStart ∧ ∀ c ∈ name, isNamePart c := by
  obtain ⟨⟨base, tail⟩, hword, heq⟩ := Option.map_eq_some_iff.1 h
  obtain ⟨rfl, rfl⟩ := Prod.mk.inj heq
  cases s with
  | nil => cases hword
  | cons c s =>
    obtain ⟨hc, hparts⟩ := Option.ite_none_right_eq_some.1 hword
    obtain ⟨rfl, rfl⟩ := Prod.mk.inj (Option.some.inj hparts)
    refine ⟨hc, fun d hd => ?_⟩
    rcases List.mem_append.1 hd with hd | hd
    · have hd : isWord d := by
        rcases List.mem_cons.1 hd with rfl | hd
        · exact isWord_of_isParameterStart hc
        · exact List.mem_takeWhile_imp hd
      simp [isNamePart, hd]
    · have hd := (List.mem_filter.1 hd).2
      simp only [Bool.or_eq_true] at hd
      rcases hd with hd | hd <;> simp [isNamePart, hd]

/-! ### Names that stand alone -/

/-- A name that stands alone is the first word of the text, and is not one of the words with a
meaning of their own. -/
structure Heading.Bare (h : Heading) (s rest : List Char) : Prop where
  text : Text.trimLeft s = h.name ++ rest
  start : h.start = indentation s
  gap : ∀ c ∈ rest.head?, isSpace c
  head : h.name.head?.any isParameterStart
  parts : ∀ c ∈ h.name, isNamePart c
  other : ∀ w ∈ ["yields", "override", "skip"], (h.name ++ rest).takeWhile isWord ≠ w.toList

theorem Heading.exists_bare {s : List Char} {h : Heading} (hbare : Heading.bare? s = some h) :
    ∃ rest, h.Bare s rest := by
  unfold Heading.bare? at hbare
  simp only at hbare
  split at hbare
  · cases hbare
  · rename_i hother
    split at hbare
    · rename_i name rest hname
      obtain ⟨hgap, hh⟩ := Option.ite_none_right_eq_some.1 hbare
      obtain rfl := Option.some.inj hh
      obtain ⟨hhead, hparts⟩ := isNamePart_of_parameterName hname
      have htext := (cuts_parameterName _ _ _ hname).1
      have hgap : ∀ c ∈ rest.head?, isSpace c := by simpa [atGap, Option.all_eq_true] using hgap
      refine ⟨rest, htext, rfl, hgap, hhead, hparts, fun w hw heq => hother ?_⟩
      rw [htext]
      exact List.any_eq_true.2 ⟨w, hw, beq_iff_eq.2 heq⟩
    · cases hbare

/-- In what `Entry.namedNote` gives, there is a type or an error. -/
theorem Entry.error_of_namedNote {e : Entry} {h : Heading} {script : Signature.Script String}
    {content : NamedType → Content} {named : NamedType}
    (hcontent : (e.namedNote h script content).named? =
      some ⟨h.name, e.fileOffsetOfCharacter h.start,
        answer? (readSignature script true (e.blankedTo h.stop))⟩)
    (hname : (e.namedNote h script content).named? = some named) (htype : named.type = none) :
    (e.namedNote h script content).error ≠ none := by
  obtain rfl := Option.some.inj (hcontent.symm.trans hname)
  simp only [Entry.namedNote, Entry.note]
  cases hread : readSignature script true (e.blankedTo h.stop) with
  | ok type =>
    rw [hread] at htype
    cases htype
  | error err => simp [error?]

/-- A note with a name that has neither a type nor an error is a name that stands alone
(`Heading.Bare`). -/
theorem Entry.exists_bare {e : Entry} {n : Note} (hread : e.read? = some n) {named : NamedType}
    (hname : n.named? = some named) (htype : named.type = none) (herror : n.error = none) :
    e.kind = .marked ∧ e.readKeyword? = none ∧
      ∃ (h : Heading) (rest : List Char), h.Bare e.text rest ∧
        named = ⟨h.name, e.fileOffsetOfCharacter h.start, none⟩ := by
  have hnone : n.named? ≠ none := by simp [hname]
  unfold Entry.read? at hread
  split at hread
  · rename_i hkind
    simp only [Entry.readMarked?, Option.orElse_eq_orElse, Option.orElse_eq_or,
      Option.or_eq_some_iff] at hread
    rcases hread with h | ⟨-, h | ⟨-, h | ⟨hkeyword, h | ⟨-, h⟩⟩⟩⟩
    · simp only [Entry.readNamed?, Option.orElse_eq_orElse, Option.orElse_eq_or,
        Option.or_eq_some_iff, Option.map_eq_some_iff] at h
      rcases h with ⟨head, -, rfl⟩ | ⟨-, ⟨head, -, rfl⟩ | ⟨-, ⟨head, -, rfl⟩ | ⟨-, head, -, rfl⟩⟩⟩
      · exact absurd herror (Entry.error_of_namedNote rfl hname htype)
      · exact absurd herror (Entry.error_of_namedNote rfl hname htype)
      · exact absurd herror (Entry.error_of_namedNote rfl hname htype)
      · exact absurd herror (Entry.error_of_namedNote (named?_contentOfName ..) hname htype)
    · exact absurd (Entry.named?_of_readLone? h) hnone
    · exact absurd (Entry.named?_of_readKeyword? h) hnone
    · exact absurd (Entry.named?_of_readMethodType? h) hnone
    · obtain ⟨head, hbare, rfl⟩ := Option.map_eq_some_iff.1 h
      rw [named?_contentOfName] at hname
      obtain ⟨rest, hrest⟩ := Heading.exists_bare hbare
      exact ⟨hkind, hkeyword, head, rest, hrest, (Option.some.inj hname).symm⟩
  · obtain rfl := Option.some.inj hread
    exact absurd rfl hnone
  · obtain rfl := Option.some.inj hread
    exact absurd e.named?_readAssertion hnone
  · obtain rfl := Option.some.inj hread
    exact absurd rfl hnone

/-! ### Words that need a colon -/

theorem Shape.mem_of_startsTag {opener closer : Char} {s : List Char}
    (h : anywhere (startsTag opener closer) s) : '%' ∈ s := by
  induction s with
  | nil => simp [anywhere, startsTag, Text.after?] at h
  | cons c s ih =>
    rw [anywhere, Bool.or_eq_true] at h
    rcases h with h | h
    · unfold startsTag at h
      split at h
      · cases h
      · rename_i rest hrest
        rw [after?_eq_some_iff.1 hrest]
        exact List.mem_cons_self
    · exact List.mem_cons_of_mem c (ih h)

namespace Heading.Bare

variable {h : Heading} {s rest : List Char} (hbare : h.Bare s rest)

include hbare

theorem ne_nil : h.name ≠ [] := by
  intro hnil
  have hhead := hbare.head
  rw [hnil] at hhead
  cases hhead

/-- The name is the first word of the text. -/
theorem takeWhile_eq : (h.name ++ rest).takeWhile (fun c => !isSpace c) = h.name := by
  refine (cut_run (fun c hc => ?_) fun c hc => ?_).1
  · rw [isSpace_of_isNamePart (hbare.parts c hc), Bool.not_false]
  · rw [hbare.gap c hc, Bool.not_true]

/-- Keywords with an argument are read as such, and those that stand alone are no names. -/
theorem not_mem_keywords {e : Entry} (htext : e.text = s) (hkeyword : e.readKeyword? = none) :
    h.name ∉ Shape.keywords := by
  have hfirst : (Heading.firstWord e.text).name = h.name := by
    rw [Heading.firstWord, htext, hbare.text]
    exact hbare.takeWhile_eq
  have hlone : ∀ w ∈ ["yields", "override", "skip"], w.toList.all isWord → h.name ≠ w.toList := by
    intro w hw hword hname
    refine hbare.other w hw ?_
    rw [hname]
    exact (cut_run (List.all_eq_true.1 hword) fun c hc => isWord_of_isSpace (hbare.gap c hc)).1
  simp only [Entry.readKeyword?, hfirst] at hkeyword
  intro hmem
  simp only [Shape.keywords, List.map_cons, List.map_nil, List.mem_cons, List.not_mem_nil,
    or_false] at hmem
  rcases hmem with hk | hk | hk | hk | hk | hk | hk | hk
  · simp [hk] at hkeyword
  · exact hlone "override" (by simp) (by decide) hk
  · simp [hk] at hkeyword
  · simp [hk] at hkeyword
  · simp [hk] at hkeyword
  · exact hlone "skip" (by simp) (by decide) hk
  · simp [hk] at hkeyword
  · simp [hk] at hkeyword

/-- `mayFollowMarker` does not hold of the name: it may not stand behind the marker without a colon.
-/
theorem mayFollowMarker_eq_false {e : Entry} (htext : e.text = s)
    (hkeyword : e.readKeyword? = none) : mayFollowMarker h.name = false := by
  have hkeywords := hbare.not_mem_keywords htext hkeyword
  have hnot : ∀ c ∈ h.name, c ≠ '%' ∧ c ≠ ':' := by
    intro c hc
    have hpart := hbare.parts c hc
    constructor <;> rintro rfl <;> revert hpart <;> decide
  have htag : ∀ opener closer, Shape.anywhere (Shape.startsTag opener closer) h.name = false := by
    intro opener closer
    rw [Bool.eq_false_iff]
    exact fun htag => (hnot _ (Shape.mem_of_startsTag htag)).1 rfl
  have hcolon : Shape.isNameWithColon h.name = false := by
    have hdrop : h.name.dropWhile (fun c => !isSpace c && c != ':') = [] := by
      refine List.dropWhile_eq_nil_iff.2 fun c hc => ?_
      simp [isSpace_of_isNamePart (hbare.parts c hc), (hnot c hc).2]
    simp [Shape.isNameWithColon, hdrop]
  have hopens : Shape.opensMethodType h.name = false := by
    obtain ⟨c, more, hname⟩ := List.exists_cons_of_ne_nil hbare.ne_nil
    have hhead := hbare.head
    rw [hname] at hhead
    have hne {d : Char} (hd : isParameterStart d = false) : d ≠ c := by
      rintro rfl
      rw [List.head?_cons, Option.any_some, hd] at hhead
      cases hhead
    have hstart : ∀ opener ∈ ["(", "[", "\x7b", "?", "^", "->"],
        ∃ d more, opener.toList = d :: more ∧ isParameterStart d = false := by
      intro opener hopener
      simp only [List.mem_cons, List.not_mem_nil, or_false] at hopener
      rcases hopener with rfl | rfl | rfl | rfl | rfl | rfl <;> exact ⟨_, _, rfl, by decide⟩
    refine List.any_eq_false.2 fun opener hopener => ?_
    obtain ⟨d, rest, hd, hnot⟩ := hstart opener hopener
    simp [Text.startsWith, hname, hd, List.isPrefixOf, hne hnot]
  simp [mayFollowMarker, Shape.isKeyword, hkeywords, htag, hcolon, hopens]

end Heading.Bare

/-! ### The word behind the marker -/

theorem separatorOffense?_of_afterMarker? {c : Comment} (h : Shape.afterMarker? c.text = none) :
    separatorOffense? c = none := by
  simp [separatorOffense?, Shape.markedWord?, h]

/-- Behind a marker with nothing behind it, `separatorOffense?` has no word to report. -/
theorem separatorOffense?_of_blank {m : Marker} {c : Comment} {gap rest : List Char}
    (hspells : m.Spells c.body gap rest) (hbang : m.bang = false) (htext : c.text = '#' :: c.body)
    (hblank : Text.trimLeft rest = []) : separatorOffense? c = none := by
  cases hafter : Shape.afterMarker? c.text with
  | none => exact separatorOffense?_of_afterMarker? hafter
  | some t =>
    obtain ⟨-, hspaced⟩ := (Shape.afterMarker?_eq_some_iff_of_spells hspells hbang htext).1 hafter
    obtain ⟨space, rfl, -, hspace, hhead⟩ := Shape.afterSpace?_eq_some_iff.1 hspaced
    obtain rfl : t = [] := by rwa [Text.trimLeft, (cut_run hspace hhead).2] at hblank
    simp [separatorOffense?, Shape.markedWord?, hafter]

/-- `separatorOffense?` reports nothing in a comment that a marker owns, as it has no marker itself.
-/
theorem separatorOffense?_of_owns {m : Marker} {c : Comment} (h : m.owns c) :
    separatorOffense? c = none := by
  refine separatorOffense?_of_afterMarker? (Option.eq_none_iff_forall_ne_some.2 fun t ht => ?_)
  obtain ⟨body, gap, rest, htext, -, hspells, -⟩ := Shape.afterMarker?_eq_some_iff.1 ht
  have hbody := Comment.body_eq htext
  rw [Marker.owns_eq_false (hbody ▸ hspells.ofBody?)] at h
  cases h

/-- A name in the text behind the marker stands on the line of the marker, unless this line is
blank from there on. -/
theorem Heading.Bare.exists_line {h : Heading} {rest more tail : List Char}
    (hbare : h.Bare (rest ++ more) tail) (hmore : ∀ d ∈ more.head?, d = '\n')
    (hline : Text.trimLeft rest ≠ []) :
    ∃ space tail', rest = space ++ (h.name ++ tail') ∧ (∀ c ∈ space, isSpace c) ∧
      (∀ c ∈ tail'.head?, isSpace c) ∧ h.start = space.length := by
  obtain ⟨htrim, hindent⟩ := trimLeft_append hline more
  have hname : ∃ tail', Text.trimLeft rest = h.name ++ tail' ∧ tail = tail' ++ more := by
    rcases List.append_eq_append_iff.1 (htrim.symm.trans hbare.text) with
      ⟨a, ha, hmore'⟩ | ⟨a, ha, hmore'⟩
    · -- Names have no line ends in them.
      cases a with
      | nil =>
        rw [List.append_nil] at ha
        exact ⟨[], by rw [List.append_nil, ha], hmore'.symm⟩
      | cons d a =>
        have hd : d = '\n' := hmore d (by rw [hmore', List.cons_append, List.head?_cons]; rfl)
        have hpart := hbare.parts d (by rw [ha]; simp)
        rw [hd] at hpart
        exact absurd hpart (by decide)
    · exact ⟨a, ha, hmore'⟩
  obtain ⟨tail', htail, rfl⟩ := hname
  refine ⟨rest.takeWhile isSpace, tail', ?_, fun c => List.mem_takeWhile_imp, fun c hc => ?_, ?_⟩
  · rw [← htail, Text.trimLeft, List.takeWhile_append_dropWhile]
  · refine hbare.gap c ?_
    rw [List.head?_append, Option.mem_def.1 hc]
    rfl
  · rw [hbare.start, hindent, indentation]

/-- `separatorOffense?` reports the word behind the marker if white space stands in front of the
marker. -/
theorem separatorOffense?_of_word {m : Marker} {c : Comment} {gap space name tail : List Char}
    (hspells : m.Spells c.body gap (space ++ (name ++ tail))) (hbang : m.bang = false)
    (htext : c.text = '#' :: c.body) (hspace : ∀ d ∈ space, isSpace d) (hne : name ≠ [])
    (hname : ∀ d ∈ name, isSpace d = false) (htail : ∀ d ∈ tail.head?, isSpace d)
    (hcolon : mayFollowMarker name = false) :
    separatorOffense? c =
      if gap = [] then none
      else some ⟨⟨c.start + (c.text.length - tail.length), c.start + (c.text.length - tail.length)⟩,
        "Use `:` as a separator between parameter name and type."⟩ := by
  have hhead : ∀ d ∈ (name ++ tail).head?, isSpace d = false := by
    intro d hd
    obtain ⟨d', more, rfl⟩ := List.exists_cons_of_ne_nil hne
    obtain rfl : d' = d := Option.some.inj hd
    exact hname _ List.mem_cons_self
  split
  · rename_i hgap
    refine separatorOffense?_of_afterMarker? (Option.eq_none_iff_forall_ne_some.2 fun t ht => ?_)
    exact ((Shape.afterMarker?_eq_some_iff_of_spells hspells hbang htext).1 ht).1 hgap
  · rename_i hgap
    -- Behind the marker stands white space, or nothing at all.
    have hspaced : space ≠ [] := by
      rintro rfl
      have hatGap := hspells.atGap
      obtain ⟨d, more, rfl⟩ := List.exists_cons_of_ne_nil hne
      rw [List.nil_append, atGap, List.cons_append, List.head?_cons, Option.all_some,
        hname d List.mem_cons_self] at hatGap
      cases hatGap
    have hafter : Shape.afterMarker? c.text = some (name ++ tail) :=
      (Shape.afterMarker?_eq_some_iff_of_spells hspells hbang htext).2
        ⟨hgap, Shape.afterSpace?_eq_some_iff.2 ⟨space, rfl, hspaced, hspace, hhead⟩⟩
    have hword : (name ++ tail).takeWhile (fun d => !isSpace d) = name := by
      refine (cut_run (fun d hd => ?_) fun d hd => ?_).1
      · rw [hname d hd, Bool.not_false]
      · rw [htail d hd, Bool.not_true]
    have hlength : (name ++ tail).length ≤ c.text.length :=
      (Shape.suffix_of_afterMarker? hafter).length_le
    have hstop : c.text.length - (name ++ tail).length + name.length =
        c.text.length - tail.length := by
      rw [List.length_append] at hlength ⊢
      omega
    have hmarked : Shape.markedWord? c.text = some (name, c.text.length - tail.length) := by
      rw [Shape.markedWord?, hafter, Option.bind_eq_bind, Option.bind_some]
      simp only [hword, hstop, List.isEmpty_eq_false_iff.2 hne, Bool.false_eq_true, if_false]
    rw [separatorOffense?, hmarked]
    simp only [hcolon, Bool.false_eq_true, if_false]

/-! ### Where the name stands -/

/-- The name of the note stands on the line of its marker, with white space in front of the
marker. -/
def Note.StartsInLine (n : Note) (named : NamedType) : Prop :=
  n.first.body.head?.any isSpace ∧ named.offset < n.first.byteStop

section Place

variable {s : Source} {m : Marker} {c : Comment} {owned : List Comment} {gap rest tail : List Char}
  {h : Heading}

/-- The bytes and characters of the file up to the end of a name on the line of its marker. -/
theorem Heading.Bare.place_of_line (hc : c ∈ s.comments) (hspells : m.Spells c.body gap rest)
    (hbare : h.Bare (m.entry c owned).text tail) {space tail' : List Char}
    (hrest : rest = space ++ (h.name ++ tail')) (hstart : h.start = space.length) {more : List Char}
    (hmore : (m.entry c owned).text = rest ++ more) :
    (m.entry c owned).fileOffsetOfCharacter h.start < c.byteStop ∧
      s.characterOffset ((m.entry c owned).fileOffsetOfCharacter h.start + size h.name) =
        c.start + (c.text.length - tail'.length) := by
  obtain ⟨before, body, after, htext, hctext, -, hcstart, -, hbyteStart⟩ :=
    Source.in_of_mem_comments hc
  obtain ⟨-, -, -, -, -, hbyteStop, -⟩ := Source.exists_line_of_mem_comments hc
  have hbody := Comment.body_eq hctext
  -- In front of the name stand the hash sign, the marker and white space.
  set front := '#' :: (c.body.take m.length ++ space)
  have hcomment : '#' :: body = front ++ (h.name ++ tail') := by
    have hsplit := List.take_append_drop m.length c.body
    rw [hspells.split_length.2, hrest] at hsplit
    rw [← hbody, ← hsplit]
    simp [front]
  have hoffset : (m.entry c owned).fileOffsetOfCharacter h.start = size (before ++ front) := by
    have htake : (m.entry c owned).text.take h.start = space := by
      rw [hmore, hrest, hstart, List.append_assoc, List.take_left]
    have hfirst : (m.entry c owned).first.text = rest := hspells.split_length.2
    have hsize : size space ≤ size (m.entry c owned).first.text := by
      rw [hfirst, hrest, size_append]
      omega
    have hhash : '#'.utf8Size = 1 := rfl
    rw [Entry.fileOffsetOfCharacter, htake, Entry.fileOffset, Segment.fileOffset_of_le hsize]
    simp only [Marker.entry, Segment.ofBody, hbyteStart, front, size_append, size_cons, hhash]
    omega
  have hparts : s.text = before ++ front ++ h.name ++ (tail' ++ after) := by
    rw [htext, hcomment]
    simp
  have hpos : 0 < size h.name := by
    obtain ⟨d, name, hname⟩ := List.exists_cons_of_ne_nil hbare.ne_nil
    have hpos := Char.utf8Size_pos d
    rw [hname, size_cons]
    omega
  refine ⟨?_, ?_⟩
  · rw [hoffset, hbyteStop, hbyteStart, hctext, hcomment]
    simp only [size_append]
    omega
  · rw [hoffset, ← size_append, Source.characterOffset, hparts, characterOffset_size, hcstart,
      hctext, hcomment]
    simp only [List.length_append]
    omega

/-- Behind a line that is blank from the marker on, the name stands in a comment below. -/
theorem Heading.Bare.byteStop_lt_of_blank (he : (m.entry c owned).From s.comments)
    (hspells : m.Spells c.body gap rest) (hbare : h.Bare (m.entry c owned).text tail)
    (hblank : Text.trimLeft rest = []) :
    c.byteStop < (m.entry c owned).fileOffsetOfCharacter h.start := by
  set e := m.entry c owned
  set space := e.text.takeWhile isSpace
  have htext : e.text = space ++ (h.name ++ tail) := by
    rw [← hbare.text, Text.trimLeft, List.takeWhile_append_dropWhile]
  have htake : e.text.take h.start = space := by
    have hlength : h.start = space.length := hbare.start
    rw [hlength, htext, List.take_left]
  obtain ⟨pre, sg, post, u, v, hsegments, hsg, hbelow, hoffset⟩ :=
    Segment.exists_segment e.first e.more htext
  have hmem : sg ∈ e.segments := by
    rw [Entry.segments, hsegments]
    simp
  obtain rfl := Segment.eq_firstLine (he.not_mem_text hmem) hsg hbelow
  have hplace : e.fileOffsetOfCharacter h.start = sg.byteStart + size u := by
    have hzero := hoffset 0
    rw [Nat.add_zero, Nat.add_zero] at hzero
    rw [Entry.fileOffsetOfCharacter, htake, Entry.fileOffset, hzero, Segment.fileOffset_of_le]
    rw [hsg, size_append]
    omega
  cases pre with
  | nil =>
    -- The rest of the line would start with the name.
    obtain ⟨rfl, -⟩ := List.cons.inj hsegments
    have hrest : e.first.text = rest := hspells.split_length.2
    obtain ⟨d, name, hname⟩ := List.exists_cons_of_ne_nil hbare.ne_nil
    have hd : isSpace d = false :=
      isSpace_of_isNamePart (hbare.parts d (by rw [hname]; exact List.mem_cons_self))
    have hnewline : d ≠ '\n' := by
      rintro rfl
      cases hd
    have hin : d ∈ rest := by
      rw [← hrest, hsg, hname, List.cons_append, Text.firstLine_cons hnewline]
      simp
    have hspace : isSpace d = true := List.dropWhile_eq_nil_iff.1 hblank d hin
    rw [hd] at hspace
    cases hspace
  | cons seg pre =>
    obtain ⟨rfl, hmore⟩ := List.cons.inj hsegments
    have hbefore : c.Before sg.comment := by
      have hpairwise := he.pairwise_comments
      rw [Entry.comments, Entry.segments, List.map_cons, List.pairwise_cons] at hpairwise
      exact hpairwise.1 _ (List.mem_map_of_mem (by rw [hmore]; simp))
    have hbyteStop := hbefore.byteStop
    obtain ⟨skipped, hbody⟩ := he.ofBody sg hmem
    have hbyteStart := congrArg Segment.byteStart hbody
    simp only [Segment.ofBody] at hbyteStart
    omega

end Place

/-- Of the comments of a note with a marker, `parametersSeparator` can report only the first one. -/
theorem mem_parametersSeparator_startsIn_iff {s : Source} {m : Marker} {c : Comment}
    {owned : List Comment} (hfile : c :: owned ⊆ s.comments) (howned : ∀ d ∈ owned, m.owns d)
    {o : Offense} : (o ∈ parametersSeparator s ∧ o.StartsIn (c :: owned)) ↔
      separatorOffense? c = some o := by
  have hc : c ∈ s.comments := hfile List.mem_cons_self
  rw [parametersSeparator_eq, List.mem_filterMap]
  constructor
  · rintro ⟨⟨d, hd, ho⟩, d', hd', hplace⟩
    obtain rfl := eq_of_startsIn hd (hfile hd') (startsIn_of_separatorOffense? hd ho)
      ⟨d', List.mem_singleton_self d', hplace⟩
    rcases List.mem_cons.1 hd' with rfl | hmem
    · exact ho
    · rw [separatorOffense?_of_owns (howned d hmem)] at ho
      cases ho
  · intro ho
    refine ⟨⟨c, hc, ho⟩, (startsIn_of_separatorOffense? hc ho).mono ?_⟩
    simp

/-- The comment of the marker is reported if white space stands in front of the marker and the name
stands behind it. -/
theorem Heading.Bare.separatorOffense?_eq_some_iff {s : Source} {m : Marker} {c : Comment}
    {owned : List Comment} {gap rest tail : List Char} {h : Heading}
    (he : (m.entry c owned).From s.comments) (hc : c ∈ s.comments)
    (hspells : m.Spells c.body gap rest) (hbang : m.bang = false)
    (hbare : h.Bare (m.entry c owned).text tail) (hcolon : mayFollowMarker h.name = false)
    {offset : Nat} (hoffset : (m.entry c owned).fileOffsetOfCharacter h.start = offset)
    {o : Offense} : separatorOffense? c = some o ↔ (gap ≠ [] ∧ offset < c.byteStop) ∧
      o = ⟨⟨s.characterOffset (offset + size h.name), s.characterOffset (offset + size h.name)⟩,
        "Use `:` as a separator between parameter name and type."⟩ := by
  subst hoffset
  have htext := (Source.in_of_mem_comments hc).text_eq
  by_cases hblank : Text.trimLeft rest = []
  · have hlt := Heading.Bare.byteStop_lt_of_blank he hspells hbare hblank
    rw [separatorOffense?_of_blank hspells hbang htext hblank]
    refine iff_of_false (by simp) ?_
    rintro ⟨⟨-, hline⟩, -⟩
    exact Nat.lt_asymm hlt hline
  · obtain ⟨more, hmore, hnewline⟩ := hspells.exists_text owned
    have hbare' := hbare
    rw [hmore] at hbare'
    obtain ⟨space, tail', rfl, hspace, hgap, hstart⟩ := hbare'.exists_line hnewline hblank
    obtain ⟨hline, hplace⟩ := Heading.Bare.place_of_line hc hspells hbare rfl hstart hmore
    have hword := separatorOffense?_of_word hspells hbang htext hspace hbare.ne_nil
      (fun d hd => isSpace_of_isNamePart (hbare.parts d hd)) hgap hcolon
    rw [hword, hplace]
    by_cases hnil : gap = []
    · simp [hnil]
    · simp [hnil, hline, eq_comm]

/-- **Names without a colon.** Let the note of a parameter or a result have neither a type nor an
error, so that there is a name and no colon behind it. If the name stands on the line of the marker
and there is white space in front of the marker, then one offense about separators lies in the
comments of the note, and it marks the end of the name; otherwise there is none. -/
theorem mem_parametersSeparator_iff {s : Source} {n : Note} (hn : n ∈ s.notes) {named : NamedType}
    (hcontent : n.content = .parameter named ∨ n.content = .result named)
    (htype : named.type = none) (herror : n.error = none) (o : Offense) :
    (o ∈ parametersSeparator s ∧ o.StartsIn n.comments) ↔
      n.StartsInLine named ∧
        o = ⟨⟨s.characterOffset (named.offset + size named.name),
            s.characterOffset (named.offset + size named.name)⟩,
          "Use `:` as a separator between parameter name and type."⟩ := by
  have hname : n.named? = some named := by rcases hcontent with h | h <;> rw [Note.named?, h]
  obtain ⟨b, hb, hnb⟩ := List.mem_flatMap.1 hn
  obtain ⟨e, he, hread⟩ := List.mem_filterMap.1 hnb
  obtain ⟨hkind, hkeyword, h, tail, hbare, rfl⟩ := Entry.exists_bare hread hname htype herror
  obtain ⟨above, c, below, m, hparts, hm, rfl⟩ :=
    CommentBlock.exists_marker_of_mem_entries he (.inl hkind)
  obtain ⟨gap, rest, hspells⟩ := Marker.exists_spells hm
  have hbang : m.bang = false := by
    rw [Bool.eq_false_iff]
    intro hbang
    simp [Marker.entry, hbang] at hkind
  have hsub := CommentBlock.sublist_of_mem_group hb
  have hcomments : n.comments = c :: below.takeWhile m.owns := by
    rw [(Entry.reads_of_read? hread).comments, m.comments_entry]
  have hfirst : n.first = c := (List.cons.inj hcomments).1
  have hfile : c :: below.takeWhile m.owns ⊆ s.comments := by
    rw [← hcomments]
    exact comments_subset_of_mem_notes hn
  rw [hcomments, mem_parametersSeparator_startsIn_iff hfile fun d hd => List.mem_takeWhile_imp hd,
    Note.StartsInLine, hfirst, hspells.any_head?_iff]
  exact Heading.Bare.separatorOffense?_eq_some_iff
    ((CommentBlock.from_of_mem_entries he).mono hsub) (hfile List.mem_cons_self) hspells hbang hbare
    (hbare.mayFollowMarker_eq_false rfl hkeyword) rfl

/-- Two parameters with no colon behind their names, of which the first one is reported. -/
theorem mem_parametersSeparator_iff_two :
    let s := Source.ofText "# @rbs né Type\n#@rbs b Type\ndef m(né, b); end".toList
    (∃ n ∈ s.notes, n.first.line = 1 ∧ n.error = none ∧
      ∃ named, n.content = .parameter named ∧ named.type = none ∧ n.StartsInLine named ∧
        ∀ o, (o ∈ parametersSeparator s ∧ o.StartsIn n.comments) ↔
          o = ⟨⟨9, 9⟩, "Use `:` as a separator between parameter name and type."⟩) ∧
    ∃ n ∈ s.notes, n.first.line = 2 ∧ n.error = none ∧
      ∃ named, n.content = .parameter named ∧ named.type = none ∧ ¬ n.StartsInLine named ∧
        ∀ o ∈ parametersSeparator s, ¬ o.StartsIn n.comments := by
  intro s
  refine ⟨?_, ?_⟩
  · have hnote : ∃ n ∈ s.notes, n.first.line = 1 ∧ n.error = none ∧ ∃ named ∈ n.named?,
        n.content = .parameter named ∧ named.type = none ∧ n.first.body.head?.any isSpace ∧
        named.offset < n.first.byteStop ∧
        s.characterOffset (named.offset + size named.name) = 9 := by decide +kernel
    obtain ⟨n, hn, hline, herror, named, -, hcontent, htype, hspace, hstop, hplace⟩ := hnote
    refine ⟨n, hn, hline, herror, named, hcontent, htype, ⟨hspace, hstop⟩, fun o => ?_⟩
    rw [mem_parametersSeparator_iff hn (.inl hcontent) htype herror o, hplace]
    exact and_iff_right ⟨hspace, hstop⟩
  · have hnote : ∃ n ∈ s.notes, n.first.line = 2 ∧ n.error = none ∧ ∃ named ∈ n.named?,
        n.content = .parameter named ∧ named.type = none ∧ ¬ n.first.body.head?.any isSpace := by
      decide +kernel
    obtain ⟨n, hn, hline, herror, named, -, hcontent, htype, hspace⟩ := hnote
    refine ⟨n, hn, hline, herror, named, hcontent, htype, fun h => hspace h.1, ?_⟩
    intro o ho hstart
    have hiff := mem_parametersSeparator_iff hn (.inl hcontent) htype herror o
    exact hspace (hiff.1 ⟨ho, hstart⟩).1.1

/-- Without white space in front of the marker, or with the name on a line of its own, a missing
colon is not reported. -/
theorem missingColon_unreported :
    (∃ n ∈ (Source.ofText "#@rbs name Type".toList).notes, n.error = none ∧
      (∃ named ∈ n.named?, n.content = .parameter named ∧ named.type = none) ∧
      parametersSeparator (.ofText "#@rbs name Type".toList) = []) ∧
    ∃ n ∈ (Source.ofText "# @rbs\n#   name Type".toList).notes, n.error = none ∧
      (∃ named ∈ n.named?, n.content = .parameter named ∧ named.type = none) ∧
      parametersSeparator (.ofText "# @rbs\n#   name Type".toList) = [] := by
  decide +kernel

end TypeNotes
