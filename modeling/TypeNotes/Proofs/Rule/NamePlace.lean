import TypeNotes.Proofs.Rule.Place

/-!
# Where the name of a note stands

The name in a note is told by the byte at which it starts. There it stands in the file, letter by
letter, inside one comment of the note: on the line of the marker or on a later one, behind text
with characters of several bytes, with an error in its type or without (`showsName_of_mem_notes`).

**The offense.** A name that matches no parameter is reported by its place. An offense that starts
in a comment of a note is about the name of that note, since notes share no comment
(`Note.eq_of_startsIn`), and it covers this name and nothing else.
-/

namespace TypeNotes

open Ruby Utf8

/-! ### The start of a text, in bytes -/

/-- Of two starts of a text, the one with more characters has more bytes. -/
theorem size_lt_of_length_lt {text a b : List Char} (ha : a <+: text) (hb : b <+: text)
    (h : a.length < b.length) : size a < size b := by
  obtain ⟨more, rfl⟩ := List.prefix_of_prefix_length_le ha hb (Nat.le_of_lt h)
  cases more with
  | nil => simp at h
  | cons c more =>
    have hpos := Char.utf8Size_pos c
    rw [size_append, size_cons]
    omega

theorem size_le_of_length_le {text a b : List Char} (ha : a <+: text) (hb : b <+: text)
    (h : a.length ≤ b.length) : size a ≤ size b := by
  obtain ⟨more, rfl⟩ := List.prefix_of_prefix_length_le ha hb h
  rw [size_append]
  omega

/-- What lies between the ends of a comment in characters lies between them in bytes. -/
theorem byteStart_lt_of_mem_comments {s : Source} {c : Comment} (hc : c ∈ s.comments)
    {before piece after : List Char} (htext : s.text = before ++ (piece ++ after))
    (hstart : c.start < before.length) (hstop : before.length + piece.length ≤ c.stop) :
    c.byteStart < size before ∧ size before + size piece ≤ c.byteStop := by
  obtain ⟨front, body, rest, hfront, hbody, -, hstart', hstop', hbyteStart⟩ :=
    Source.in_of_mem_comments hc
  obtain ⟨-, -, -, -, -, hbyteStop, -⟩ := Source.exists_line_of_mem_comments hc
  have hbefore : before <+: s.text := ⟨_, htext.symm⟩
  have hpiece : before ++ piece <+: s.text := ⟨after, by rw [htext, List.append_assoc]⟩
  have hfront' : front <+: s.text := ⟨_, hfront.symm⟩
  have hcomment : front ++ c.text <+: s.text := ⟨rest, by rw [hfront, hbody, List.append_assoc]⟩
  refine ⟨?_, ?_⟩
  · rw [hbyteStart]
    exact size_lt_of_length_lt hfront' hbefore (by omega)
  · rw [hbyteStop, hbyteStart, ← size_append, ← size_append]
    refine size_le_of_length_le hpiece hcomment ?_
    rw [List.length_append, List.length_append, hbody, List.length_cons]
    omega

/-! ### Names in the file -/

/-- The name in a note stands in the file behind as many bytes as the note says, in a comment of the
entry that the note is read from. -/
theorem Entry.From.exists_name {s : Source} {e : Entry} (he : e.From s.comments) {n : Note}
    (hread : e.read? = some n) {named : NamedType} (hname : n.named? = some named) :
    ∃ c ∈ e.comments, ∃ before after, s.text = before ++ (named.name ++ after) ∧
      named.offset = size before ∧ c.start < before.length ∧
      before.length + named.name.length ≤ c.stop := by
  obtain ⟨before, rest, htext, hline, hoffset⟩ := Entry.names_of_read? hread hname
  obtain ⟨c, pre, hlands⟩ := Entry.exists_lands he htext
  obtain ⟨post, hpost⟩ := hlands.line
  have hstop := hlands.stop
  rw [Text.firstLine_append hline] at hpost hstop
  rw [List.length_append] at hstop
  refine ⟨c, hlands.mem, pre, Text.firstLine rest ++ post, ?_, ?_, hlands.start, by omega⟩
  · rw [hpost, List.append_assoc]
  · rw [hoffset, hlands.fileOffset_before]

/-- Notes share no comment, so an offense starts in the comments of one of them at most
(`Offense.StartsIn`). -/
theorem Note.eq_of_startsIn {s : Source} {n n' : Note} (hn : n ∈ s.notes) (hn' : n' ∈ s.notes)
    {o : Offense} (h : o.StartsIn n.comments) (h' : o.StartsIn n'.comments) : n = n' :=
  Note.eq_of_not_before hn hn' (fun hbefore => Nat.lt_irrefl _ (h.start_lt h' hbefore))
    fun hbefore => Nat.lt_irrefl _ (h'.start_lt h hbefore)

/-- What `unmatchedNotes` reports is about the name of a note. -/
theorem exists_of_mem_unmatchedNotes {s : Source} {o : Offense} (ho : o ∈ unmatchedNotes s) :
    ∃ b ∈ s.blocks, ∃ n ∈ b.notes, ∃ named ∈ CrossReference.unmatchedIn s.declarations b,
      n.named? = some named ∧ o = CrossReference.offense s named := by
  rw [unmatchedNotes_eq_sort, (Offense.sort_perm _).mem_iff] at ho
  obtain ⟨named, hnamed, rfl⟩ := List.mem_map.1 ho
  obtain ⟨b, hb, hmem⟩ := List.mem_flatMap.1 hnamed
  obtain ⟨n, hn, hname⟩ := CrossReference.exists_note_of_mem_unmatchedIn hmem
  exact ⟨b, hb, n, hn, named, hmem, hname, rfl⟩

/-- What `unmatchedNotes` reports in the comments of a note with a name is about this name. -/
theorem eq_offense_of_startsIn {s : Source} {n : Note} (hn : n ∈ s.notes) {named : NamedType}
    (hname : n.named? = some named) {o : Offense} (ho : o ∈ unmatchedNotes s)
    (hstart : o.StartsIn n.comments) : o = CrossReference.offense s named := by
  obtain ⟨b, hb, n', hn', named', -, hname', rfl⟩ := exists_of_mem_unmatchedNotes ho
  have hn'' := notes_subset_of_mem_blocks hb hn'
  obtain rfl := Note.eq_of_startsIn hn hn'' hstart (startsIn_offense hn'' hname')
  rw [Option.some.inj (hname.symm.trans hname')]

/-! ### Exact places -/

/-- The place of a name in a note is exact: the bytes there are those of the name, all in one
comment of the note behind its hash sign, and an offense about the note covers the characters of the
name. -/
structure Note.ShowsName (s : Source) (n : Note) (named : NamedType) : Prop where
  bytes : ((encode s.text).take (named.offset + (encode named.name).length)).drop named.offset =
    encode named.name
  inComment : ∃ c ∈ n.comments, c.byteStart < named.offset ∧
    named.offset + (encode named.name).length ≤ c.byteStop
  offense : ∀ o ∈ unmatchedNotes s, o.StartsIn n.comments →
    o = CrossReference.offense s named ∧
      (s.text.take o.span.stop).drop o.span.start = named.name

/-- **Names are where the notes say.** The place of the name in a note is exact, in every file and
whatever the form of the note: the bytes of the name stand at that place, inside one comment of the
note, and every offense about this note covers the name and nothing else. -/
theorem showsName_of_mem_notes {s : Source} {n : Note} (hn : n ∈ s.notes) {named : NamedType}
    (hname : n.named? = some named) : n.ShowsName s named := by
  obtain ⟨e, hfrom, hread⟩ := exists_entry_of_mem_notes hn
  obtain ⟨c, hc, before, after, htext, hoffset, hstart, hstop⟩ := hfrom.exists_name hread hname
  have hparts : s.text = before ++ named.name ++ after := by rw [htext, List.append_assoc]
  have hencode : encode s.text = encode (before ++ named.name) ++ encode after := by
    rw [hparts, encode_append]
  refine ⟨?_, ⟨c, ?_, ?_⟩, fun o ho hstartsIn => ?_⟩
  · rw [length_encode, hoffset, ← size_append, ← length_encode (before ++ named.name), hencode,
      List.take_left, encode_append, ← length_encode before, List.drop_left]
  · rw [(Entry.reads_of_read? hread).comments]
    exact hc
  · rw [length_encode, hoffset]
    exact byteStart_lt_of_mem_comments (hfrom.sublist.subset hc) htext hstart hstop
  · obtain rfl := eq_offense_of_startsIn hn hname ho hstartsIn
    refine ⟨rfl, ?_⟩
    have hbegin : s.characterOffset named.offset = before.length := by
      rw [Source.characterOffset, hoffset, htext, characterOffset_size]
    have hend : s.characterOffset (named.offset + size named.name) =
        (before ++ named.name).length := by
      rw [Source.characterOffset, hoffset, ← size_append, hparts, characterOffset_size]
    simp only [CrossReference.offense, Source.spanOfBytes, hbegin, hend]
    rw [hparts, List.take_left, List.drop_left]

/-- A name with a letter of two bytes, on the line below its marker and behind a comment with
another one, is reported where it stands. -/
theorem showsName_naive :
    ∃ n ∈ (Source.ofText "# é\n# @rbs\n#   naïve: Ü\ndef m(a); end".toList).notes, ∃ named,
      n.named? = some named ∧ named.name = "naïve".toList ∧ named.offset = 16 ∧
      (∃ o ∈ unmatchedNotes (.ofText "# é\n# @rbs\n#   naïve: Ü\ndef m(a); end".toList),
        o.StartsIn n.comments) ∧
      n.ShowsName (.ofText "# é\n# @rbs\n#   naïve: Ü\ndef m(a); end".toList) named := by
  have hnote : ∃ n ∈ (Source.ofText "# é\n# @rbs\n#   naïve: Ü\ndef m(a); end".toList).notes,
      ∃ named ∈ n.named?, named.name = "naïve".toList ∧ named.offset = 16 ∧
      ∃ o ∈ unmatchedNotes (.ofText "# é\n# @rbs\n#   naïve: Ü\ndef m(a); end".toList),
        ∃ c ∈ n.comments, c.start ≤ o.span.start ∧ o.span.start ≤ c.stop := by decide +kernel
  obtain ⟨n, hn, named, hname, htext, hoffset, o, ho, hstart⟩ := hnote
  exact ⟨n, hn, named, hname, htext, hoffset, ⟨o, ho, hstart⟩, showsName_of_mem_notes hn hname⟩

end TypeNotes
