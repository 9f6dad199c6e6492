import TypeNotes.Proofs.Note.Grouping
import TypeNotes.Proofs.Note.Lenient
import TypeNotes.Proofs.Note.Marker
import TypeNotes.Proofs.Rule.NamePlace

/-!
# Keywords that are names of parameters

A keyword with a colon behind it may be the name of a parameter. Two rules decide whether it is: one
looks at the comment as it is written and at the methods below it, the other at the notes and at the
methods that claim them. They agree (`keywordSeparator_iff_unmatchedNotes`): each of them reports
the comment if and only if no method right below its block has a parameter of this name
(`HasParameterBelow`).

**The note.** The keyword is read as a name, since the four forms of names are tried before the
keywords, and it is the name of a parameter (`exists_parameter_of_keywordWithColon?`). A second
colon would make it none, and a word that stands alone would not be looked at without a type behind
it.
-/

namespace TypeNotes

open Ruby Unicode

/-! ### The keyword as a name -/

theorem Shape.exists_of_keywordWithColon? {s keyword : List Char} {stop : Nat}
    (h : keywordWithColon? s = some (keyword, stop)) :
    keyword ∈ keywords ∧ afterMarker? s = some (keyword ++ ':' :: s.drop stop) := by
  simp only [keywordWithColon?, Option.bind_eq_bind, Option.bind_eq_some_iff] at h
  obtain ⟨rest, hrest, hkeyword⟩ := h
  obtain ⟨found, hmem, hfound⟩ := List.exists_of_findSome?_eq_some hkeyword
  split at hfound
  · rename_i tail hafter
    obtain ⟨rfl, rfl⟩ := Prod.mk.inj (Option.some.inj hfound)
    obtain rfl := after?_eq_some_iff.1 hafter
    obtain ⟨front, rfl⟩ := suffix_of_afterMarker? hrest
    refine ⟨hmem, hrest.trans ?_⟩
    have hfront : front ++ (found ++ ':' :: tail) = (front ++ found ++ [':']) ++ tail := by simp
    rw [hfront, List.drop_left']
    simp
    omega
  · cases hfound

/-- `parameterName` reads keywords made of letters alone whole. -/
theorem parameterName_keyword {keyword : List Char} (hmem : keyword ∈ Shape.keywords)
    (hself : keyword ≠ "module-self".toList) (rest : List Char) :
    parameterName (keyword ++ ':' :: rest) = some (keyword, ':' :: rest) := by
  have hall : ∀ k ∈ Shape.keywords, k ≠ "module-self".toList →
      k.head?.any isParameterStart ∧ k.all isWord := by decide
  obtain ⟨hstart, hword⟩ := hall keyword hmem hself
  cases keyword with
  | nil => cases hstart
  | cons c more =>
    have hc : isParameterStart c = true := hstart
    obtain ⟨-, hmore⟩ := List.forall_mem_cons.1 (List.all_eq_true.1 hword)
    obtain ⟨htake, hdrop⟩ := cut_run hmore (isWord_head? (by decide : isWord ':' = false) rest)
    rw [parameterName, List.cons_append, word, if_pos hc, htake, hdrop]
    simp

theorem Heading.exists_withColon?_keyword {keyword text rest : List Char}
    (hmem : keyword ∈ Shape.keywords) (hself : keyword ≠ "module-self".toList)
    (htext : Text.trimLeft text = keyword ++ ':' :: rest) (hcolon : rest.head? ≠ some ':') :
    ∃ h, Heading.withColon? parameterName text = some h ∧ h.name = keyword := by
  have hspace : isSpace ':' = false := by decide
  have htrim : Text.trimLeft (':' :: rest) = ':' :: rest := by simp [Text.trimLeft, hspace]
  simp only [Heading.withColon?, htext, parameterName_keyword hmem hself, htrim]
  cases rest with
  | nil => exact ⟨_, rfl, rfl⟩
  | cons c rest =>
    have hc : c ≠ ':' := fun hc => hcolon (by rw [hc]; rfl)
    split
    · rename_i heq
      exact absurd (List.cons.inj (List.cons.inj heq).2).1 hc
    · exact ⟨_, rfl, rfl⟩
    · rename_i hnot
      exact absurd rfl (hnot _)

theorem Entry.contentOfName_of_ne {named : NamedType} (h : named.name ≠ "return".toList) :
    Entry.contentOfName named = .parameter named := by
  rw [Entry.contentOfName, if_neg (by simpa using h)]

variable {s : Source}

/-- A comment with a keyword and a single colon heads a note of a parameter with this name. -/
theorem exists_parameter_of_keywordWithColon? {c : Comment} (hc : c ∈ s.comments)
    {keyword : List Char} {stop : Nat}
    (hkeyword : Shape.keywordWithColon? c.text = some (keyword, stop))
    (hself : keyword ≠ "module-self".toList) (hcolon : (c.text.drop stop).head? ≠ some ':') :
    ∃ b ∈ s.blocks, c ∈ b.comments ∧ ∃ n ∈ b.notes, n.first = c ∧
      ∃ named, n.content = .parameter named ∧ named.name = keyword := by
  obtain ⟨hmem, hafter⟩ := Shape.exists_of_keywordWithColon? hkeyword
  obtain ⟨body, gap, spaced, htext, -, hspells, hspaced⟩ := Shape.afterMarker?_eq_some_iff.1 hafter
  have hbody := Comment.body_eq htext
  rw [← hbody] at hspells
  obtain ⟨b, hb, above, below, hparts, he⟩ := exists_entry_of_marker hc hspells.ofBody?
  set m : Marker := ⟨gap.length, false⟩
  set e := m.entry c (below.takeWhile m.owns)
  -- Behind the keyword and the colon stand the rest of the comment and the lines below.
  obtain ⟨more, hmore, hnewline⟩ := hspells.exists_text (below.takeWhile m.owns)
  have htrim : Text.trimLeft e.text = keyword ++ ':' :: (c.text.drop stop ++ more) := by
    obtain ⟨space, hspace, -, hall, hhead⟩ := Shape.afterSpace?_eq_some_iff.1 hspaced
    have hkeep : Text.trimLeft spaced = keyword ++ ':' :: c.text.drop stop := by
      rw [hspace]
      exact (cut_run hall hhead).2
    rw [hmore, (trimLeft_append (by simp [hkeep]) more).1, hkeep, List.append_assoc,
      List.cons_append]
  have hsingle : (c.text.drop stop ++ more).head? ≠ some ':' := by
    cases htail : c.text.drop stop with
    | nil =>
      intro hhead
      have := hnewline ':' hhead
      contradiction
    | cons d tail =>
      rw [htail] at hcolon
      exact hcolon
  obtain ⟨h, hheading, hname⟩ := Heading.exists_withColon?_keyword hmem hself htrim hsingle
  have hread : e.read? = some (e.namedNote h Signature.Grammar.type Entry.contentOfName) := by
    have hkind : e.kind = .marked := rfl
    simp [Entry.read?, hkind, Entry.readMarked?, Entry.readNamed?_of_parameterName hheading]
  refine ⟨b, hb, by simp [hparts], _, List.mem_filterMap.2 ⟨e, he, hread⟩, rfl, ?_⟩
  have hreturn : ∀ k ∈ Shape.keywords, k ≠ "return".toList := by decide
  exact ⟨_, Entry.contentOfName_of_ne (hname ▸ hreturn keyword hmem), hname⟩

/-! ### Methods below a block -/

/-- A method right below the block has a parameter of this name. -/
def HasParameterBelow (s : Source) (b : CommentBlock) (name : List Char) : Prop :=
  ∃ d ∈ s.declarations, CrossReference.isAbove d b ∧ name ∈ d.parameterNames

theorem leadingBlock?_eq_some_iff_isAbove {d : Declaration} {b : CommentBlock} :
    leadingBlock? s.blocks d.line = some b ↔ b ∈ s.blocks ∧ CrossReference.isAbove d b := by
  rw [leadingBlock?_eq_some_iff]
  refine and_congr_right fun hb => ?_
  have huniform := (CommentBlock.isGrouping_group s.comments).1.uniform b hb
  simp [CrossReference.isAbove, CommentBlock.isLeading_eq huniform]

/-- Among declarations on lines of their own, the `claimer?` of a block is the only one below it. -/
theorem CrossReference.claimer?_eq_some_iff {ds : List Declaration}
    (hlines : ds.Pairwise fun a b => a.line ≠ b.line) {b : CommentBlock} {d : Declaration} :
    claimer? ds b = some d ↔ d ∈ ds ∧ isAbove d b := by
  refine ⟨claimer?_eq_some, fun ⟨hd, habove⟩ => ?_⟩
  obtain ⟨d', hclaimer⟩ : ∃ d', claimer? ds b = some d' :=
    Option.isSome_iff_exists.1 (List.find?_isSome.2 ⟨d, hd, habove⟩)
  obtain ⟨hd', habove'⟩ := claimer?_eq_some hclaimer
  have hline : d'.line = d.line :=
    (lastLine_of_isAbove habove').symm.trans (lastLine_of_isAbove habove)
  have hsymm : Std.Symm fun a b : Declaration => a.line ≠ b.line := ⟨fun _ _ => Ne.symm⟩
  have heq : d' = d := by
    by_contra hne
    exact hlines.forall hd' hd hne hline
  rw [hclaimer, heq]

/-! ### Both rules -/

section Agreement

variable {b : CommentBlock} (hb : b ∈ s.blocks)

include hb

/-- `keywordSeparator` reports the comment unless a method below has the parameter
(`HasParameterBelow`). -/
theorem exists_keywordSeparator_iff {c : Comment} (hc : c ∈ b.comments) {keyword : List Char}
    {stop : Nat} (hkeyword : Shape.keywordWithColon? c.text = some (keyword, stop))
    (hlone : keyword ∈ Shape.loneKeywords → Text.isBlank (c.text.drop stop) = false) :
    (∃ o ∈ keywordSeparator s, o.StartsIn [c]) ↔ ¬ HasParameterBelow s b keyword := by
  have hfile : c ∈ s.comments := (CommentBlock.sublist_of_mem_group hb).subset hc
  have hnames : ∀ d, namesParameter d c ↔ keyword ∈ d.parameterNames := by
    intro d
    have htype : (!Text.isBlank (c.text.drop stop) || !Shape.loneKeywords.contains keyword) := by
      by_cases hmem : keyword ∈ Shape.loneKeywords
      · rw [hlone hmem]
        rfl
      · simp [hmem]
    simp only [namesParameter, hkeyword, Option.any_some, htype, Bool.and_true,
      List.contains_iff_mem]
  have hnamed : ((parameterComments s).map (·.start)).contains c.start ↔
      HasParameterBelow s b keyword := by
    rw [List.contains_iff_mem, List.mem_map]
    constructor
    · rintro ⟨c', hc', hstart⟩
      obtain ⟨d, hd, hc'⟩ := List.mem_flatMap.1 hc'
      split at hc'
      · cases hc'
      · rename_i b' hblock
        obtain ⟨hb', habove⟩ := leadingBlock?_eq_some_iff_isAbove.1 hblock
        obtain ⟨hc', hname⟩ := List.mem_filter.1 hc'
        have hfile' := (CommentBlock.sublist_of_mem_group hb').subset hc'
        obtain rfl := eq_of_start_eq hfile' hfile hstart
        obtain rfl := eq_of_mem_comments_of_mem_blocks hb hb' hc hc'
        exact ⟨d, hd, habove, (hnames d).1 hname⟩
    · rintro ⟨d, hd, habove, hname⟩
      refine ⟨c, List.mem_flatMap.2 ⟨d, hd, ?_⟩, rfl⟩
      simp only [leadingBlock?_eq_some_iff_isAbove.2 ⟨hb, habove⟩]
      exact List.mem_filter.2 ⟨hc, (hnames d).2 hname⟩
  have hoffense : (∃ o, keywordOffense? (parameterComments s) c = some o) ↔
      ¬ HasParameterBelow s b keyword := by
    simp only [← hnamed, keywordOffense?, hkeyword]
    split
    · rename_i hcontains
      exact iff_of_false (by simp) (not_not_intro hcontains)
    · rename_i hcontains
      exact iff_of_true ⟨_, rfl⟩ hcontains
  rw [← hoffense]
  constructor
  · rintro ⟨o, ho, hstart⟩
    obtain ⟨c', hc', ho⟩ := List.mem_filterMap.1 ho
    obtain rfl := eq_of_startsIn hc' hfile (startsIn_of_keywordOffense? hc' ho) hstart
    exact ⟨o, ho⟩
  · rintro ⟨o, ho⟩
    exact ⟨o, List.mem_filterMap.2 ⟨c, hfile, ho⟩, startsIn_of_keywordOffense? hfile ho⟩

/-- `unmatchedNotes` reports the note unless a method below has the parameter (`HasParameterBelow`).
-/
theorem exists_unmatchedNotes_iff (hlines : s.declarations.Pairwise fun a b => a.line ≠ b.line)
    {n : Note} (hn : n ∈ b.notes) {named : NamedType} (hcontent : n.content = .parameter named) :
    (∃ o ∈ unmatchedNotes s, o.StartsIn n.comments) ↔ ¬ HasParameterBelow s b named.name := by
  have hfile : n ∈ s.notes := notes_subset_of_mem_blocks hb hn
  have hname : n.named? = some named := by rw [Note.named?, hcontent]
  have hparameter : CrossReference.parameterName? n = some named := by
    rw [CrossReference.parameterName?, hcontent]
  have hmethod : CrossReference.methodName? n = some named := by
    rw [CrossReference.methodName?, hcontent]
  have hunmatched : named ∈ CrossReference.unmatchedIn s.declarations b ↔
      ¬ HasParameterBelow s b named.name := by
    rw [CrossReference.unmatchedIn]
    cases hclaimer : CrossReference.claimer? s.declarations b with
    | none =>
      refine iff_of_true (List.mem_filterMap.2 ⟨n, hn, hmethod⟩) ?_
      rintro ⟨d, hd, habove, -⟩
      exact List.find?_eq_none.1 hclaimer d hd habove
    | some d =>
      have hbelow : HasParameterBelow s b named.name ↔ named.name ∈ d.parameterNames := by
        constructor
        · rintro ⟨d', hd', habove, hmem⟩
          rw [(CrossReference.claimer?_eq_some_iff hlines).2 ⟨hd', habove⟩] at hclaimer
          rwa [← Option.some.inj hclaimer]
        · intro hmem
          obtain ⟨hd, habove⟩ := CrossReference.claimer?_eq_some hclaimer
          exact ⟨d, hd, habove, hmem⟩
      have hin : named ∈ b.notes.filterMap CrossReference.parameterName? :=
        List.mem_filterMap.2 ⟨n, hn, hparameter⟩
      simp [hbelow, hin]
  rw [← hunmatched]
  constructor
  · rintro ⟨o, ho, hstart⟩
    obtain ⟨b', hb', n', hn', named', hmem, hname', rfl⟩ := exists_of_mem_unmatchedNotes ho
    have hfile' := notes_subset_of_mem_blocks hb' hn'
    obtain rfl := Note.eq_of_startsIn hfile hfile' hstart (startsIn_offense hfile' hname')
    obtain rfl := eq_of_mem_comments_of_mem_blocks hb hb'
      (CommentBlock.comments_subset_of_mem_notes hn List.mem_cons_self)
      (CommentBlock.comments_subset_of_mem_notes hn' List.mem_cons_self)
    rwa [Option.some.inj (hname.symm.trans hname')]
  · intro hmem
    refine ⟨_, ?_, startsIn_offense hfile hname⟩
    rw [unmatchedNotes_eq_sort, (Offense.sort_perm _).mem_iff]
    exact List.mem_map_of_mem (List.mem_flatMap.2 ⟨b, hb, hmem⟩)

end Agreement

/-- **Two rules agree on keywords that are names.** Let no two methods be declared on one line, and
let a comment have a keyword with a single colon behind it, and a type behind that if the keyword
can stand alone. Then the comment heads one note, which is about a parameter with the keyword as its
name, and the rule about keywords reports the comment if and only if the rule about parameters
reports the note. -/
theorem keywordSeparator_iff_unmatchedNotes {s : Source}
    (hlines : s.declarations.Pairwise fun a b => a.line ≠ b.line) {c : Comment}
    (hc : c ∈ s.comments) {keyword : List Char} {stop : Nat}
    (hkeyword : Shape.keywordWithColon? c.text = some (keyword, stop))
    (hself : keyword ≠ "module-self".toList) (hcolon : (c.text.drop stop).head? ≠ some ':')
    (hlone : keyword ∈ Shape.loneKeywords → Text.isBlank (c.text.drop stop) = false) :
    ∃ n ∈ s.notes, n.first = c ∧ (∀ n' ∈ s.notes, n'.first = c → n' = n) ∧
      (∃ named, n.content = .parameter named ∧ named.name = keyword) ∧
      ((∃ o ∈ keywordSeparator s, o.StartsIn [c]) ↔
        ∃ o ∈ unmatchedNotes s, o.StartsIn n.comments) := by
  obtain ⟨b, hb, hcb, n, hn, rfl, named, hcontent, rfl⟩ :=
    exists_parameter_of_keywordWithColon? hc hkeyword hself hcolon
  have hfile := notes_subset_of_mem_blocks hb hn
  refine ⟨n, hfile, rfl, fun n' hn' hfirst => ?_, ⟨named, hcontent, rfl⟩, ?_⟩
  · refine Note.eq_of_mem_comments hn' hfile List.mem_cons_self ?_
    rw [hfirst]
    exact List.mem_cons_self
  · rw [exists_keywordSeparator_iff hb hcb hkeyword hlone,
      exists_unmatchedNotes_iff hb hlines hn hcontent]

/-- A keyword that names a parameter of the method below it, and one that names none: the second one
is reported by both rules. -/
theorem keywordSeparator_iff_unmatchedNotes_skip :
    let s := Source.ofText
      "# @rbs class: Integer\ndef m(class:); end\n\n# @rbs skip: Integer\ndef n(a); end".toList
    (∃ c ∈ s.comments, c.line = 1 ∧ ¬ (∃ o ∈ keywordSeparator s, o.StartsIn [c]) ∧
      ∃ n ∈ s.notes, n.first = c ∧ ¬ ∃ o ∈ unmatchedNotes s, o.StartsIn n.comments) ∧
    ∃ c ∈ s.comments, c.line = 4 ∧ (∃ o ∈ keywordSeparator s, o.StartsIn [c]) ∧
      ∃ n ∈ s.notes, n.first = c ∧ ∃ o ∈ unmatchedNotes s, o.StartsIn n.comments := by
  intro s
  have hlines : s.declarations.Pairwise fun a b => a.line ≠ b.line := by decide +kernel
  constructor
  · have hcomment : ∃ c ∈ s.comments, c.line = 1 ∧
        Shape.keywordWithColon? c.text = some ("class".toList, 13) ∧
        (c.text.drop 13).head? ≠ some ':' ∧
        ¬ ∃ o ∈ keywordSeparator s, ∃ d ∈ [c], d.start ≤ o.span.start ∧ o.span.start ≤ d.stop := by
      decide +kernel
    obtain ⟨c, hc, hline, hkeyword, hcolon, hnone⟩ := hcomment
    obtain ⟨n, hn, hfirst, -, -, hiff⟩ := keywordSeparator_iff_unmatchedNotes hlines hc hkeyword
      (by decide) hcolon fun hlone => absurd hlone (by decide)
    exact ⟨c, hc, hline, hnone, n, hn, hfirst, fun h => hnone (hiff.2 h)⟩
  · have hcomment : ∃ c ∈ s.comments, c.line = 4 ∧
        Shape.keywordWithColon? c.text = some ("skip".toList, 12) ∧
        (c.text.drop 12).head? ≠ some ':' ∧ Text.isBlank (c.text.drop 12) = false ∧
        ∃ o ∈ keywordSeparator s, ∃ d ∈ [c], d.start ≤ o.span.start ∧ o.span.start ≤ d.stop := by
      decide +kernel
    obtain ⟨c, hc, hline, hkeyword, hcolon, hblank, hsome⟩ := hcomment
    obtain ⟨n, hn, hfirst, -, -, hiff⟩ := keywordSeparator_iff_unmatchedNotes hlines hc hkeyword
      (by decide) hcolon (fun _ => hblank)
    exact ⟨c, hc, hline, hsome, n, hn, hfirst, hiff.1 hsome⟩

end TypeNotes
