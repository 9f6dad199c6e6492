import TypeNotes.Proofs.Note.Assertion
import TypeNotes.Proofs.Signature.Excerpt

/-!
# Remarks

A remark after two dashes says nothing to the reader of a note. Behind a text that ends with its
last token it changes nothing about the note, for all forms of notes which allow nothing else
there (`Entry.withRemark_inert`).

**Signatures.** Dashes stand in no signature, so the same tokens are read in front of them, and read
alike (`readSignature_withRemark`). The text may have a remark of its own already.

**Forms.** Which form a note has is told by the start of its text, up to a blank
(`Heading.withColon?_withRemark` and so on).
-/

namespace TypeNotes

open Signature Utf8

variable {α : Type}

/-- The text with a remark behind it. -/
def withRemark (text remark : List Char) : List Char := text ++ " --".toList ++ remark

/-- The last byte of the text is the last byte of its last token. -/
def EndsWithToken (text : List Char) : Prop :=
  (tokens (encode text)).1.getLast?.map Token.stop = some (size text)

instance (text : List Char) : Decidable (EndsWithToken text) :=
  inferInstanceAs (Decidable (_ = _))

/-! ### Signatures in front of a remark -/

/-- Two dashes behind a gap. -/
theorem Signature.Token.read_dashes {s gap w : List UInt8}
    (h : splitGap false s = (gap, byte '-' :: byte '-' :: w)) (o : Nat) :
    Token.read o s =
      .ok (⟨.mark "-", "-", o + gap.length, o + gap.length + 1⟩, byte '-' :: w) := by
  have hlexeme : splitLexeme ([byte '-'] ++ byte '-' :: w) =
      some (.mark, [byte '-'], byte '-' :: w) := rfl
  have htext : Utf8.text [byte '-'] = "-" := text_encode ['-']
  rw [Token.read_of_splitLexeme h hlexeme, htext]
  rfl

/-- What follows a signature in front of a remark: two dashes behind a gap (`splitGap`). -/
theorem exists_dashes {d r : List UInt8} {t : Token} {rest : List UInt8}
    (hread : Token.read d.length r = .ok (t, rest))
    (ht : t.isEnd = true ∧ r = [] ∨ t.OpensRemark (d ++ r)) (remark : List UInt8) :
    ∃ gap w, splitGap false (r ++ byte ' ' :: byte '-' :: byte '-' :: remark) =
      (gap, byte '-' :: byte '-' :: w) := by
  rcases ht with ⟨-, rfl⟩ | ⟨hkind, hdashes⟩
  · exact ⟨[byte ' '], remark, rfl⟩
  · have hend : t.isEnd = false := by rw [Token.isEnd, hkind]; rfl
    obtain ⟨gap, _, lexeme, hgap, -, hstart⟩ := Token.exists_of_read hread hend
    have hr : gap ++ (lexeme ++ rest) = r := by simpa [hgap] using splitGap_append false r
    rw [hstart, ← hr, ← List.append_assoc, ← List.length_append, List.drop_left] at hdashes
    obtain ⟨w, hw⟩ : ∃ w, lexeme ++ rest = byte '-' :: byte '-' :: w := by
      refine ⟨(lexeme ++ rest).drop 2, ?_⟩
      rw [← List.take_append_drop 2 (lexeme ++ rest), hdashes]
      simp
    rw [hw] at hgap hr
    rw [← hr] at hgap ⊢
    refine ⟨gap, w ++ byte ' ' :: byte '-' :: byte '-' :: remark, ?_⟩
    rw [List.append_assoc]
    exact splitGap_of_eq hgap _

/-- A remark behind a signature (`withRemark`) changes nothing about what `readSignature` reads. -/
theorem readSignature_withRemark {x : Script α} (hends : x.EndsAt Kind.isCalm)
    (hpicks : ∀ w, x.Picks w fun _ _ => True) {text : List Char} {a : α}
    (h : readSignature x false text = .ok a) (hend : EndsWithToken text) (remark : List Char) :
    readSignature x false (withRemark text remark) = .ok a := by
  obtain ⟨s', hgives, t, ht, htrail⟩ := readSignature_eq_ok_iff.1 h
  obtain ⟨us, htaken, hforeign⟩ := Script.Picks.isForeign_of_gives hpicks hgives
  obtain ⟨r, hreads⟩ := exists_reads (o := 0) htaken.tokens
  obtain ⟨d, hd⟩ := hreads.suffix
  have hd' : endOf 0 us = d.length := by
    have := hreads.endOf_add.1
    rw [← hd, List.length_append] at this
    omega
  have hnext : (Stream.ofBytes (encode text)).tokenAt us.length = .ok t := by
    rw [← Nat.add_zero us.length, htaken.tokenAt, ht]
  obtain ⟨rest, hread⟩ := hreads.exists_read hnext
  rw [hd'] at hread
  -- Without a remark of its own, the text ends with the signature.
  have htrail' : t.isEnd = true ∧ r = [] ∨ t.OpensRemark (d ++ r) := by
    rcases htrail with htrail | hfalse | htrail
    · refine .inl ⟨htrail, List.length_eq_zero_iff.1 ?_⟩
      have hall : (tokens (encode text)).1 = us := by
        have := htaken.tokens
        rwa [Stream.tokens_of_isEnd ht htrail, List.append_nil] at this
      rw [EndsWithToken, hall] at hend
      have hlen := congrArg List.length hd
      rw [endOf, hend, Option.getD_some] at hd'
      rw [List.length_append, length_encode] at hlen
      omega
    · cases hfalse
    · exact .inr (hd ▸ htrail)
  have hbytes : encode (withRemark text remark) =
      d ++ (r ++ byte ' ' :: byte '-' :: byte '-' :: encode remark) := by
    rw [withRemark, encode_append, encode_append, ← hd, List.append_assoc, List.append_assoc]
    rfl
  obtain ⟨gap, w, hgap⟩ := exists_dashes hread htrail' (encode remark)
  have hpercent : ∀ u ∈ us, u.kind ≠ .mark "%" := fun u hu =>
    beq_eq_false_iff_ne.1 (Bool.or_eq_false_iff.1 (hforeign u hu)).2
  have hstop : StopAhead (r ++ byte ' ' :: byte '-' :: byte '-' :: encode remark) :=
    stopAhead_of_splitGap hgap fun _ => by simp [StopAhead, stops]
  have hsame : us.map (Token.shift ([] : List UInt8).length) = us := List.map_id us
  obtain ⟨t', hgives', ht'⟩ := hends.gives_of_reads [] [] us
    (hd ▸ hgives) (by rwa [hsame, List.nil_append, hd]) (by rwa [hsame, List.nil_append, hd])
    (by rw [hsame]; exact (hd ▸ hreads : Reads 0 (d ++ r) us r).reseam hpercent hstop)
    (Token.read_dashes hgap d.length) rfl
  refine readSignature_eq_ok_iff.2 ⟨t', hbytes ▸ hgives', _, ht', .inr (.inr ⟨rfl, ?_⟩)⟩
  have hdrop := splitGap_append false (r ++ byte ' ' :: byte '-' :: byte '-' :: encode remark)
  rw [hgap] at hdrop
  rw [hbytes, ← hdrop, ← List.append_assoc, ← List.length_append, List.drop_left]
  rfl

/-! ### The start of a text -/

variable {s w : List Char}

/-- A text is cut at the same place if a blank and more text stand behind it. -/
theorem cut_blank {p : Char → Bool} (hp : p ' ' = false) (s w : List Char) :
    (s ++ ' ' :: w).takeWhile p = s.takeWhile p ∧
      (s ++ ' ' :: w).dropWhile p = s.dropWhile p ++ ' ' :: w := by
  induction s with
  | nil => simp [hp]
  | cons c s ih =>
    simp only [List.cons_append, List.takeWhile_cons, List.dropWhile_cons]
    split
    · exact ⟨congrArg (c :: ·) ih.1, ih.2⟩
    · exact ⟨rfl, rfl⟩

/-- `Text.startsWith` a start without blanks is told without looking past a blank. -/
theorem Text.startsWith_blank {start : String} (h : ' ' ∉ start.toList) :
    Text.startsWith (s ++ ' ' :: w) start = Text.startsWith s start := by
  unfold Text.startsWith
  generalize start.toList = start at h
  induction start generalizing s with
  | nil => rfl
  | cons c start ih =>
    rw [List.mem_cons, not_or] at h
    cases s with
    | nil => simp [List.isPrefixOf, Ne.symm h.1]
    | cons d s => simp [List.isPrefixOf, ih h.2]

/-- `Text.after?` takes off a start without blanks, whatever stands behind a blank. -/
theorem Text.after?_blank {start : List Char} (h : ' ' ∉ start) :
    Text.after? start (s ++ ' ' :: w) = (Text.after? start s).map (· ++ ' ' :: w) := by
  induction start generalizing s with
  | nil => rfl
  | cons c start ih =>
    rw [List.mem_cons, not_or] at h
    cases s with
    | nil => simp [Text.after?, Ne.symm h.1]
    | cons d s =>
      simp only [List.cons_append, Text.after?, ih h.2]
      split <;> rfl

/-- A part of a name ends in front of a blank. -/
def NamePart.EndsAtBlank (part : NamePart) : Prop :=
  ∀ s w, part (s ++ ' ' :: w) = (part s).map fun (name, rest) => (name, rest ++ ' ' :: w)

/-- `word` ends in front of a blank. -/
theorem endsAtBlank_word (start : Char → Bool) (h : start ' ' = false) :
    NamePart.EndsAtBlank (word start) := by
  intro s w
  cases s with
  | nil => simp [word, h]
  | cons c s =>
    obtain ⟨htake, hdrop⟩ := cut_blank (p := Unicode.isWord) (by decide) s w
    simp only [List.cons_append, word, htake, hdrop]
    split <;> rfl

theorem endsAtBlank_blockName : blockName.EndsAtBlank := by
  intro s w
  cases s with
  | nil => rfl
  | cons c s =>
    obtain ⟨htake, hdrop⟩ := cut_blank (p := Unicode.isWord) (by decide) s w
    by_cases hc : c = '&'
    · subst hc
      simp [blockName, htake, hdrop]
    · simp [blockName, hc]

theorem endsAtBlank_parameterName : parameterName.EndsAtBlank := by
  intro s w
  simp only [parameterName, endsAtBlank_word isParameterStart (by decide) s w,
    Option.map_map]
  refine congrArg (Option.map · _) (funext fun (name, rest) => ?_)
  cases rest with
  | nil => rfl
  | cons c rest => cases hc : c == '?' || c == '!' <;> simp [hc]

/-- Two characters at most are taken of a run that has no blanks in it. -/
theorem take_run_blank {c : Char} (hc : ' ' ≠ c) (s w : List Char) :
    let run := (s.takeWhile (· == c)).take 2
    ((s ++ ' ' :: w).takeWhile (· == c)).take 2 = run ∧
      (s ++ ' ' :: w).drop run.length = s.drop run.length ++ ' ' :: w := by
  have htake := (cut_blank (p := (· == c)) (by simpa using hc) s w).1
  have hle : ((s.takeWhile (· == c)).take 2).length ≤ s.length :=
    ((List.take_prefix 2 _).trans (List.takeWhile_prefix _)).length_le
  exact ⟨by rw [htake], List.drop_append_of_le_length hle⟩

theorem endsAtBlank_splatName : splatName.EndsAtBlank := by
  intro s w
  obtain ⟨htake, hdrop⟩ := take_run_blank (by decide : ' ' ≠ '*') s w
  simp only [splatName, htake, hdrop, endsAtBlank_word Ruby.isNameStart (by decide) _ w]
  split
  · rfl
  · cases word Ruby.isNameStart _ <;> rfl

theorem endsAtBlank_variableName : variableName.EndsAtBlank := by
  intro s w
  obtain ⟨self, hself, hself', hdrop⟩ : ∃ self : List Char,
      (if Text.startsWith s "self." then s.take 5 else []) = self ∧
      (if Text.startsWith (s ++ ' ' :: w) "self." then (s ++ ' ' :: w).take 5 else []) = self ∧
      (s ++ ' ' :: w).drop self.length = s.drop self.length ++ ' ' :: w := by
    rw [Text.startsWith_blank (by decide)]
    split
    · rename_i hstart
      obtain ⟨more, rfl⟩ := List.isPrefixOf_iff_prefix.1 hstart
      exact ⟨"self.".toList, rfl, rfl, rfl⟩
    · exact ⟨[], rfl, rfl, rfl⟩
  obtain ⟨htake, hdrop'⟩ := take_run_blank (by decide : ' ' ≠ '@') (s.drop self.length) w
  simp only [variableName, hself, hself', hdrop, htake, ← List.drop_drop, hdrop',
    endsAtBlank_word Ruby.isNameStart (by decide) _ w]
  split
  · rfl
  · cases word Ruby.isNameStart _ <;> rfl

/-- What stands in front of the first visible character, and what stands from it on. -/
theorem trimLeft_append (h : Text.trimLeft s ≠ []) (w : List Char) :
    Text.trimLeft (s ++ w) = Text.trimLeft s ++ w ∧ indentation (s ++ w) = indentation s := by
  simp only [Text.trimLeft, indentation] at h ⊢
  induction s with
  | nil => exact absurd rfl h
  | cons c s ih =>
    cases hc : Unicode.isSpace c with
    | true =>
      simp only [List.cons_append, List.takeWhile_cons, List.dropWhile_cons, hc, if_true] at h ⊢
      exact ⟨(ih h).1, congrArg (· + 1) (ih h).2⟩
    | false => simp [hc]

/-- Behind white space alone, the dashes of a remark come first. -/
theorem trimLeft_dashes (h : Text.trimLeft s = []) (remark : List Char) :
    Text.trimLeft (s ++ ' ' :: '-' :: '-' :: remark) = '-' :: '-' :: remark := by
  have hall : ∀ c ∈ s, Unicode.isSpace c = true := List.dropWhile_eq_nil_iff.1 h
  rw [Text.trimLeft, List.dropWhile_append_of_pos hall]
  rfl

/-- `withRemark` puts the remark behind a blank and two dashes. -/
theorem withRemark_eq (text remark : List Char) :
    withRemark text remark = text ++ ' ' :: '-' :: '-' :: remark := by
  simp [withRemark]

/-- `Heading.withColon?` finds a name in front of a remark if it finds it without one. -/
theorem Heading.withColon?_withRemark {part : NamePart} (hpart : part.EndsAtBlank)
    (h : Text.trimLeft s ≠ []) (remark : List Char) :
    Heading.withColon? part (withRemark s remark) = Heading.withColon? part s := by
  rw [withRemark_eq]
  obtain ⟨htrim, hindent⟩ := trimLeft_append h (' ' :: '-' :: '-' :: remark)
  have hname := hpart (Text.trimLeft s) ('-' :: '-' :: remark)
  simp only [Heading.withColon?, htrim, hindent, hname]
  cases part (Text.trimLeft s) with
  | none => rfl
  | some parts =>
    obtain ⟨name, rest⟩ := parts
    simp only [Option.map_some]
    by_cases hrest : Text.trimLeft rest = []
    · rw [hrest, trimLeft_dashes hrest]
      rfl
    · obtain ⟨htrim', hindent'⟩ := trimLeft_append hrest (' ' :: '-' :: '-' :: remark)
      rw [htrim', hindent']
      -- The blank behind a colon is no second one.
      match Text.trimLeft rest with
      | [] => rfl
      | [c] => by_cases hc : c = ':' <;> simp [hc]
      | c :: d :: rest' => by_cases hc : c = ':' <;> by_cases hd : d = ':' <;> simp [hc, hd]

/-- A word that stands alone (`isLoneWord`) stands alone in front of a remark. -/
theorem isLoneWord_withRemark {word : String} (hword : ' ' ∉ word.toList)
    (h : Text.trimLeft s ≠ []) (remark : List Char) :
    isLoneWord word (withRemark s remark) = isLoneWord word s := by
  rw [withRemark_eq]
  obtain ⟨htrim, -⟩ := trimLeft_append h (' ' :: '-' :: '-' :: remark)
  simp only [isLoneWord, htrim, Text.after?_blank hword]
  cases Text.after? word.toList (Text.trimLeft s) with
  | none => rfl
  | some rest =>
    simp only [Option.map_some]
    by_cases hrest : Text.trimLeft rest = []
    · rw [hrest, trimLeft_dashes hrest]
      rfl
    · rw [(trimLeft_append hrest _).1, Text.startsWith_blank (by decide)]
      obtain ⟨c, rest', hcons⟩ := List.exists_cons_of_ne_nil hrest
      rw [hcons]
      rfl

/-- A remark does not change `Heading.firstWord`. -/
theorem Heading.firstWord_withRemark (h : Text.trimLeft s ≠ []) (remark : List Char) :
    Heading.firstWord (withRemark s remark) = Heading.firstWord s := by
  rw [withRemark_eq]
  obtain ⟨htrim, hindent⟩ := trimLeft_append h (' ' :: '-' :: '-' :: remark)
  have htake := (cut_blank (p := fun c => !Unicode.isSpace c) (by decide) (Text.trimLeft s)
    ('-' :: '-' :: remark)).1
  simp only [Heading.firstWord, htrim, hindent, htake]

/-- `startsMethodType` looks at the first characters of a text only. -/
theorem startsMethodType_withRemark (h : Text.trimLeft s ≠ []) (remark : List Char) :
    startsMethodType (withRemark s remark) = startsMethodType s := by
  rw [withRemark_eq]
  obtain ⟨htrim, -⟩ := trimLeft_append h (' ' :: '-' :: '-' :: remark)
  simp (disch := decide) only [startsMethodType, htrim, List.any_cons, List.any_nil,
    Text.startsWith_blank]

/-! ### Notes with a remark -/

/-- The note has no error, and says the same. -/
def Note.SaysAs (n' n : Note) : Prop := n'.error = none ∧ n'.content = n.content

/-- The forms of notes that allow nothing behind their signature but a remark. -/
def Content.allowsRemark : Content → Bool
  | .inherits _ | .uses _ | .moduleSelf _ | .generic _ | .moduleHead _ | .classHead _
  | .methodType _ _ | .methodAssertion _ | .typeAssertion _ | .application _ => true
  | _ => false

namespace Entry

/-- The text that is read as the signature of a note. Behind a keyword it has blanks in front. -/
def signatureText (e : Entry) : Content → List Char
  | .inherits _ | .uses _ | .moduleSelf _ | .generic _ | .moduleHead _ | .classHead _ =>
    e.blankedTo (Heading.firstWord e.text).stop
  | _ => e.text

variable {e e' : Entry} {n : Note} {remark : List Char}

/-- `Entry.blankedTo` blanks out a heading alike with a remark behind. -/
theorem blankedTo_withRemark (htext : e'.text = withRemark e.text remark) {count : Nat}
    (hcount : count ≤ e.text.length) :
    e'.blankedTo count = withRemark (e.blankedTo count) remark := by
  rw [blankedTo, blankedTo, htext, withRemark, withRemark, List.append_assoc,
    List.take_append_of_le_length hcount, List.drop_append_of_le_length hcount]
  simp

/-- `Entry.keywordNote` says the same with a remark behind, if its signature ends at the end of
input and at dashes. -/
theorem keywordNote_withRemark {x : Script α} (hends : x.EndsAt Kind.isCalm)
    (hpicks : ∀ w, x.Picks w fun _ _ => True) (htext : e'.text = withRemark e.text remark)
    {h : Heading} (hstop : h.stop ≤ e.text.length) {content : Option α → Content}
    (herror : (e.keywordNote h x content).error = none)
    (hend : EndsWithToken (e.blankedTo h.stop)) :
    (e'.keywordNote h x content).SaysAs (e.keywordNote h x content) := by
  cases houtcome : readSignature x false (e.blankedTo h.stop) with
  | error err => simp [keywordNote, note, houtcome, error?] at herror
  | ok a =>
    have houtcome' := readSignature_withRemark hends hpicks houtcome hend remark
    rw [← blankedTo_withRemark htext hstop] at houtcome'
    constructor
    · simp [keywordNote, note, houtcome', error?]
    · simp [keywordNote, note, houtcome, houtcome']

/-- The first word of a text ends in the text. -/
theorem stop_firstWord_le (s : List Char) : (Heading.firstWord s).stop ≤ s.length := by
  have hname : ((Text.trimLeft s).takeWhile fun c => !Unicode.isSpace c).length ≤
      (Text.trimLeft s).length := (List.takeWhile_prefix _).length_le
  have hparts := congrArg List.length
    (List.takeWhile_append_dropWhile (p := Unicode.isSpace) (l := s))
  rw [List.length_append] at hparts
  change indentation s + _ ≤ _
  rw [indentation]
  exact Nat.le_trans (Nat.add_le_add_left hname _) (Nat.le_of_eq hparts)

/-- A note with a keyword is not blank. -/
theorem trimLeft_ne_nil_of_readKeyword? (h : e.readKeyword? = some n) :
    Text.trimLeft e.text ≠ [] := by
  intro hnil
  simp [readKeyword?, Heading.firstWord, hnil] at h

/-- `Entry.readKeyword?` reads the same with a remark behind. -/
theorem readKeyword?_withRemark (htext : e'.text = withRemark e.text remark)
    (h : e.readKeyword? = some n) (herror : n.error = none)
    (hend : EndsWithToken (e.blankedTo (Heading.firstWord e.text).stop)) :
    ∃ n', e'.readKeyword? = some n' ∧ n'.SaysAs n := by
  have hfirst : Heading.firstWord e'.text = Heading.firstWord e.text := by
    rw [htext, Heading.firstWord_withRemark (trimLeft_ne_nil_of_readKeyword? h)]
  have hstop := stop_firstWord_le e.text
  unfold readKeyword? at h ⊢
  simp only [hfirst] at h ⊢
  generalize Heading.firstWord e.text = heading at *
  have hkeyword : ∀ {β : Type} {x : Script β} {content : Option β → Content},
      x.EndsAt Kind.isCalm → (∀ w, x.Picks w fun _ _ => True) →
      some (e.keywordNote heading x content) = some n →
      ∃ n', some (e'.keywordNote heading x content) = some n' ∧ n'.SaysAs n := by
    rintro β x content hends hpicks ⟨⟩
    exact ⟨_, rfl, keywordNote_withRemark hends hpicks htext hstop herror hend⟩
  generalize String.ofList heading.name = word at h ⊢
  split at h
  · exact hkeyword (fun _ _ => sealed_classReference endsMembers_isCalm)
      (fun _ => picks_classReference) h
  · exact hkeyword (fun _ _ => sealed_useClauses endsMembers_isCalm) (fun _ => picks_useClauses) h
  · exact hkeyword (fun _ _ => sealed_selfTypes endsMembers_isCalm) (fun _ => picks_selfTypes) h
  · exact hkeyword (fun _ _ => sealed_typeParameter endsMembers_isCalm true)
      (fun _ => picks_typeParameter true) h
  · exact hkeyword (fun _ _ => sealed_moduleHead endsMembers_isCalm) (fun _ => picks_moduleHead) h
  · exact hkeyword (fun _ _ => sealed_classHead endsMembers_isCalm) (fun _ => picks_classHead) h
  · cases h

/-- Tags and method types, if something follows the tags. -/
def tagsThenTypes : Script (List String × List String) := do
  let tags ← Script.call .tags
  let types ← Script.call .methodTypes
  return (tags, types)

theorem endsAt_tagsThenTypes : tagsThenTypes.EndsAt Kind.isCalm := fun _ _ =>
  Script.sealed_bind_of_forces (Script.sealed_call (p := .tags) endsMembers_isCalm (Nat.le_refl 1))
    (fun _ _ _ _ => Script.sealed_bind (Script.sealed_call (p := .methodTypes) endsMembers_isCalm
      (Nat.le_refl 0)) fun _ => Script.sealed_done _)
    (fun _ => forces_methodTypes) (Nat.le_add_right 1 0)

theorem picks_tagsThenTypes (w : Nat → Token) : tagsThenTypes.Picks w fun _ _ => True := by
  simp [tagsThenTypes, Script.call, Phrase.isMemberless]

/-- No method types are read at the end of input. -/
theorem gives_taggedMethodTypes {s s' : Stream} {tags types : List String} :
    taggedMethodTypes.Gives s (tags, some types) s' ↔ tagsThenTypes.Gives s (tags, types) s' := by
  have hforces : (Script.call .methodTypes).Forces 1 :=
    Script.Paced.forces (by simp [Script.call, Phrase.rank, Phrase.takesToken])
  simp only [taggedMethodTypes, tagsThenTypes, Script.bind_eq, Script.pure_eq, Script.gives_bind,
    Script.atEnd, Script.gives_nextIs]
  constructor
  · rintro ⟨tags', s₁, htags, _, _, ⟨⟨t, -, rfl⟩, rfl⟩, hrest⟩
    split at hrest
    · simp at hrest
    · obtain ⟨types', s₂, htypes, hdone⟩ := Script.gives_bind.1 hrest
      obtain ⟨heq, rfl⟩ := Script.gives_done.1 hdone
      obtain ⟨rfl, rfl⟩ : tags = tags' ∧ types = types' := by simpa using heq
      exact ⟨tags, s₁, htags, types, s₂, htypes, Script.gives_done.2 ⟨rfl, rfl⟩⟩
  · rintro ⟨tags', s₁, htags, types', s₂, htypes, hdone⟩
    obtain ⟨heq, rfl⟩ := Script.gives_done.1 hdone
    obtain ⟨rfl, rfl⟩ : tags = tags' ∧ types = types' := by simpa using heq
    have hlen := hforces _ _ _ htypes
    cases htokens : s₁.tokens with
    | nil =>
      rw [htokens, List.length_nil] at hlen
      omega
    | cons t tokens =>
      have hend : (t.kind == .endOfInput) = false :=
        s₁.thenEnd.isEnd_of_mem t (by simp [htokens])
      have ht : s₁.tokenAt 0 = .ok t := by simp [Stream.tokenAt, htokens]
      refine ⟨tags, s₁, htags, false, s₁, ⟨⟨t, ht, hend.symm⟩, rfl⟩, ?_⟩
      rw [if_neg (by simp)]
      exact Script.gives_bind.2 ⟨types, s₂, htypes, Script.gives_done.2 ⟨rfl, rfl⟩⟩

/-- Method types behind tags are read as with `tagsThenTypes`, if something follows the tags. -/
theorem readSignature_taggedMethodTypes {text : List Char} {tags types : List String} :
    readSignature taggedMethodTypes false text = .ok (tags, some types) ↔
      readSignature tagsThenTypes false text = .ok (tags, types) := by
  simp only [readSignature_eq_ok_iff, gives_taggedMethodTypes]

/-- A note with method types is not blank. -/
theorem trimLeft_ne_nil_of_readMethodType? (h : e.readMethodType? = some n) :
    Text.trimLeft e.text ≠ [] := by
  intro hnil
  simp [readMethodType?, startsMethodType, hnil, Text.startsWith] at h

/-- `Entry.readMethodType?` reads the same with a remark behind. -/
theorem readMethodType?_withRemark (htext : e'.text = withRemark e.text remark)
    (h : e.readMethodType? = some n) (herror : n.error = none)
    (hremark : n.content.allowsRemark = true) (hend : EndsWithToken e.text) :
    ∃ n', e'.readMethodType? = some n' ∧ n'.SaysAs n := by
  have hstart : startsMethodType e'.text = startsMethodType e.text := by
    rw [htext, startsMethodType_withRemark (trimLeft_ne_nil_of_readMethodType? h)]
  unfold readMethodType? at h ⊢
  rw [hstart]
  split at h
  · rename_i hstarts
    rw [if_pos hstarts]
    obtain rfl := Option.some.inj h
    refine ⟨_, rfl, ?_⟩
    cases houtcome : readSignature taggedMethodTypes false e.text with
    | error err => simp [houtcome, note] at herror
    | ok answer =>
      obtain ⟨tags, _ | types⟩ := answer
      · simp [houtcome, note, Content.allowsRemark] at hremark
      · have houtcome' := readSignature_withRemark endsAt_tagsThenTypes picks_tagsThenTypes
          (readSignature_taggedMethodTypes.1 houtcome) hend remark
        rw [← htext, ← readSignature_taggedMethodTypes] at houtcome'
        simp [houtcome', note, Note.SaysAs]
  · cases h

/-- `Entry.readNamed?` reads nothing if no sort of name with a colon stands in front. -/
theorem readNamed?_eq_none_iff : e.readNamed? = none ↔
    ∀ part ∈ [variableName, blockName, splatName, parameterName],
      Heading.withColon? part e.text = none := by
  simp [readNamed?]

/-- A named note allows any text behind its type, so it is none of the strict forms. -/
theorem allowsRemark_of_readNamed? (h : e.readNamed? = some n) :
    n.content.allowsRemark = false := by
  have hname : ∀ named, (contentOfName named).allowsRemark = false := by
    intro named
    unfold contentOfName
    split <;> rfl
  simp only [readNamed?, Option.orElse_eq_orElse, Option.orElse_eq_or, Option.or_eq_some_iff,
    Option.map_eq_some_iff] at h
  rcases h with ⟨_, -, rfl⟩ | ⟨-, ⟨_, -, rfl⟩ | ⟨-, ⟨_, -, rfl⟩ | ⟨-, _, -, rfl⟩⟩⟩
  · rfl
  · rfl
  · rfl
  · exact hname _

/-- `Entry.readLone?` reads nothing if neither word stands alone. -/
theorem readLone?_eq_none_iff : e.readLone? = none ↔
    ∀ word ∈ ["override", "skip"], isLoneWord word e.text = false := by
  cases hoverride : isLoneWord "override" e.text <;> cases hskip : isLoneWord "skip" e.text <;>
    simp [readLone?, hoverride, hskip]

theorem allowsRemark_of_readLone? (h : e.readLone? = some n) : n.content.allowsRemark = false := by
  unfold readLone? at h
  split at h
  · cases h
    rfl
  split at h
  · cases h
    rfl
  · cases h

/-- A name without a colon is no strict form. -/
theorem allowsRemark_of_readBare? (h : e.readBare? = some n) : n.content.allowsRemark = false := by
  obtain ⟨heading, -, rfl⟩ := Option.map_eq_some_iff.1 h
  simp only [note, contentOfName]
  split <;> rfl

/-- The signature that `Entry.readKeyword?` reads is the text with the keyword blanked out. -/
theorem signatureText_of_readKeyword? (h : e.readKeyword? = some n) :
    e.signatureText n.content = e.blankedTo (Heading.firstWord e.text).stop := by
  simp only [readKeyword?] at h
  split at h
  all_goals
    cases h
    try rfl

/-- The signature that `Entry.readMethodType?` reads is all of the text. -/
theorem signatureText_of_readMethodType? (h : e.readMethodType? = some n) :
    e.signatureText n.content = e.text := by
  simp only [readMethodType?] at h
  split at h
  · obtain rfl := Option.some.inj h
    split <;> rfl
  · cases h

theorem signatureText_readAssertion : e.signatureText e.readAssertion.content = e.text := by
  simp only [readAssertion]
  split
  · rfl
  · split <;> rfl

/-- The keyword of a note tells whether there is one, whatever follows it. -/
theorem readKeyword?_eq_none (hfirst : Heading.firstWord e'.text = Heading.firstWord e.text)
    (h : e.readKeyword? = none) : e'.readKeyword? = none := by
  simp only [readKeyword?, hfirst] at h ⊢
  generalize String.ofList (Heading.firstWord e.text).name = word at h ⊢
  split at h
  all_goals first
    | rfl
    | cases h

/-- `Entry.readMarked?` reads the same with a remark behind, if the form allows a remark. -/
theorem readMarked?_withRemark (htext : e'.text = withRemark e.text remark)
    (h : e.readMarked? = some n) (herror : n.error = none)
    (hremark : n.content.allowsRemark = true) (hend : EndsWithToken (e.signatureText n.content)) :
    ∃ n', e'.readMarked? = some n' ∧ n'.SaysAs n := by
  simp only [readMarked?, Option.orElse_eq_orElse, Option.orElse_eq_or] at h ⊢
  rcases Option.or_eq_some_iff.1 h with h | ⟨hnamed, h⟩
  · rw [allowsRemark_of_readNamed? h] at hremark
    cases hremark
  rcases Option.or_eq_some_iff.1 h with h | ⟨hlone, h⟩
  · rw [allowsRemark_of_readLone? h] at hremark
    cases hremark
  have hnamed' : Text.trimLeft e.text ≠ [] → e'.readNamed? = none := by
    intro hne
    refine readNamed?_eq_none_iff.2 fun part hpart => ?_
    have hends : part.EndsAtBlank := by
      simp only [List.mem_cons, List.not_mem_nil, or_false] at hpart
      rcases hpart with rfl | rfl | rfl | rfl
      · exact endsAtBlank_variableName
      · exact endsAtBlank_blockName
      · exact endsAtBlank_splatName
      · exact endsAtBlank_parameterName
    rw [htext, Heading.withColon?_withRemark hends hne]
    exact readNamed?_eq_none_iff.1 hnamed part hpart
  have hlone' : Text.trimLeft e.text ≠ [] → e'.readLone? = none := by
    intro hne
    refine readLone?_eq_none_iff.2 fun word hword => ?_
    have hblank : ' ' ∉ word.toList := by
      simp only [List.mem_cons, List.not_mem_nil, or_false] at hword
      rcases hword with rfl | rfl <;> decide
    rw [htext, isLoneWord_withRemark hblank hne]
    exact readLone?_eq_none_iff.1 hlone word hword
  rcases Option.or_eq_some_iff.1 h with h | ⟨hkeyword, h⟩
  · have hne := trimLeft_ne_nil_of_readKeyword? h
    rw [signatureText_of_readKeyword? h] at hend
    obtain ⟨n', hn', hsame⟩ := readKeyword?_withRemark htext h herror hend
    exact ⟨n', by simp [hnamed' hne, hlone' hne, hn'], hsame⟩
  rcases Option.or_eq_some_iff.1 h with h | ⟨-, h⟩
  · have hne := trimLeft_ne_nil_of_readMethodType? h
    rw [signatureText_of_readMethodType? h] at hend
    obtain ⟨n', hn', hsame⟩ := readMethodType?_withRemark htext h herror hremark hend
    have hkeyword' : e'.readKeyword? = none :=
      readKeyword?_eq_none (by rw [htext, Heading.firstWord_withRemark hne]) hkeyword
    exact ⟨n', by simp [hnamed' hne, hlone' hne, hkeyword', hn'], hsame⟩
  · rw [allowsRemark_of_readBare? h] at hremark
    cases hremark

/-- `Entry.readAssertion` reads the same with a remark behind. -/
theorem readAssertion_withRemark (htext : e'.text = withRemark e.text remark)
    (herror : e.readAssertion.error = none) (hend : EndsWithToken e.text) :
    e'.readAssertion.SaysAs e.readAssertion := by
  have hmethod := fun a h => readSignature_withRemark (a := a)
    (fun _ _ => sealed_methodType endsMembers_isCalm)
    (fun _ => picks_methodType) h hend remark
  have htype := fun a h => readSignature_withRemark (a := a)
    (fun _ _ => sealed_type endsTypes_isCalm)
    (fun _ => picks_type) h hend remark
  rw [← htext] at hmethod htype
  cases houtcome : readSignature Grammar.methodType false e.text with
  | ok a => simp [readAssertion, houtcome, hmethod a houtcome, note, Note.SaysAs]
  | error methodError =>
    cases houtcome' : readSignature Grammar.type false e.text with
    | error typeError => simp [readAssertion, houtcome, houtcome', note] at herror
    | ok a =>
      -- A type is no method type with a remark behind it either.
      cases hother : readSignature Grammar.methodType false e'.text with
      | ok b => exact (not_readSignature_both hother (htype a houtcome')).elim
      | error _ =>
        simp [readAssertion, houtcome, houtcome', hother, htype a houtcome', note, Note.SaysAs]

/-- **Remarks are inert.** If a note of a form that allows nothing but a remark behind its signature
is read without an error, from a text that ends with its last token, then the text with two dashes
and anything behind it is read as a note that says the same, without an error. -/
theorem withRemark_inert (hkind : e'.kind = e.kind) (htext : e'.text = withRemark e.text remark)
    (h : e.read? = some n) (herror : n.error = none) (hremark : n.content.allowsRemark = true)
    (hend : EndsWithToken (e.signatureText n.content)) :
    ∃ n', e'.read? = some n' ∧ n'.error = none ∧ n'.content = n.content := by
  unfold read? at h ⊢
  rw [hkind]
  split at h
  · exact readMarked?_withRemark htext h herror hremark hend
  · obtain rfl := Option.some.inj h
    cases hremark
  · obtain rfl := Option.some.inj h
    rw [signatureText_readAssertion] at hend
    exact ⟨_, rfl, readAssertion_withRemark htext herror hend⟩
  · obtain rfl := Option.some.inj h
    refine ⟨_, rfl, ?_⟩
    cases houtcome : readSignature Grammar.typeList false e.text with
    | error err => simp [houtcome, note, error?] at herror
    | ok a =>
      have houtcome' := readSignature_withRemark
          (fun _ _ => sealed_typeList endsMembers_isCalm) (fun _ => picks_typeList) houtcome
        hend remark
      rw [← htext] at houtcome'
      simp [houtcome', note, error?, answer?]

/-- A superclass in front of a remark that holds a quotation mark and a bracket. -/
theorem withRemark_inert_inherits :
    let c : Ruby.Comment := ⟨"# @rbs inherits A[B]".toList, 0, 20, 0, 20, 1, 0, false⟩
    let c' : Ruby.Comment := ⟨"# @rbs inherits A[B] -- \"]".toList, 0, 26, 0, 26, 1, 0, false⟩
    let e := Marker.entry ⟨1, false⟩ c []
    let e' := Marker.entry ⟨1, false⟩ c' []
    e.read? = some ⟨c, [], "A[B]".toList, none, .inherits (some "A[B]")⟩ ∧
      ∃ n', e'.read? = some n' ∧ n'.error = none ∧ n'.content = .inherits (some "A[B]") := by
  intro c c' e e'
  have hread : e.read? = some ⟨c, [], "A[B]".toList, none, .inherits (some "A[B]")⟩ := by
    decide +kernel
  have hkind : e'.kind = e.kind := by decide +kernel
  have htext : e'.text = withRemark e.text " \"]".toList := by decide +kernel
  have hend : EndsWithToken (e.signatureText (.inherits (some "A[B]"))) := by decide +kernel
  exact ⟨hread, withRemark_inert hkind htext hread rfl rfl hend⟩

end Entry

end TypeNotes
