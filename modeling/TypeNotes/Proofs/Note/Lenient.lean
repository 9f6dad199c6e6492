import TypeNotes.Proofs.Note.Heading
import TypeNotes.Proofs.Note.Remark

/-!
# Text behind the type of a name

A note of a name with a colon allows any text behind its type. The reader still looks at the first
token there, to see whether the type goes on. So the note is read if and only if that token can be
read, in front of any text that does not go on with the type (`Entry.read?_named_lenient`).

**In front of a token.** The type ends where it ends by itself, as no token that goes on with it
follows (`endsTypes_isIdle`).

**In front of no token.** If the type were read, it would be read from fewer tokens. These can be read
by themselves, so the type would end before its last token there as well.
-/

namespace TypeNotes

open Signature Utf8

variable {α : Type}

/-! ### The first token of the text -/

/-- The characters that go on with a type, and the one that opens a comment. -/
def typeCharacters : List Char := ['|', '&', '?', '[', ':', '#']

/-- The first character of the text that is no blank does not go on with a type. -/
def EndsType (trailing : List Char) : Prop :=
  ∀ c ∈ (trailing.dropWhile isBlankCharacter).head?, c ∉ typeCharacters

instance (trailing : List Char) : Decidable (EndsType trailing) :=
  decidable_of_iff ((trailing.dropWhile isBlankCharacter).head?.all (· ∉ typeCharacters) = true)
    (by simp [EndsType, Option.all_eq_true])

/-- The kinds of tokens that do not go on with a type. -/
def Signature.Kind.isIdle (kind : Kind) : Bool := typeMarks.all fun mark => kind != .mark mark

theorem endsTypes_isIdle : EndsTypes Kind.isIdle := by
  intro mark hmark
  refine List.all_eq_false.2 ⟨mark, hmark, by simp⟩

/-- A token can be read at the start of the text, or there is none. -/
def StartsWithToken (text : List Char) : Prop := ∃ parts, Token.read 0 (encode text) = .ok parts

instance (text : List Char) : Decidable (StartsWithToken text) :=
  match h : Token.read 0 (encode text) with
  | .ok parts => isTrue ⟨parts, h⟩
  | .error _ => isFalse fun ⟨_, hparts⟩ => by rw [h] at hparts; cases hparts

theorem Signature.Token.read_of_isBlank {o : Nat} {b : UInt8} (hb : isBlank b = true)
    (s : List UInt8) : Token.read o (b :: s) = Token.read (o + 1) s := by
  have hne : (b == byte '#') = false := by
    simp only [isBlank, Bool.or_eq_true, beq_iff_eq] at hb
    rcases hb with ((rfl | rfl) | rfl) | rfl <;> decide
  have hgap : splitGap false (b :: s) = (b :: (splitGap false s).1, (splitGap false s).2) := by
    simp [splitGap, hb, hne]
  have hstart : o + (b :: (splitGap false s).1).length = o + 1 + (splitGap false s).1.length := by
    rw [List.length_cons]
    omega
  simp only [Token.read, hgap, hstart]

/-- Whether `Token.read` gives a token does not depend on the place. -/
theorem Signature.Token.exists_read_iff (o o' : Nat) (s : List UInt8) :
    (∃ parts, Token.read o s = .ok parts) ↔ ∃ parts, Token.read o' s = .ok parts := by
  rcases hgap : splitGap false s with ⟨gap, tail⟩
  simp only [Token.read, hgap]
  cases tail with
  | nil => simp
  | cons b tail =>
    cases hlexeme : splitLexeme (b :: tail) with
    | some parts => simp [hlexeme]
    | none =>
      simp only [hlexeme]
      split <;> simp

/-- A token that goes on with a type starts with one of the `typeCharacters`. -/
theorem mem_typeCharacters_of_isIdle {c : Char} {more : List Char} {t : Token}
    (hspelled : t.Spelled) (htext : t.text = String.ofList (c :: more))
    (hidle : t.kind.isIdle = false) : c ∈ typeCharacters := by
  obtain ⟨mark, hmark, hkind⟩ := List.all_eq_false.1 hidle
  have hkind : t.kind = .mark mark := by simpa using hkind
  have hmarks : typeMarks.all fun mark => mark.toList.head?.all (typeCharacters.contains ·) := by
    decide
  have hhead := List.all_eq_true.1 hmarks mark hmark
  rw [← hspelled mark hkind, htext, String.toList_ofList] at hhead
  simpa using hhead

/-- The token at the start of a text that does not go on with a type (`EndsType`) is idle. -/
theorem isIdle_of_read (trailing : List Char) {o : Nat} {v : Token} {rest : List UInt8}
    (h : EndsType trailing) (hread : Token.read o (encode trailing) = .ok (v, rest)) :
    v.kind.isIdle = true := by
  induction trailing generalizing o with
  | nil =>
    obtain ⟨rfl, -⟩ := Prod.mk.inj (Except.ok.inj hread)
    rfl
  | cons c trailing ih =>
    cases hc : isBlankCharacter c with
    | true =>
      have hb : ∃ b, isBlank b = true ∧ encode (c :: trailing) = b :: encode trailing := by
        simp only [isBlankCharacter, Bool.or_eq_true, beq_iff_eq] at hc
        rcases hc with ((rfl | rfl) | rfl) | rfl <;>
          exact ⟨_, by decide, encode_cons_of_lt (by decide) trailing⟩
      obtain ⟨b, hb, hcons⟩ := hb
      rw [hcons, Token.read_of_isBlank hb] at hread
      exact ih (by simpa [EndsType, hc] using h) hread
    | false =>
      -- There is no gap in front of the token.
      have hne : c ∉ typeCharacters := h c (by simp [hc])
      obtain ⟨b, s, hcons⟩ := exists_encode_cons c trailing
      have hblank : isBlank b = false := by
        refine Bool.eq_false_iff.2 fun hb => ?_
        simp only [isBlank, Bool.or_eq_true, beq_iff_eq] at hb
        rcases hb with ((rfl | rfl) | rfl) | rfl <;>
          · obtain rfl := eq_of_encode_cons (by decide) hcons
            cases hc
      have hhash : b ≠ byte '#' := by
        rintro rfl
        obtain rfl := eq_of_encode_cons (by decide) hcons
        exact hne (by decide)
      have hgap := splitGap_cons hblank hhash s
      have hspelled := hread
      rw [hcons, Token.read, hgap] at hread
      simp only [List.length_nil, Nat.add_zero] at hread
      split at hread
      · rename_i spelling lexeme rest' hlexeme
        rw [← hcons] at hlexeme
        obtain ⟨-, x, y, hxy, hparts⟩ := splitsText_splitLexeme hlexeme
        obtain ⟨rfl, rfl⟩ := Prod.mk.inj hparts
        obtain ⟨rfl, rfl⟩ := Prod.mk.inj (Except.ok.inj hread)
        cases x with
        | nil => exact absurd rfl (splitLexeme_spec hlexeme).2
        | cons d more =>
          obtain ⟨rfl, -⟩ := List.cons.inj hxy
          refine Bool.of_not_eq_false fun hidle => hne ?_
          exact mem_typeCharacters_of_isIdle (Token.spelled_of_read hspelled) (text_encode _) hidle
      · split at hread <;> cases hread

/-! ### Signatures in front of the text -/

/-- The same tokens stand behind blanks. -/
theorem Signature.Reads.blanks {o count : Nat} {s rest : List UInt8} {t : Token} {us : List Token}
    (h : Reads (o + count) s (t :: us) rest) :
    Reads o (List.replicate count (byte ' ') ++ s) (t :: us) rest := by
  induction count generalizing o with
  | zero => exact h
  | succ count ih =>
    obtain ⟨s₁, hread, hend, hrest⟩ := ih (o := o + 1) (by rwa [Nat.add_assoc, Nat.add_comm 1])
    exact ⟨s₁, (Token.read_blank o _).trans hread, hend, hrest⟩

/-- A text that is accepted as a whole is made of the tokens that are taken, if it ends with the last
of them. -/
theorem exists_reads_of_answer {x : Script α} (hpicks : ∀ w, x.Picks w fun _ _ => True)
    {payload : List Char} {a : α} (h : x.whole.answer (encode payload) = .ok a)
    (hend : EndsWithToken payload) : ∃ t us s', (Stream.ofBytes (encode payload)).Takes (t :: us) s' ∧
      x.Gives (Stream.ofBytes (encode payload)) a s' ∧ s'.tokens = [] ∧
      Reads 0 (encode payload) (t :: us) [] ∧ ∀ u ∈ t :: us, u.kind ≠ .mark "%" := by
  obtain ⟨s', hs'⟩ := Script.answer_eq_ok_iff.1 h
  obtain ⟨hgives, hnil, -⟩ := Script.gives_whole.1 hs'
  obtain ⟨us, htaken, hforeign⟩ := Script.Picks.isForeign_of_gives hpicks hgives
  have hall : (tokens (encode payload)).1 = us := by
    have := htaken.tokens
    rwa [hnil, List.append_nil] at this
  rw [EndsWithToken, hall] at hend
  obtain ⟨r, hreads⟩ := exists_reads (o := 0) htaken.tokens
  obtain rfl : r = [] := by
    have hlen := hreads.endOf_add.1
    rw [endOf, hend, Option.getD_some, length_encode] at hlen
    exact List.length_eq_zero_iff.1 (by omega)
  cases us with
  | nil => simp at hend
  | cons t us =>
    refine ⟨t, us, s', htaken, hgives, hnil, hreads, fun u hu => ?_⟩
    exact beq_eq_false_iff_ne.1 (Bool.or_eq_false_iff.1 (hforeign u hu)).2

section Bytes

variable {x : Script α} {blanks p r : List UInt8} {us : List Token} {a b : α} {s s' : Signature.Stream}

/-- Where no token can be read behind the tokens of a signature, nothing that ends there is given:
it would be given for fewer tokens, and so it would be for these alone. -/
theorem not_tokenAt_of_reads (hends : x.EndsAt Kind.isIdle) (h : x.Gives (Stream.ofBytes p) a s)
    (hnil : s.tokens = []) (hreads : Reads 0 p us [])
    (hreads' : Reads 0 (blanks ++ p ++ r) (us.map (Token.shift blanks.length)) r)
    (hnone : ¬ ∃ parts, Token.read (blanks ++ p).length r = .ok parts)
    (h' : x.Gives (Stream.ofBytes (blanks ++ p ++ r)) b s') (v : Token) : s'.tokenAt 0 ≠ .ok v := by
  intro hv
  obtain ⟨error, herror⟩ : ∃ error, Token.read (blanks ++ p).length r = .error error := by
    cases hread : Token.read (blanks ++ p).length r with
    | ok parts => exact absurd ⟨parts, hread⟩ hnone
    | error error => exact ⟨error, rfl⟩
  have hbehind := hreads'.endOf_eq
  rw [Nat.zero_add] at hbehind
  have htokens : (Stream.ofBytes (blanks ++ p ++ r)).tokens = us.map (Token.shift blanks.length) := by
    have := congrArg Prod.fst hreads'.tokensFrom_eq
    rwa [hbehind, tokensFrom_of_error herror, List.append_nil] at this
  have halone : (Stream.ofBytes p).tokens = us := by
    have := congrArg Prod.fst hreads.tokensFrom_eq
    have hnil : (tokensFrom (endOf 0 us) []).1 = [] := by rw [tokensFrom_eq_ahead rfl]; rfl
    rwa [hnil, List.append_nil] at this
  -- Some token is left, as the first one that cannot be read has not been asked for.
  obtain ⟨taken, htaken⟩ := h'.takes
  have hcount : us.length = taken.length + s'.tokens.length := by
    have := congrArg List.length (htokens.symm.trans htaken.tokens)
    rwa [List.length_map, List.length_append] at this
  have hleft : s'.tokens.length ≠ 0 := by
    intro hzero
    have hnext := hreads'.tokenAt
    rw [List.length_map, hcount, hzero, htaken.tokenAt, hv, hbehind, herror] at hnext
    cases hnext
  -- By themselves the tokens are read alike, up to the same one.
  have hself : us.map (Token.shift ([] : List UInt8).length) = us := List.map_id us
  have hempty : [] ++ p ++ [] = p := by simp
  have heof : Token.read ([] ++ p).length [] = .ok (Token.eof p.length, []) := rfl
  have halong : (Stream.ofBytes (blanks ++ p ++ r)).Alongside Kind.isIdle blanks.length 0 us.length
      (Stream.ofBytes ([] ++ p ++ [])) :=
    Stream.alongside_ofBytes blanks [] hreads' (by rwa [hempty, hself]) heof rfl
  rw [hempty, hcount] at halong
  obtain ⟨t, ht, hlen, -⟩ := Script.gives_of_alongside hends h'
    (by rw [htokens, List.length_map, hcount]) halong
  obtain ⟨-, rfl⟩ := Prod.mk.inj (h.symm.trans ht)
  rw [halone, hnil, List.length_nil] at hlen
  omega

end Bytes

/-- What is accepted as a whole is read by a lenient `readSignature` in front of a text that does
not go on with a type, if a token can be read there, and nothing is read if none can. -/
theorem readSignature_lenient {x : Script α} (hends : x.EndsAt Kind.isIdle)
    (hpicks : ∀ w, x.Picks w fun _ _ => True) {payload trailing : List Char} {a : α}
    (h : x.whole.answer (encode payload) = .ok a) (hend : EndsWithToken payload)
    (htrailing : EndsType trailing) (count : Nat) :
    (StartsWithToken trailing →
      readSignature x true (Text.blanks count ++ (payload ++ ' ' :: trailing)) = .ok a) ∧
    (¬ StartsWithToken trailing → ∃ error,
      readSignature x true (Text.blanks count ++ (payload ++ ' ' :: trailing)) = .error error) := by
  obtain ⟨t, us, s', htaken, hgives, hnil, hreads, hpercent⟩ := exists_reads_of_answer hpicks h hend
  generalize hblanks : List.replicate count (byte ' ') = blanks
  have hbytes : encode (Text.blanks count ++ (payload ++ ' ' :: trailing)) =
      blanks ++ encode payload ++ encode (' ' :: trailing) := by
    rw [encode_append, encode_append, Text.blanks, encode_replicate (by decide), List.append_assoc,
      hblanks]
  have hread (o : Nat) : (∃ parts, Token.read o (encode (' ' :: trailing)) = .ok parts) ↔
      StartsWithToken trailing := by
    rw [encode_cons_of_lt (by decide), Token.read_blank]
    exact Token.exists_read_iff ..
  have hidle {o : Nat} {v : Token} {rest : List UInt8}
      (hv : Token.read o (encode (' ' :: trailing)) = .ok (v, rest)) : v.kind.isIdle = true :=
    isIdle_of_read (' ' :: trailing) htrailing hv
  -- The same tokens stand behind the blanks, in front of the text.
  have hreads' : Reads 0 (blanks ++ encode payload ++ encode (' ' :: trailing))
      ((t :: us).map (Token.shift blanks.length)) (encode (' ' :: trailing)) := by
    have hstop : StopAhead (encode (' ' :: trailing)) := by
      rw [encode_cons_of_lt (by decide)]
      simp [StopAhead, stops]
    have hreseamed := (Reads.reseam (r := []) (by rwa [List.append_nil]) hpercent hstop).add count
    rw [← hblanks, List.length_replicate, List.append_assoc]
    exact hreseamed.blanks
  generalize encode (' ' :: trailing) = r at hbytes hread hidle hreads'
  constructor
  · intro hstarts
    obtain ⟨⟨v, rest⟩, hv⟩ := (hread (blanks ++ encode payload).length).2 hstarts
    have hself : (t :: us).map (Token.shift ([] : List UInt8).length) = t :: us := List.map_id _
    have halone : [] ++ encode payload ++ [] = encode payload := by simp
    have hreads : Reads 0 ([] ++ encode payload ++ []) (_ : List Token) [] :=
      halone.symm ▸ hself.symm ▸ hreads
    obtain ⟨t', hgives', ht'⟩ := hends.gives_of_reads [] blanks (t :: us)
      (by rwa [halone]) (by rwa [halone, hself]) hreads hreads' hv (hidle hv)
    exact readSignature_eq_ok_iff.2 ⟨t', hbytes ▸ hgives', v, ht', .inr (.inl rfl)⟩
  · intro hstarts
    cases hout : readSignature x true (Text.blanks count ++ (payload ++ ' ' :: trailing)) with
    | error error => exact ⟨error, rfl⟩
    | ok b =>
      obtain ⟨t', hgives', v, hv, -⟩ := readSignature_eq_ok_iff.1 hout
      rw [hbytes] at hgives'
      have hnone := fun hparts => hstarts ((hread (blanks ++ encode payload).length).1 hparts)
      exact absurd hv (not_tokenAt_of_reads hends hgives hnil hreads hreads' hnone hgives' v)

/-! ### Names in front of a colon -/

/-- The forms of names in front of a colon, with what is read behind it. -/
def namings : List (NamePart × Script String) :=
  [(variableName, Grammar.type), (blockName, Grammar.blockSignature), (splatName, Grammar.type),
    (parameterName, Grammar.type)]

section Headings

variable {s : List Char} {h : Heading}

theorem Heading.exists_of_withColon? {part : NamePart}
    (hheading : Heading.withColon? part s = some h) :
    ∃ name rest, part (Text.trimLeft s) = some (name, rest) ∧
      (Text.trimLeft rest).head? = some ':' := by
  unfold Heading.withColon? at hheading
  split at hheading
  · cases hheading
  · rename_i name rest hpart
    refine ⟨name, rest, hpart, ?_⟩
    split at hheading
    · cases hheading
    · rename_i hrest
      rw [hrest]
      rfl
    · cases hheading

theorem Heading.withColon?_eq_none {part : NamePart} (hpart : part (Text.trimLeft s) = none) :
    Heading.withColon? part s = none := by
  simp [Heading.withColon?, hpart]

theorem variableName_eq_none {c : Char} {w : List Char}
    (hself : Text.startsWith (c :: w) "self." = false)
    (hc : c ≠ '@') : variableName (c :: w) = none := by
  simp [variableName, hself, hc]

theorem blockName_eq_none {c : Char} {w : List Char} (hc : c ≠ '&') : blockName (c :: w) = none := by
  unfold blockName
  split
  · rename_i heq
    exact absurd (List.cons.inj heq).1 hc
  · rfl

theorem splatName_eq_none {c : Char} {w : List Char} (hc : c ≠ '*') : splatName (c :: w) = none := by
  simp [splatName, hc]

/-- The name of a parameter ends in front of the dot of `self.`, so a colon does not follow it. -/
theorem startsWith_self_of_parameterName {name rest : List Char}
    (hname : parameterName s = some (name, rest)) (hcolon : (Text.trimLeft rest).head? = some ':') :
    Text.startsWith s "self." = false := by
  refine Bool.eq_false_iff.2 fun hself => ?_
  obtain ⟨w, rfl⟩ : ∃ w, s = 's' :: 'e' :: 'l' :: 'f' :: '.' :: w := by
    obtain ⟨w, hw⟩ := List.isPrefixOf_iff_prefix.1 hself
    exact ⟨w, hw.symm⟩
  have hword : isParameterStart 's' ∧ Unicode.isWord 'e' ∧ Unicode.isWord 'l' ∧ Unicode.isWord 'f' := by
    decide
  have hdot : Unicode.isWord '.' = false := by decide
  have hspace : Unicode.isSpace '.' = false := by decide
  have hself : parameterName ('s' :: 'e' :: 'l' :: 'f' :: '.' :: w) =
      some (['s', 'e', 'l', 'f'], '.' :: w) := by
    simp [parameterName, word, hword, hdot]
  obtain ⟨-, rfl⟩ := Prod.mk.inj (Option.some.inj (hname.symm.trans hself))
  simp [Text.trimLeft, hspace] at hcolon

theorem Entry.readNamed?_of_parameterName {e : Entry}
    (hheading : Heading.withColon? parameterName e.text = some h) :
    e.readNamed? = some (e.namedNote h Grammar.type contentOfName) := by
  obtain ⟨name, rest, hpart, hcolon⟩ := Heading.exists_of_withColon? hheading
  have hself := startsWith_self_of_parameterName hpart hcolon
  obtain ⟨c, w, htext, hc⟩ : ∃ c w, Text.trimLeft e.text = c :: w ∧ isParameterStart c = true := by
    cases htext : Text.trimLeft e.text with
    | nil => simp [htext, parameterName, word] at hpart
    | cons c w =>
      refine ⟨c, w, rfl, ?_⟩
      by_contra hc
      simp [htext, parameterName, word, hc] at hpart
  have hne {d : Char} (hd : isParameterStart d = false) : c ≠ d := by
    rintro rfl
    rw [hc] at hd
    cases hd
  rw [htext] at hself
  have hvariable := Heading.withColon?_eq_none
    (htext ▸ variableName_eq_none hself (hne (by decide)))
  have hblock := Heading.withColon?_eq_none (htext ▸ blockName_eq_none (w := w) (hne (by decide)))
  have hsplat := Heading.withColon?_eq_none (htext ▸ splatName_eq_none (w := w) (hne (by decide)))
  simp [readNamed?, hheading, hvariable, hblock, hsplat]

/-- `Entry.readNamed?` takes a name that is followed by a colon in one form only. -/
theorem Entry.exists_namedNote {e : Entry} {part : NamePart} {script : Script String}
    (hnaming : (part, script) ∈ namings) (hheading : Heading.withColon? part e.text = some h) :
    ∃ content, (∀ signature error named,
        (e.note signature error (content named)).named? = some named) ∧
      e.readNamed? = some (e.namedNote h script content) := by
  obtain ⟨name, rest, hpart, hcolon⟩ := Heading.exists_of_withColon? hheading
  have hvariable (hnone : variableName (Text.trimLeft e.text) = none) :=
    Heading.withColon?_eq_none hnone
  have hblock (hnone : blockName (Text.trimLeft e.text) = none) := Heading.withColon?_eq_none hnone
  have hsplat (hnone : splatName (Text.trimLeft e.text) = none) := Heading.withColon?_eq_none hnone
  generalize Text.trimLeft e.text = w at hpart hvariable hblock hsplat
  simp only [namings, List.mem_cons, Prod.mk.injEq, List.not_mem_nil, or_false] at hnaming
  rcases hnaming with ⟨rfl, rfl⟩ | ⟨rfl, rfl⟩ | ⟨rfl, rfl⟩ | ⟨rfl, rfl⟩
  · exact ⟨.objectVariable, fun _ _ _ => rfl, by simp [readNamed?, hheading]⟩
  · refine ⟨.block, fun _ _ _ => rfl, ?_⟩
    obtain ⟨w, rfl⟩ : ∃ w', w = '&' :: w' := by
      unfold blockName at hpart
      split at hpart
      · exact ⟨_, rfl⟩
      · cases hpart
    simp [readNamed?, hheading, hvariable (variableName_eq_none (by rfl) (by decide))]
  · refine ⟨.parameter, fun _ _ _ => rfl, ?_⟩
    obtain ⟨w, rfl⟩ : ∃ w', w = '*' :: w' := by
      cases w with
      | nil => simp [splatName] at hpart
      | cons c w =>
        by_cases hc : c = '*'
        · exact ⟨w, by rw [hc]⟩
        · rw [splatName_eq_none hc] at hpart
          cases hpart
    simp [readNamed?, hheading, hvariable (variableName_eq_none (by rfl) (by decide)),
      hblock (blockName_eq_none (by decide))]
  · exact ⟨contentOfName, fun _ _ _ => named?_contentOfName .., readNamed?_of_parameterName hheading⟩

end Headings

/-! ### Notes -/

theorem endsAt_of_mem_namings {part : NamePart} {script : Script String}
    (h : (part, script) ∈ namings) :
    script.EndsAt Kind.isIdle ∧ ∀ w, script.Picks w fun _ _ => True := by
  simp only [namings, List.mem_cons, Prod.mk.injEq, List.not_mem_nil, or_false] at h
  rcases h with ⟨-, rfl⟩ | ⟨-, rfl⟩ | ⟨-, rfl⟩ | ⟨-, rfl⟩
  · exact ⟨fun _ _ => sealed_type endsTypes_isIdle, fun _ => picks_type⟩
  · exact ⟨fun _ _ => sealed_blockSignature endsTypes_isIdle, fun _ => picks_blockSignature⟩
  · exact ⟨fun _ _ => sealed_type endsTypes_isIdle, fun _ => picks_type⟩
  · exact ⟨fun _ _ => sealed_type endsTypes_isIdle, fun _ => picks_type⟩

/-- **Any text whose first token can be read** may stand behind the type of a name, if it does not go
on with the type. The note has no error then, and the type that is read from the payload alone. In
front of a text whose first token cannot be read, the note has an error and no type. -/
theorem Entry.read?_named_lenient {e : Entry} (hkind : e.kind = .marked) {part : NamePart}
    {script : Script String} (hnaming : (part, script) ∈ namings) {h : Heading}
    (hheading : Heading.withColon? part e.text = some h) {blanks : Nat}
    {payload trailing : List Char} {type : String}
    (htext : e.text.drop h.stop = Text.blanks blanks ++ (payload ++ ' ' :: trailing))
    (hpayload : script.whole.answer (encode payload) = .ok type) (hend : EndsWithToken payload)
    (htrailing : EndsType trailing) :
    ∃ n named, e.read? = some n ∧ n.named? = some named ∧ named.name = h.name ∧
      (StartsWithToken trailing → n.error = none ∧ named.type = some type) ∧
      (¬ StartsWithToken trailing → n.error.isSome = true ∧ named.type = none) := by
  obtain ⟨content, hcontent, hnamed⟩ := exists_namedNote hnaming hheading
  obtain ⟨hends, hpicks⟩ := endsAt_of_mem_namings hnaming
  have hread : e.read? = some (e.namedNote h script content) := by
    simp [read?, hkind, readMarked?, hnamed]
  refine ⟨_, _, hread, hcontent _ _ _, rfl, ?_⟩
  have hbytes : e.blankedTo h.stop =
      Text.blanks (size (e.text.take h.stop) + blanks) ++ (payload ++ ' ' :: trailing) := by
    rw [blankedTo, htext, ← List.append_assoc, Text.blanks, Text.blanks, Text.blanks,
      List.replicate_append_replicate]
  have houtcome := readSignature_lenient hends hpicks hpayload hend htrailing
    (size (e.text.take h.stop) + blanks)
  rw [← hbytes] at houtcome
  constructor
  · intro hstarts
    simp [namedNote, note, houtcome.1 hstarts, error?, answer?]
  · intro hstarts
    obtain ⟨error, herror⟩ := houtcome.2 hstarts
    simp [namedNote, note, herror, error?, answer?]

/-- Prose behind a type and two blanks. -/
theorem read?_named_lenient_prose :
    let c : Ruby.Comment := ⟨"# @rbs *n: A | nil  may be -- \"".toList, 0, 30, 0, 30, 1, 0, false⟩
    let e := Marker.entry ⟨1, false⟩ c []
    e.kind = .marked ∧ Heading.withColon? splatName e.text = some ⟨1, ['*', 'n'], 4⟩ ∧
      e.text.drop 4 = Text.blanks 1 ++ ("A | nil".toList ++ ' ' :: " may be -- \"".toList) ∧
      Grammar.type.whole.answer (encode "A | nil".toList) = .ok "A | nil" ∧
      EndsWithToken "A | nil".toList ∧ EndsType " may be -- \"".toList ∧
      StartsWithToken " may be -- \"".toList ∧
      ∃ n named, e.read? = some n ∧ n.named? = some named ∧ named.name = ['*', 'n'] ∧
        n.error = none ∧ named.type = some "A | nil" := by
  intro c e
  have hkind : e.kind = .marked := by decide +kernel
  have hheading : Heading.withColon? splatName e.text = some ⟨1, ['*', 'n'], 4⟩ := by decide +kernel
  have htext : e.text.drop 4 = Text.blanks 1 ++ ("A | nil".toList ++ ' ' :: " may be -- \"".toList) := by
    decide +kernel
  have hpayload : Grammar.type.whole.answer (encode "A | nil".toList) = .ok "A | nil" := by
    decide +kernel
  have hend : EndsWithToken "A | nil".toList := by decide +kernel
  have htrailing : EndsType " may be -- \"".toList := by decide +kernel
  have hstarts : StartsWithToken " may be -- \"".toList := by decide +kernel
  obtain ⟨n, named, hread, hnamed, hname, hlenient, -⟩ := Entry.read?_named_lenient hkind
    (by simp [namings]) hheading htext hpayload hend htrailing
  exact ⟨hkind, hheading, htext, hpayload, hend, htrailing, hstarts, n, named, hread, hnamed, hname,
    hlenient hstarts⟩

/-- A remark after a long dash is no text that may stand behind a type: no token starts with the
dash. -/
theorem not_named_lenient_long_dash :
    let c : Ruby.Comment := ⟨"# @rbs n: Integer — the count".toList, 0, 28, 0, 30, 1, 0, false⟩
    let e := Marker.entry ⟨1, false⟩ c []
    let trailing := "— the count".toList
    e.kind = .marked ∧ Heading.withColon? parameterName e.text = some ⟨1, ['n'], 3⟩ ∧
      e.text.drop 3 = Text.blanks 1 ++ ("Integer".toList ++ ' ' :: trailing) ∧
      Grammar.type.whole.answer (encode "Integer".toList) = .ok "Integer" ∧
      EndsWithToken "Integer".toList ∧ EndsType trailing ∧
      ∃ n, e.read? = some n ∧ n.error = some ⟨.unexpectedCharacter '—', 18, 1⟩ ∧
        n.content = .parameter ⟨['n'], 7, none⟩ := by
  decide +kernel

end TypeNotes
