import TypeNotes.Proofs.Utf8
import TypeNotes.Signature.Stream

/-!
# Tokens of a text

A signature is read as bytes, but it is the bytes of a text, and its tokens are pieces of that text.

**Characters stay whole.** Only bytes below 128 mean anything to a pattern, or else all bytes from
128 on mean the same (`Pattern.keepsText`, a test that runs). Cutting the bytes of a text by such a
pattern is cutting the text (`Pattern.splitsText_split`).

**Places.** `Token.Stands text t` says that the token `t` is a piece of the text, or the end of it,
and `Error.Shown text e` that the error `e` shows at what it is about: a token, a quotation mark, a
character, or the end of the text. All tokens of a text stand in it, and the error that ends them,
if there is one, shows in it (`stands_tokensFrom`).
-/

namespace TypeNotes.Signature

open Utf8

/-! ### Bytes of characters -/

/-- The bytes from 128 on. -/
def highBytes : List UInt8 := (List.range 128).map fun n => UInt8.ofNat (n + 128)

/-- `highBytes` has all bytes from 128 on. -/
theorem mem_highBytes {b : UInt8} (h : 128 ≤ b.toNat) : b ∈ highBytes := by
  have hlt : b.toNat < 256 := b.toNat_lt
  refine List.mem_map.2 ⟨b.toNat - 128, List.mem_range.2 (by omega), ?_⟩
  rw [Nat.sub_add_cancel h, UInt8.ofNat_toNat]

/-- `byte` of a character below 128 is its code. -/
theorem toNat_byte {c : Char} (h : c.toNat < 128) : (byte c).toNat = c.toNat := by
  rw [byte, Char.toUInt8, UInt32.toNat_toUInt8]
  exact Nat.mod_eq_of_lt (Nat.lt_trans h (by decide))

/-- `Utf8.encode` gives one byte for a character below 128. -/
theorem encode_cons_of_lt {c : Char} (h : c.toNat < 128) (text : List Char) :
    encode (c :: text) = byte c :: encode text := by
  rw [encode_cons, encodeChar_of_lt h]
  rfl

/-- `Utf8.encode` gives bytes of 128 or more for any other character, at least one. -/
theorem encode_cons_of_le {c : Char} (h : 128 ≤ c.toNat) (text : List Char) :
    ∃ b bs, encode (c :: text) = b :: (bs ++ encode text) ∧ String.utf8EncodeChar c = b :: bs ∧
      128 ≤ b.toNat ∧ ∀ b' ∈ bs, 128 ≤ b'.toNat := by
  cases hbytes : String.utf8EncodeChar c with
  | nil => exact absurd hbytes (encodeChar_ne_nil c)
  | cons b bs =>
    have hhigh : ∀ b' ∈ b :: bs, 128 ≤ b'.toNat := fun b' hb' =>
      le_of_mem_encodeChar h (hbytes ▸ hb')
    refine ⟨b, bs, by rw [encode_cons, hbytes, List.cons_append], rfl, ?_, ?_⟩
    · exact hhigh b List.mem_cons_self
    · exact fun b' hb' => hhigh b' (List.mem_cons_of_mem _ hb')

/-! ### Cutting text by patterns -/

/-- The bytes of a text are cut where the text can be cut. -/
def SplitsText (text : List Char) (parts : List UInt8 × List UInt8) : Prop :=
  ∃ a b, text = a ++ b ∧ parts = (encode a, encode b)

/-- The empty text is cut off any text. -/
theorem SplitsText.nil (text : List Char) : SplitsText text ([], encode text) :=
  ⟨[], text, rfl, rfl⟩

/-- A character in front goes to the part that is cut off. -/
theorem SplitsText.cons {text : List Char} {lexeme rest : List UInt8}
    (h : SplitsText text (lexeme, rest)) (c : Char) :
    SplitsText (c :: text) (String.utf8EncodeChar c ++ lexeme, rest) := by
  obtain ⟨a, b, rfl, hparts⟩ := h
  obtain ⟨rfl, rfl⟩ := Prod.mk.inj hparts
  exact ⟨c :: a, b, rfl, rfl⟩

/-- A character below 128 in front goes to the part that is cut off, as its byte. -/
theorem SplitsText.cons_of_lt {text : List Char} {lexeme rest : List UInt8}
    (h : SplitsText text (lexeme, rest)) {c : Char} (hc : c.toNat < 128) :
    SplitsText (c :: text) (byte c :: lexeme, rest) := by
  have hcons := h.cons c
  rwa [encodeChar_of_lt hc] at hcons

/-- Whether a pattern cuts no character in two, as far as its parts tell. -/
def Pattern.keepsText : Pattern → Bool
  | exactly bytes => bytes.all fun b => b.toNat < 128
  | one among => highBytes.all fun b => !among b
  | many among => highBytes.all fun b => among b == among 128
  | quotation mark => mark.toNat < 128
  | notBefore _ => true
  | optional p => p.keepsText
  | andThen p q | orElse p q => p.keepsText && q.keepsText

namespace Pattern

/-- `splitExactly` cuts off fixed bytes below 128 between characters. -/
theorem splitsText_splitExactly {bytes : List UInt8} (hbytes : ∀ b ∈ bytes, b.toNat < 128)
    {text : List Char} {parts : List UInt8 × List UInt8}
    (h : splitExactly bytes (encode text) = some parts) : SplitsText text parts := by
  induction bytes generalizing text parts with
  | nil =>
    simp only [splitExactly, Option.some.injEq] at h
    exact h ▸ .nil text
  | cons a bytes ih =>
    cases text with
    | nil => simp [splitExactly] at h
    | cons c text =>
      rcases Nat.lt_or_ge c.toNat 128 with hc | hc
      · rw [encode_cons_of_lt hc, splitExactly] at h
        split at h
        · obtain ⟨⟨lexeme, rest⟩, hsplit, rfl⟩ := Option.map_eq_some_iff.1 h
          exact (ih (fun b hb => hbytes b (List.mem_cons_of_mem _ hb)) hsplit).cons_of_lt hc
        · cases h
      · -- No byte of a character of several bytes is one of these.
        obtain ⟨b, bs, hcons, -, hb, -⟩ := encode_cons_of_le hc text
        rw [hcons, splitExactly] at h
        have ha := hbytes a List.mem_cons_self
        split at h
        · rename_i heq
          rw [beq_iff_eq] at heq
          rw [heq] at ha
          omega
        · cases h

/-- For `splitQuotation`, a byte that is neither its mark nor a backslash stands for itself. -/
theorem splitQuotation_cons {mark b : UInt8} (hmark : b ≠ mark) (hslash : b ≠ byte '\\')
    (s : List UInt8) : splitQuotation mark (b :: s) =
      (splitQuotation mark s).map fun (inside, rest) => (b :: inside, rest) := by
  rw [splitQuotation.eq_def]
  simp [hmark, hslash]

/-- For `splitQuotation`, a backslash takes the next byte with it, unless this ends the line. -/
theorem splitQuotation_escape {mark : UInt8} (hmark : byte '\\' ≠ mark) (b : UInt8)
    (s : List UInt8) : splitQuotation mark (byte '\\' :: b :: s) =
      if b == byte '\n' then none
      else (splitQuotation mark s).map fun (inside, rest) => (byte '\\' :: b :: inside, rest) := by
  rw [splitQuotation.eq_def]
  simp [hmark]

/-- Bytes that are neither the closing mark nor a backslash are inside of the quotation. -/
theorem splitQuotation_append {mark : UInt8} (hmark : mark.toNat < 128) {bs : List UInt8}
    (hbs : ∀ b ∈ bs, 128 ≤ b.toNat) (s : List UInt8) :
    splitQuotation mark (bs ++ s) =
      (splitQuotation mark s).map fun (inside, rest) => (bs ++ inside, rest) := by
  induction bs with
  | nil => simp
  | cons b bs ih =>
    have hb := hbs b List.mem_cons_self
    have hne : b ≠ mark := by
      rintro rfl
      omega
    have hslash : b ≠ byte '\\' := by
      rintro rfl
      exact absurd hb (by decide)
    rw [List.cons_append, splitQuotation_cons hne hslash,
      ih fun b' hb' => hbs b' (List.mem_cons_of_mem _ hb')]
    simp [Function.comp_def]

/-- `splitQuotation` cuts off a quotation with a mark below 128 between characters. -/
theorem splitsText_splitQuotation {mark : UInt8} (hmark : mark.toNat < 128)
    {text : List Char} {parts : List UInt8 × List UInt8}
    (h : splitQuotation mark (encode text) = some parts) : SplitsText text parts := by
  induction hlen : text.length using Nat.strongRecOn generalizing text parts with
  | ind n ih =>
    subst hlen
    cases text with
    | nil => simp [splitQuotation] at h
    | cons c text =>
      rcases Nat.lt_or_ge c.toNat 128 with hc | hc
      · rw [encode_cons_of_lt hc] at h
        by_cases hclose : byte c = mark
        · rw [splitQuotation.eq_def] at h
          simp only [hclose, BEq.rfl, if_true, Option.some.injEq] at h
          rw [← h, ← hclose]
          exact (SplitsText.nil text).cons_of_lt hc
        by_cases hslash : byte c = byte '\\'
        · -- The character behind the backslash comes along with it.
          rw [hslash] at hclose h
          cases text with
          | nil =>
            rw [splitQuotation.eq_def] at h
            simp [hclose] at h
          | cons d text =>
            have hlt : text.length < (c :: d :: text).length := by
              simp only [List.length_cons]
              omega
            rcases Nat.lt_or_ge d.toNat 128 with hd | hd
            · rw [encode_cons_of_lt hd, splitQuotation_escape hclose] at h
              split at h
              · cases h
              · obtain ⟨⟨inside, rest⟩, hsplit, rfl⟩ := Option.map_eq_some_iff.1 h
                rw [← hslash]
                exact ((ih _ hlt hsplit rfl).cons_of_lt hd).cons_of_lt hc
            · -- The escaped byte is the first of several, and the others are inside as they are.
              obtain ⟨b, bs, hcons, hbytes, hb, hbs⟩ := encode_cons_of_le hd text
              rw [hcons, splitQuotation_escape hclose, splitQuotation_append hmark hbs] at h
              split at h
              · cases h
              · obtain ⟨_, hmap, rfl⟩ := Option.map_eq_some_iff.1 h
                obtain ⟨⟨inside, rest⟩, hsplit, rfl⟩ := Option.map_eq_some_iff.1 hmap
                have hparts := ((ih _ hlt hsplit rfl).cons d).cons_of_lt hc
                rwa [hbytes, hslash] at hparts
        · rw [splitQuotation_cons hclose hslash] at h
          obtain ⟨⟨inside, rest⟩, hsplit, rfl⟩ := Option.map_eq_some_iff.1 h
          exact (ih _ (by simp) hsplit rfl).cons_of_lt hc
      · rw [encode_cons, splitQuotation_append hmark fun b hb => le_of_mem_encodeChar hc hb] at h
        obtain ⟨⟨inside, rest⟩, hsplit, rfl⟩ := Option.map_eq_some_iff.1 h
        exact (ih _ (by simp) hsplit rfl).cons c

/-- A run of bytes is cut off between characters if all bytes from 128 on are in its class, or none.
-/
theorem splitsText_many {among : UInt8 → Bool}
    (hhigh : ∀ b : UInt8, 128 ≤ b.toNat → among b = among 128) (text : List Char) :
    SplitsText text ((encode text).takeWhile among, (encode text).dropWhile among) := by
  induction text with
  | nil => exact .nil []
  | cons c text ih =>
    -- The first byte decides for all bytes of the character.
    have hstop : ∀ b s, encode (c :: text) = b :: s → among b = false →
        SplitsText (c :: text)
          ((encode (c :: text)).takeWhile among, (encode (c :: text)).dropWhile among) := by
      intro b s hcons hb
      rw [hcons, List.takeWhile_cons_of_neg (by simp [hb]), List.dropWhile_cons_of_neg (by simp [hb]),
        ← hcons]
      exact .nil _
    have hgo : (∀ b ∈ String.utf8EncodeChar c, among b = true) →
        SplitsText (c :: text)
          ((encode (c :: text)).takeWhile among, (encode (c :: text)).dropWhile among) := by
      intro hall
      rw [encode_cons, List.takeWhile_append_of_pos hall, List.dropWhile_append_of_pos hall]
      exact ih.cons c
    rcases Nat.lt_or_ge c.toNat 128 with hc | hc
    · cases hb : among (byte c) with
      | false => exact hstop _ _ (encode_cons_of_lt hc text) hb
      | true =>
        refine hgo fun b hmem => ?_
        rw [encodeChar_of_lt hc, List.mem_singleton] at hmem
        rw [hmem, hb]
    · obtain ⟨b, bs, hcons, hbytes, hb, hbs⟩ := encode_cons_of_le hc text
      cases hclass : among 128 with
      | false => exact hstop b _ hcons (by rw [hhigh b hb, hclass])
      | true => exact hgo fun b' hb' => by rw [hhigh b' (le_of_mem_encodeChar hc hb'), hclass]

/-- A pattern that keeps text (`Pattern.keepsText`) cuts the bytes of a text where the text can be
cut. -/
theorem splitsText_split {p : Pattern} (hp : p.keepsText = true) {text : List Char}
    {parts : List UInt8 × List UInt8} (h : p.split (encode text) = some parts) :
    SplitsText text parts := by
  induction p generalizing text parts with
  | exactly bytes => exact splitsText_splitExactly (by simpa [keepsText] using hp) h
  | one among =>
    cases text with
    | nil => simp [split] at h
    | cons c text =>
      rcases Nat.lt_or_ge c.toNat 128 with hc | hc
      · rw [encode_cons_of_lt hc, split] at h
        split at h
        · cases h
          exact (SplitsText.nil text).cons_of_lt hc
        · cases h
      · obtain ⟨b, bs, hcons, -, hb, -⟩ := encode_cons_of_le hc text
        have hnot := List.all_eq_true.1 hp b (mem_highBytes hb)
        rw [hcons, split, if_neg (by simpa using hnot)] at h
        cases h
  | many among =>
    simp only [split, Option.some.injEq] at h
    rw [← h]
    refine splitsText_many (fun b hb => ?_) text
    simpa using List.all_eq_true.1 hp b (mem_highBytes hb)
  | quotation mark => exact splitsText_splitQuotation (by simpa [keepsText] using hp) h
  | notBefore b =>
    rw [split] at h
    split at h
    · cases h
    · cases h
      exact .nil text
  | optional p ih =>
    rw [split] at h
    cases hsplit : p.split (encode text) with
    | none =>
      simp only [hsplit, Option.getD_none, Option.some.injEq] at h
      exact h ▸ .nil text
    | some parts' =>
      simp only [hsplit, Option.getD_some, Option.some.injEq] at h
      exact h ▸ ih hp hsplit
  | andThen p q ihp ihq =>
    obtain ⟨hp, hq⟩ := Bool.and_eq_true_iff.1 hp
    rw [split] at h
    cases hfirst : p.split (encode text) with
    | none => simp [hfirst] at h
    | some first =>
      obtain ⟨a, b, rfl, rfl⟩ := ihp hp hfirst
      rw [hfirst] at h
      obtain ⟨second, hsecond, rfl⟩ := Option.map_eq_some_iff.1 h
      obtain ⟨a', b', rfl, rfl⟩ := ihq hq hsecond
      exact ⟨a ++ a', b', (List.append_assoc ..).symm, by simp⟩
  | orElse p q ihp ihq =>
    obtain ⟨hp, hq⟩ := Bool.and_eq_true_iff.1 hp
    rw [split] at h
    rcases Option.or_eq_some_iff.1 h with h | ⟨-, h⟩
    · exact ihp hp h
    · exact ihq hq h

end Pattern

/-- None of `Spelling.all` cuts a character in two. -/
theorem Spelling.keepsText_of_mem {spelling : Spelling} (h : spelling ∈ Spelling.all) :
    spelling.pattern.keepsText = true := by
  have hall : Spelling.all.all (·.pattern.keepsText) = true := by decide +kernel
  exact List.all_eq_true.1 hall spelling h

/-- Words are not the end of input. -/
theorem Kind.ofWord_ne_endOfInput (word : String) : Kind.ofWord word ≠ .endOfInput := by
  rw [Kind.ofWord]
  split <;> simp

/-- No lexeme is the end of input. -/
theorem Spelling.kind_ne_endOfInput {spelling : Spelling} (h : spelling ∈ Spelling.all)
    (lexeme : String) : spelling.kind lexeme ≠ .endOfInput := by
  simp only [Spelling.all, List.mem_cons, List.not_mem_nil, or_false] at h
  rcases h with rfl | rfl | rfl | rfl | rfl | rfl | rfl | rfl | rfl | rfl | rfl | rfl | rfl | rfl |
    rfl | rfl | rfl | rfl
  all_goals simp [Spelling.tag, Spelling.operator, Spelling.ofMark, Spelling.lowerKey,
    Spelling.upperKey, Spelling.symbol, Spelling.instanceVariable, Spelling.globalVariable,
    Spelling.interfaceName, Spelling.upperName, Spelling.lowerName, Spelling.integer,
    Spelling.string, Spelling.mark, Kind.ofWord_ne_endOfInput]

/-- `splitLexeme` cuts between characters, by one of the spellings. -/
theorem splitsText_splitLexeme {text : List Char} {spelling : Spelling}
    {lexeme rest : List UInt8} (h : splitLexeme (encode text) = some (spelling, lexeme, rest)) :
    spelling ∈ Spelling.all ∧ SplitsText text (lexeme, rest) := by
  obtain ⟨spelling', hmem, hsplit⟩ := List.exists_of_findSome?_eq_some h
  obtain ⟨parts, hparts, heq⟩ := Option.map_eq_some_iff.1 hsplit
  cases heq
  exact ⟨hmem, Pattern.splitsText_split (Spelling.keepsText_of_mem hmem) hparts⟩

/-! ### Gaps -/

/-- Characters between tokens. -/
def isBlankCharacter (c : Char) : Bool := c == ' ' || c == '\t' || c == '\r' || c == '\n'

/-- In a comment `splitGap` takes all bytes that are no line ends. -/
theorem splitGap_append_high {bs : List UInt8} (hbs : ∀ b ∈ bs, 128 ≤ b.toNat) (s : List UInt8) :
    splitGap true (bs ++ s) = (bs ++ (splitGap true s).1, (splitGap true s).2) := by
  induction bs with
  | nil => rfl
  | cons b bs ih =>
    have hb := hbs b List.mem_cons_self
    have hne : b ≠ byte '\n' := by
      rintro rfl
      exact absurd hb (by decide)
    rw [List.cons_append, splitGap, if_pos rfl, bne_iff_ne.2 hne,
      ih fun b' hb' => hbs b' (List.mem_cons_of_mem _ hb')]
    rfl

/-- `splitGap` cuts between characters. -/
theorem splitsText_splitGap (inComment : Bool) (text : List Char) :
    SplitsText text (splitGap inComment (encode text)) := by
  induction text generalizing inComment with
  | nil => exact .nil []
  | cons c text ih =>
    rcases Nat.lt_or_ge c.toNat 128 with hc | hc
    · rw [encode_cons_of_lt hc, splitGap]
      split
      · exact (ih _).cons_of_lt hc
      split
      · exact (ih _).cons_of_lt hc
      · rw [← encode_cons_of_lt hc]
        exact .nil _
    · obtain ⟨b, bs, hcons, hbytes, hb, hbs⟩ := encode_cons_of_le hc text
      cases inComment with
      | true =>
        rw [encode_cons, splitGap_append_high fun b hb => le_of_mem_encodeChar hc hb]
        exact (ih true).cons c
      | false =>
        -- Outside of comments the gap ends here: the byte is neither a blank nor a hash sign.
        have hne : ∀ d : Char, d.toNat < 128 → b ≠ byte d := by
          rintro d hd rfl
          rw [toNat_byte hd] at hb
          omega
        rw [hcons, splitGap, if_neg (by simp), if_neg ?_, ← hcons]
        · exact .nil _
        · simp [isBlank, hne]

/-- What `splitGap` leaves does not start with a gap. -/
theorem splitGap_snd (inComment : Bool) (s : List UInt8) :
    ∀ b ∈ (splitGap inComment s).2.head?, isBlank b = false := by
  induction s generalizing inComment with
  | nil => simp [splitGap]
  | cons b s ih =>
    rw [splitGap]
    split
    · exact ih _
    split
    · exact ih _
    · rename_i hgap
      simp at hgap ⊢
      exact hgap.1

/-! ### Tokens and errors in a text -/

/-- The token is the end of the text, or a piece of it that starts with no blank. -/
inductive Token.Stands (text : List Char) : Token → Prop
  | end_ : Stands text (Token.eof (size text))
  | lexeme {before after : List Char} {c : Char} {more : List Char} {kind : Kind} :
      text = before ++ (c :: more ++ after) → isBlankCharacter c = false → kind ≠ .endOfInput →
      Stands text ⟨kind, String.ofList (c :: more), size before, size before + size (c :: more)⟩

/-- The error shows at what it is about, and at as many bytes as that has. Of an unexpected
character one byte is shown, however many it has. -/
inductive Error.Shown (text : List Char) : Error → Prop
  | end_ (expected : String) : Shown text ⟨.unexpectedEnd expected, size text, 0⟩
  | token {before after : List Char} {c : Char} {more : List Char} (expected : String) :
      text = before ++ (c :: more ++ after) → isBlankCharacter c = false →
      Shown text ⟨.unexpectedToken (String.ofList (c :: more)) expected, size before,
        size (c :: more)⟩
  | quotation {before after : List Char} {c : Char} :
      text = before ++ c :: after → c = '"' ∨ c = '\'' →
      Shown text ⟨.unterminatedString, size before, size (c :: after)⟩
  | character {before after : List Char} {c : Char} :
      text = before ++ c :: after → isBlankCharacter c = false →
      Shown text ⟨.unexpectedCharacter c, size before, 1⟩

/-- A token that stands in a text (`Token.Stands`) and is not expected shows there. -/
theorem Token.Stands.shown {text : List Char} {t : Token} (h : t.Stands text)
    (expected : String) : (t.unexpected expected).Shown text := by
  cases h with
  | end_ => exact .end_ expected
  | @lexeme before after c more kind htext hc hkind =>
    have hend : (Token.mk kind (String.ofList (c :: more)) (size before)
        (size before + size (c :: more))).isEnd = false := by
      simpa [Token.isEnd] using hkind
    rw [Token.unexpected, if_neg (by rw [hend]; exact Bool.false_ne_true)]
    simp only [Nat.add_sub_cancel_left]
    exact .token expected htext hc

/-- A text whose first byte is no blank does not start with a blank character. -/
theorem isBlankCharacter_of_byte {c : Char} {text : List Char} {b : UInt8} {s : List UInt8}
    (h : encode (c :: text) = b :: s) (hb : isBlank b = false) : isBlankCharacter c = false := by
  cases hc : isBlankCharacter c with
  | false => rfl
  | true =>
    simp only [isBlankCharacter, Bool.or_eq_true, beq_iff_eq] at hc
    rcases hc with ((rfl | rfl) | rfl) | rfl
    all_goals
      rw [encode_cons_of_lt (by decide)] at h
      obtain ⟨rfl, -⟩ := List.cons.inj h
      cases hb

/-- A byte below 128 is a character by itself. -/
theorem eq_of_encode_cons {c d : Char} {text : List Char} {s : List UInt8} (hd : d.toNat < 128)
    (h : encode (c :: text) = byte d :: s) : c = d := by
  rcases Nat.lt_or_ge c.toNat 128 with hc | hc
  · rw [encode_cons_of_lt hc] at h
    have hbyte := congrArg UInt8.toNat (List.cons.inj h).1
    rw [toNat_byte hc, toNat_byte hd] at hbyte
    exact Char.toNat_inj.1 hbyte
  · obtain ⟨b, bs, hcons, -, hb, -⟩ := encode_cons_of_le hc text
    rw [hcons] at h
    rw [(List.cons.inj h).1, toNat_byte hd] at hb
    omega

/-- A text with a character has a byte. -/
theorem exists_encode_cons (c : Char) (text : List Char) : ∃ b s, encode (c :: text) = b :: s := by
  rcases Nat.lt_or_ge c.toNat 128 with hc | hc
  · exact ⟨_, _, encode_cons_of_lt hc text⟩
  · obtain ⟨b, bs, hcons, -⟩ := encode_cons_of_le hc text
    exact ⟨b, _, hcons⟩

/-- A text is a gap and what follows it, which starts with no blank. -/
theorem exists_gap (text : List Char) : ∃ gap text', text = gap ++ text' ∧
    splitGap false (encode text) = (encode gap, encode text') ∧
    ∀ c ∈ text'.head?, isBlankCharacter c = false := by
  obtain ⟨gap, text', rfl, hgap⟩ := splitsText_splitGap false text
  refine ⟨gap, text', rfl, hgap, fun c hc => ?_⟩
  have hhead := splitGap_snd false (encode (gap ++ text'))
  rw [hgap] at hhead
  cases text' with
  | nil => cases hc
  | cons d text' =>
    obtain ⟨b, s, hcons⟩ := exists_encode_cons d text'
    obtain rfl : d = c := by simpa using hc
    exact isBlankCharacter_of_byte hcons (hhead b (by simp [hcons]))

/-- Reading a token of a text: the token stands in the text, and the rest is a rest of the text. -/
theorem Token.stands_of_read {before text : List Char} {t : Token} {rest : List UInt8}
    (h : Token.read (size before) (encode text) = .ok (t, rest)) :
    t.Stands (before ++ text) ∧
      ∃ a b, text = a ++ b ∧ rest = encode b ∧ t.stop = size (before ++ a) := by
  obtain ⟨gap, text', rfl, hgap, hblank⟩ := exists_gap text
  simp only [Token.read, hgap, length_encode] at h
  cases text' with
  | nil =>
    obtain ⟨rfl, rfl⟩ : Token.eof (size before + size gap) = t ∧ [] = rest := by simpa using h
    rw [List.append_nil, ← size_append]
    exact ⟨.end_, gap, [], by simp, rfl, rfl⟩
  | cons c text' =>
    obtain ⟨b, s, hcons⟩ := exists_encode_cons c text'
    simp only [hcons] at h
    rw [← hcons] at h
    split at h
    · rename_i spelling lexeme rest' hlexeme
      obtain ⟨hmem, x, y, hxy, hparts⟩ := splitsText_splitLexeme hlexeme
      obtain ⟨rfl, rfl⟩ := Prod.mk.inj hparts
      obtain ⟨rfl, rfl⟩ : _ = t ∧ _ = rest := by simpa using h
      -- The lexeme is not empty, so it starts with the character after the gap.
      have hne : x ≠ [] := by
        rintro rfl
        exact (splitLexeme_spec hlexeme).2 rfl
      obtain ⟨d, more, rfl⟩ := List.exists_cons_of_ne_nil hne
      obtain ⟨rfl, rfl⟩ : c = d ∧ text' = more ++ y := by simpa using hxy
      refine ⟨?_, gap ++ c :: more, y, by simp, rfl, ?_⟩
      · have htext : before ++ (gap ++ c :: (more ++ y)) = (before ++ gap) ++ (c :: more ++ y) := by
          simp
        rw [text_encode, ← size_append]
        exact .lexeme htext (hblank c rfl) (Spelling.kind_ne_endOfInput hmem _)
      · simp only [size_append, Nat.add_assoc]
    · split at h <;> cases h

/-- What cannot be read as a token shows where it is. -/
theorem Token.shown_of_read {before text : List Char} {e : Error}
    (h : Token.read (size before) (encode text) = .error e) : e.Shown (before ++ text) := by
  obtain ⟨gap, text', rfl, hgap, hblank⟩ := exists_gap text
  simp only [Token.read, hgap, length_encode] at h
  cases text' with
  | nil => simp at h
  | cons c text' =>
    obtain ⟨b, bs, hbytes, length, hread⟩ := readOne_encodeChar c (encode text')
    have hcons : encode (c :: text') = b :: (bs ++ encode text') := by
      rw [encode_cons, hbytes, List.cons_append]
    have htext : before ++ (gap ++ c :: text') = (before ++ gap) ++ c :: text' := by simp
    simp only [hcons] at h
    rw [← size_append, htext] at *
    split at h
    · cases h
    split at h
    · rename_i hquote
      cases h
      have hlength : (bs ++ encode text').length + 1 = size (c :: text') := by
        rw [← length_encode, hcons, List.length_cons]
      rw [hlength]
      refine .quotation rfl ?_
      rcases Bool.or_eq_true_iff.1 hquote with hb | hb
      · rw [beq_iff_eq.1 hb] at hcons
        exact .inl (eq_of_encode_cons (by decide) hcons)
      · rw [beq_iff_eq.1 hb] at hcons
        exact .inr (eq_of_encode_cons (by decide) hcons)
    · cases h
      rw [firstCharacter, hread]
      exact .character rfl (hblank c rfl)

/-- All tokens of a text stand in it, and so does what ends them. -/
theorem stands_tokensFrom (before text : List Char) :
    (∀ t ∈ (tokensFrom (size before) (encode text)).1, t.Stands (before ++ text)) ∧
      (∀ t, (tokensFrom (size before) (encode text)).2 = .ok t → t.Stands (before ++ text)) ∧
      ∀ e, (tokensFrom (size before) (encode text)).2 = .error e → e.Shown (before ++ text) := by
  induction hlen : (encode text).length using Nat.strongRecOn generalizing before text with
  | ind n ih =>
    subst hlen
    rw [tokensFrom]
    split
    · rename_i e hread
      refine ⟨by simp, by simp, fun e' he' => ?_⟩
      obtain rfl : e = e' := by simpa using he'
      exact Token.shown_of_read hread
    · rename_i t rest hread
      obtain ⟨hstands, a, b, rfl, rfl, hstop⟩ := Token.stands_of_read hread
      split
      · refine ⟨by simp, fun t' ht' => ?_, by simp⟩
        obtain rfl : t = t' := by simpa using ht'
        exact hstands
      · -- The token and the gap before it go to what stands before the rest.
        rename_i hend
        have hlt := Token.length_rest_lt_of_read hread (by simpa using hend)
        have hrest := ih _ hlt (before ++ a) b rfl
        rw [← hstop, List.append_assoc] at hrest
        refine ⟨fun t' ht' => ?_, hrest.2⟩
        rcases List.mem_cons.1 ht' with rfl | ht'
        · exact hstands
        · exact hrest.1 t' ht'

end TypeNotes.Signature
