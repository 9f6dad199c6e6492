import TypeNotes.Proofs.Signature.Lexing
import TypeNotes.Proofs.Signature.Lookahead
import TypeNotes.Span

/-!
# Tokens and gaps make up a signature

Taking tokens from a signature, one after another, uses up its bytes: each byte belongs to one token
or to one gap, up to the end of input or to the byte at which no token can be read. This holds of
all byte strings, whether they are text or not.

**Gaps.** A gap is made of blanks and of comments that run to the end of their line (`IsGap`). What
stands between two tokens is one (`isGap_splitGap`).

**One token.** `Token.Reads` lists what reading the next token can come to: the end of input, a
token spelled by the bytes after the gap, or an error at a byte that no spelling fits
(`Token.reads_read`).

**All tokens.** By induction along the tokens, the signature is gaps and tokens in turn (`Tiled`),
and from this follow the order of the tokens and that no byte is lost or read twice.
`Cursor.Delivers` is the run of a cursor that takes token after token; it comes to an end, and what
it delivers partitions the signature (`delivers_partition`).
-/

namespace TypeNotes.Signature

/-! ### Gaps -/

/-- The bytes of a gap in front of other bytes: blanks, and comments that run to the end of their
line, which is a line feed or the end of the signature. -/
inductive IsGap : List UInt8 → List UInt8 → Prop
  | nil (after : List UInt8) : IsGap [] after
  | blank {b : UInt8} {gap after : List UInt8} : isBlank b = true → IsGap gap after →
      IsGap (b :: gap) after
  | comment {words gap after : List UInt8} : byte '\n' ∉ words →
      (∀ b ∈ (gap ++ after).head?, b = byte '\n') → IsGap gap after →
      IsGap (byte '#' :: (words ++ gap)) after

/-- What `splitGap` cuts off in front of a token is a gap. Inside a comment the rest of the comment
comes first. -/
theorem isGap_splitGap_both (s : List UInt8) :
    IsGap (splitGap false s).1 (splitGap false s).2 ∧
      ∃ words gap, (splitGap true s).1 = words ++ gap ∧ byte '\n' ∉ words ∧
        (∀ b ∈ (gap ++ (splitGap true s).2).head?, b = byte '\n') ∧
        IsGap gap (splitGap true s).2 := by
  induction s with
  | nil => exact ⟨.nil [], [], [], rfl, by simp, by simp [splitGap], .nil []⟩
  | cons b s ih =>
    obtain ⟨houtside, words, gap, hparts, hwords, hend, hgap⟩ := ih
    constructor
    · rw [splitGap, if_neg Bool.false_ne_true]
      by_cases hhash : b = byte '#'
      · rw [if_pos (by simp [hhash]), beq_iff_eq.2 hhash, hhash]
        have hcomment := IsGap.comment hwords hend hgap
        rwa [← hparts] at hcomment
      · rw [beq_eq_false_iff_ne.2 hhash, Bool.or_false]
        split
        · rename_i hblank
          exact .blank hblank houtside
        · exact .nil _
    · rw [splitGap, if_pos rfl]
      by_cases hline : b = byte '\n'
      · -- The line feed ends the comment and is a blank itself.
        rw [hline, bne_self_eq_false]
        exact ⟨[], _, rfl, by simp, by simp, .blank (by decide) houtside⟩
      · rw [bne_iff_ne.2 hline]
        refine ⟨b :: words, gap, congrArg (b :: ·) hparts, ?_, hend, hgap⟩
        rw [List.mem_cons, not_or]
        exact ⟨Ne.symm hline, hwords⟩

/-- `splitGap` cuts off a gap. -/
theorem isGap_splitGap (s : List UInt8) : IsGap (splitGap false s).1 (splitGap false s).2 :=
  (isGap_splitGap_both s).1

/-! ### One token -/

/-- The bytes that are tokens by themselves. -/
def marks : List UInt8 := "()[]\x7b\x7d,|&^?*:<>=.!+-/%~".toList.map byte

/-- No token can be read where the byte `b` stands in front of `rest`. A quotation mark is an error
to the end of the signature, and any other byte is one by itself. -/
inductive Refuses (b : UInt8) (rest : List UInt8) : Error → Prop
  | quotation {offset : Nat} : b = byte '"' ∨ b = byte '\'' →
      Spelling.string.pattern.split (b :: rest) = none →
      Refuses b rest ⟨.unterminatedString, offset, rest.length + 1⟩
  | character {offset : Nat} : b ≠ byte '"' → b ≠ byte '\'' →
      b ∉ marks →
      (∀ spelling ∈ Spelling.all, spelling.pattern.split (b :: rest) = none) →
      Refuses b rest ⟨.unexpectedCharacter (Token.firstCharacter b rest), offset, 1⟩

/-- What reading a token from `s`, which is `offset` bytes into the signature, can come to. -/
inductive Token.Reads (offset : Nat) : List UInt8 → Except Error (Token × List UInt8) → Prop
  | endOfInput {gap : List UInt8} : IsGap gap [] →
      Reads offset gap (.ok (eof (offset + gap.length), []))
  | lexeme {gap lexeme rest : List UInt8} {spelling : Spelling} {t : Token} :
      IsGap gap (lexeme ++ rest) → lexeme ≠ [] →
      splitLexeme (lexeme ++ rest) = some (spelling, lexeme, rest) →
      t = ⟨spelling.kind (Utf8.text lexeme), Utf8.text lexeme, offset + gap.length,
        offset + gap.length + lexeme.length⟩ → t.isEnd = false →
      Reads offset (gap ++ (lexeme ++ rest)) (.ok (t, rest))
  | refused {gap rest : List UInt8} {b : UInt8} {e : Error} : IsGap gap (b :: rest) →
      Refuses b rest e → e.offset = offset + gap.length →
      Reads offset (gap ++ b :: rest) (.error e)

/-- A lexeme is cut off by the spelling it comes with, which is one of `Spelling.all`. -/
theorem exists_of_splitLexeme {s lexeme rest : List UInt8} {spelling : Spelling}
    (h : splitLexeme s = some (spelling, lexeme, rest)) : spelling ∈ Spelling.all ∧
      spelling.pattern.split s = some (lexeme, rest) := by
  obtain ⟨spelling', hmem, hsplit⟩ := List.exists_of_findSome?_eq_some h
  obtain ⟨parts, hparts, heq⟩ := Option.map_eq_some_iff.1 hsplit
  cases heq
  exact ⟨hmem, hparts⟩

/-- Where `splitLexeme` cuts nothing off, no spelling fits. -/
theorem split_eq_none_of_splitLexeme {s : List UInt8} (h : splitLexeme s = none)
    {spelling : Spelling} (hmem : spelling ∈ Spelling.all) : spelling.pattern.split s = none :=
  Option.map_eq_none_iff.1 (List.findSome?_eq_none_iff.1 h spelling hmem)

/-- Quoted strings are among the spellings. -/
theorem Spelling.string_mem_all : Spelling.string ∈ Spelling.all :=
  List.mem_of_getElem? (i := 16) rfl

/-- Marks are among the spellings. -/
theorem Spelling.mark_mem_all : Spelling.mark ∈ Spelling.all :=
  List.mem_of_getElem? (i := 17) rfl

/-- A mark of one character is a token wherever it stands. -/
theorem not_mem_marks_of_splitLexeme {b : UInt8} {rest : List UInt8}
    (h : splitLexeme (b :: rest) = none) : b ∉ marks := by
  have hnone : Spelling.mark.pattern.split (b :: rest) = none :=
    split_eq_none_of_splitLexeme h Spelling.mark_mem_all
  simp only [Spelling.mark, Pattern.oneOf, Pattern.split] at hnone
  split at hnone
  · cases hnone
  · rename_i hmem
    rwa [List.contains_iff_mem] at hmem

/-- `Token.read` takes a gap, and then the end of input, a token or an error that fits what stands
there. -/
theorem Token.reads_read (offset : Nat) (s : List UInt8) :
    Reads offset s (Token.read offset s) := by
  have hgap := isGap_splitGap s
  have hparts := splitGap_append false s
  unfold Token.read
  rcases hsplit : splitGap false s with ⟨gap, tail⟩
  rw [hsplit] at hgap hparts
  simp only at hgap hparts ⊢
  rw [← hparts]
  cases tail with
  | nil =>
    rw [List.append_nil]
    exact .endOfInput hgap
  | cons b tail =>
    simp only
    split
    · rename_i spelling lexeme rest hlexeme
      obtain ⟨heq, hne⟩ := splitLexeme_spec hlexeme
      have hkind := Spelling.kind_ne_endOfInput (exists_of_splitLexeme hlexeme).1
      rw [heq] at hgap hlexeme ⊢
      refine .lexeme hgap hne hlexeme rfl ?_
      rw [isEnd, beq_eq_false_iff_ne]
      exact hkind _
    · rename_i hlexeme
      have hnone : ∀ spelling ∈ Spelling.all, spelling.pattern.split (b :: tail) = none :=
        fun _ hmem => split_eq_none_of_splitLexeme hlexeme hmem
      split
      · rename_i hquote
        rw [Bool.or_eq_true, beq_iff_eq, beq_iff_eq] at hquote
        exact .refused hgap (.quotation hquote (hnone _ Spelling.string_mem_all)) rfl
      · rename_i hquote
        rw [Bool.or_eq_true, beq_iff_eq, beq_iff_eq, not_or] at hquote
        have hmark := not_mem_marks_of_splitLexeme hlexeme
        exact .refused hgap (.character hquote.1 hquote.2 hmark hnone) rfl

/-! ### Tokens and gaps in turn -/

/-- The bytes of a signature from one place to another. -/
def slice (data : List UInt8) (start stop : Nat) : List UInt8 := (data.take stop).drop start

/-- The bytes between two places are a gap. -/
structure GapAt (data : List UInt8) (start stop : Nat) : Prop where
  start_le : start ≤ stop
  stop_le : stop ≤ data.length
  isGap : IsGap (slice data start stop) (data.drop stop)

/-- A token is what the first spelling that fits takes at the place of the token, and its text is
that of these bytes. -/
structure Token.Covers (data : List UInt8) (t : Token) : Prop where
  start_lt : t.start < t.stop
  stop_le : t.stop ≤ data.length
  text : t.text = Utf8.text (slice data t.start t.stop)
  spelled : ∃ spelling, t.kind = spelling.kind t.text ∧ splitLexeme (data.drop t.start) =
    some (spelling, slice data t.start t.stop, data.drop t.stop)

/-- From one place of a signature to another, gaps and tokens take turns. -/
inductive Tiled (data : List UInt8) : Nat → List Token → Nat → Prop
  | gap {start stop : Nat} : GapAt data start stop → Tiled data start [] stop
  | token {start stop : Nat} {t : Token} {tokens : List Token} : GapAt data start t.start →
      t.Covers data → Tiled data t.stop tokens stop → Tiled data start (t :: tokens) stop

/-- Where tokens end. -/
def placeOf : Except Error Token → Nat
  | .ok t => t.start
  | .error e => e.offset

/-- What can end the tokens of a signature: the end of input, behind all bytes, or an error at a
byte where no token can be read. -/
inductive Ends (data : List UInt8) : Except Error Token → Prop
  | endOfInput : Ends data (.ok (Token.eof data.length))
  | refused {b : UInt8} {rest : List UInt8} {e : Error} : data.drop e.offset = b :: rest →
      Refuses b rest e → Ends data (.error e)

/-- `slice` from the start to the end of a piece of bytes is the piece. -/
theorem slice_append (before piece after : List UInt8) :
    slice (before ++ (piece ++ after)) before.length (before.length + piece.length) = piece := by
  simp [slice, List.take_append, List.take_of_length_le]

/-- Behind the end of a piece stands what follows it. -/
theorem drop_append_piece (before piece after : List UInt8) :
    (before ++ (piece ++ after)).drop (before.length + piece.length) = after := by
  rw [← List.append_assoc, ← List.length_append, List.drop_left]

/-- A gap with something before and after it is a gap of the whole. -/
theorem gapAt_append (before : List UInt8) {gap after : List UInt8} (h : IsGap gap after) :
    GapAt (before ++ (gap ++ after)) before.length (before.length + gap.length) where
  start_le := Nat.le_add_right _ _
  stop_le := by simp
  isGap := by rwa [slice_append, drop_append_piece]

/-- A lexeme with something before it covers its bytes in the whole. -/
theorem Token.covers_append (before : List UInt8) {lexeme rest : List UInt8}
    {spelling : Spelling} (hne : lexeme ≠ [])
    (h : splitLexeme (lexeme ++ rest) = some (spelling, lexeme, rest)) :
    Token.Covers (before ++ (lexeme ++ rest)) ⟨spelling.kind (Utf8.text lexeme), Utf8.text lexeme,
      before.length, before.length + lexeme.length⟩ where
  start_lt := Nat.lt_add_of_pos_right (List.length_pos_iff.2 hne)
  stop_le := by simp
  text := by rw [slice_append]
  spelled := ⟨spelling, rfl, by rw [slice_append, drop_append_piece, List.drop_left]; exact h⟩

/-- The tokens of what stands behind some bytes, with gaps, reach to what ends them. -/
theorem tiled_tokensFrom (before s : List UInt8) :
    Tiled (before ++ s) before.length (tokensFrom before.length s).1
        (placeOf (tokensFrom before.length s).2) ∧
      Ends (before ++ s) (tokensFrom before.length s).2 := by
  induction hlen : s.length using Nat.strongRecOn generalizing before s with
  | ind n ih =>
    subst hlen
    have hreads := Token.reads_read before.length s
    generalize hread : Token.read before.length s = outcome at hreads
    cases hreads with
    | endOfInput hgap =>
      have hgap' := gapAt_append before hgap
      rw [List.append_nil] at hgap'
      rw [tokensFrom_eq_ahead hread, ahead, if_pos (show (Token.eof _).isEnd = true from rfl),
        ← List.length_append]
      rw [← List.length_append] at hgap'
      exact ⟨.gap hgap', .endOfInput⟩
    | @lexeme gap lexeme rest spelling t hgap hne hlexeme ht hend =>
      have hgap' := gapAt_append before hgap
      have hcovers := Token.covers_append (before ++ gap) hne hlexeme
      rw [List.append_assoc, List.length_append, ← ht] at hcovers
      have hlt : rest.length < (gap ++ (lexeme ++ rest)).length := by
        have hpos := List.length_pos_iff.2 hne
        simp only [List.length_append]
        omega
      have hrest := ih _ hlt (before ++ (gap ++ lexeme)) rest rfl
      have hstop : (before ++ (gap ++ lexeme)).length = t.stop := by
        simp only [ht, List.length_append, Nat.add_assoc]
      rw [hstop, List.append_assoc, List.append_assoc] at hrest
      have hstart : before.length + gap.length = t.start := by rw [ht]
      rw [tokensFrom_eq_ahead hread, ahead, if_neg (by rw [hend]; exact Bool.false_ne_true), ahead]
      rw [hstart] at hgap'
      exact ⟨.token hgap' hcovers hrest.1, hrest.2⟩
    | @refused gap rest b e hgap hrefuses hoffset =>
      have hgap' := gapAt_append before hgap
      rw [← hoffset] at hgap'
      rw [tokensFrom_of_error hread]
      have hdrop := drop_append_piece before gap (b :: rest)
      rw [← hoffset] at hdrop
      exact ⟨.gap hgap', .refused hdrop hrefuses⟩

/-! ### Order, and every byte once -/

/-- The bytes of a token. -/
def Token.span (t : Token) : Span := ⟨t.start, t.stop⟩

/-- The gaps from one place to another: before the first token, between neighbours, and after the
last one. -/
def gapsOf (start : Nat) : List Token → Nat → List Span
  | [], stop => [⟨start, stop⟩]
  | t :: tokens, stop => ⟨start, t.start⟩ :: gapsOf t.stop tokens stop

/-- Tokens, and what ends them, partition the bytes of a signature: the tokens stand in order, with
gaps around them, and each byte up to the end is in one token or gap. -/
structure Partition (data : List UInt8) (tokens : List Token) (ending : Except Error Token) :
    Prop where
  covers : ∀ t ∈ tokens, t.Covers data
  ordered : tokens.Pairwise fun a b => a.stop ≤ b.start
  gaps : ∀ gap ∈ gapsOf 0 tokens (placeOf ending), GapAt data gap.start gap.stop
  ends : Ends data ending
  once : ∀ i < placeOf ending, (tokens.map Token.span ++ gapsOf 0 tokens (placeOf ending)).countP
    (fun span => span.start ≤ i ∧ i < span.stop) = 1

namespace Tiled

variable {data : List UInt8} {start stop : Nat} {tokens : List Token}

/-- What is tiled goes forward. -/
theorem start_le (h : Tiled data start tokens stop) : start ≤ stop := by
  induction h with
  | gap hgap => exact hgap.start_le
  | token hgap hcovers _ ih =>
    have hle := hgap.start_le
    have hlt := hcovers.start_lt
    omega

/-- The tokens of a tiling start behind its start. -/
theorem start_le_of_mem (h : Tiled data start tokens stop) : ∀ t ∈ tokens, start ≤ t.start := by
  induction h with
  | gap => simp
  | token hgap hcovers _ ih =>
    refine List.forall_mem_cons.2 ⟨hgap.start_le, fun u hu => ?_⟩
    have hle := hgap.start_le
    have hlt := hcovers.start_lt
    have hle' := ih u hu
    omega

/-- The tokens of a tiling cover their bytes. -/
theorem covers (h : Tiled data start tokens stop) : ∀ t ∈ tokens, t.Covers data := by
  induction h with
  | gap => simp
  | token _ hcovers _ ih => exact List.forall_mem_cons.2 ⟨hcovers, ih⟩

/-- The tokens of a tiling stand in order. -/
theorem ordered (h : Tiled data start tokens stop) :
    tokens.Pairwise fun a b => a.stop ≤ b.start := by
  induction h with
  | gap => exact .nil
  | token _ _ hrest ih => exact List.pairwise_cons.2 ⟨hrest.start_le_of_mem, ih⟩

/-- Between the tokens of a tiling are gaps. -/
theorem gapAt_of_mem (h : Tiled data start tokens stop) :
    ∀ gap ∈ gapsOf start tokens stop, GapAt data gap.start gap.stop := by
  induction h with
  | gap hgap => simpa [gapsOf] using hgap
  | token hgap _ _ ih => exact List.forall_mem_cons.2 ⟨hgap, ih⟩

/-- A place is in one token or gap of a tiling (`Tiled`) if it is between the two ends, and in none
otherwise. -/
theorem countP_spans (h : Tiled data start tokens stop) (i : Nat) :
    (tokens.map Token.span ++ gapsOf start tokens stop).countP
      (fun span => span.start ≤ i ∧ i < span.stop) = if start ≤ i ∧ i < stop then 1 else 0 := by
  induction h with
  | gap => simp [gapsOf, List.countP_cons]
  | @token start stop t tokens hgap hcovers hrest ih =>
    have hle := hgap.start_le
    have hlt := hcovers.start_lt
    have hle' := hrest.start_le
    rw [List.countP_append] at ih
    simp only [List.map_cons, gapsOf, List.countP_append, List.countP_cons, Token.span,
      decide_eq_true_eq]
    split <;> split <;> split at ih <;> split <;> omega

end Tiled

/-- The tokens of a signature, and what ends them, partition its bytes. -/
theorem partition_tokens (data : List UInt8) :
    Partition data (tokens data).1 (tokens data).2 := by
  obtain ⟨htiled, hends⟩ := tiled_tokensFrom [] data
  exact {
    covers := htiled.covers
    ordered := htiled.ordered
    gaps := htiled.gapAt_of_mem
    ends := hends
    once := fun i hi => (htiled.countP_spans i).trans (if_pos ⟨Nat.zero_le i, hi⟩) }

/-! ### Taking one token after another -/

/-- The tokens that a cursor delivers when it takes the next token again and again, and what it
comes to in the end: the end of input, or the first error. -/
inductive Cursor.Delivers : Cursor → List Token → Except Error Token → Prop
  | ended {c c' : Cursor} {t : Token} : c.advance = (.ok t, c') → t.isEnd = true →
      Delivers c [] (.ok t)
  | failed {c c' : Cursor} {e : Error} : c.advance = (.error e, c') → Delivers c [] (.error e)
  | took {c c' : Cursor} {t : Token} {tokens : List Token} {ending : Except Error Token} :
      c.advance = (.ok t, c') → t.isEnd = false → Delivers c' tokens ending →
      Delivers c (t :: tokens) ending

namespace Cursor

/-- A cursor delivers one list of tokens only (`Cursor.Delivers`). -/
theorem Delivers.unique {c : Cursor} {ts ts' : List Token} {ending ending' : Except Error Token}
    (h : c.Delivers ts ending) (h' : c.Delivers ts' ending') : (ts, ending) = (ts', ending') := by
  induction h generalizing ts' ending' with
  | ended hadvance hend =>
    cases h' with
    | ended hadvance' _ => simp_all
    | failed hadvance' => simp_all
    | took hadvance' hend' _ => simp_all
  | failed hadvance =>
    cases h' with
    | ended hadvance' _ => simp_all
    | failed hadvance' => simp_all
    | took hadvance' _ _ => simp_all
  | took hadvance hend _ ih =>
    cases h' with
    | ended hadvance' hend' => simp_all
    | failed hadvance' => simp_all
    | took hadvance' _ hrest =>
      obtain ⟨htoken, rfl⟩ := Prod.mk.inj (hadvance.symm.trans hadvance')
      obtain ⟨rfl, rfl⟩ := Prod.mk.inj (ih hrest)
      rw [Except.ok.inj htoken]

/-- The tokens that a cursor stands for are those that it delivers. -/
theorem delivers_toStream (c : Cursor) (hlast : EndLast c.buffer) :
    c.Delivers c.toStream.tokens c.toStream.ending := by
  induction htokens : c.toStream.tokens generalizing c with
  | nil =>
    obtain ⟨hanswer, -⟩ := agree_advance c hlast
    have htoken : c.toStream.tokenAt 0 = c.advance.1 := congrArg Prod.fst hanswer
    rw [Stream.tokenAt, htokens] at htoken
    cases hending : c.toStream.ending with
    | ok t =>
      rw [hending] at htoken
      exact .ended (Prod.ext htoken.symm rfl) (c.toStream.thenEnd.isEnd_ending t hending)
    | error e =>
      rw [hending] at htoken
      exact .failed (Prod.ext htoken.symm rfl)
  | cons t ts ih =>
    obtain ⟨hanswer, hlast'⟩ := agree_advance c hlast
    have htoken : c.toStream.tokenAt 0 = c.advance.1 := congrArg Prod.fst hanswer
    have hrest : c.toStream.rest = c.advance.2.toStream := congrArg Prod.snd hanswer
    have htail : c.toStream.rest.tokens = ts := congrArg List.tail htokens
    have hend : t.isEnd = false := c.toStream.thenEnd.isEnd_of_mem t (by simp [htokens])
    rw [Stream.tokenAt, htokens] at htoken
    rw [hrest] at htail
    have hnext := ih c.advance.2 hlast' htail
    rw [← hrest] at hnext
    exact .took (Prod.ext htoken.symm rfl) hend hnext

end Cursor

/-- **Tokens and gaps make up a signature.** From every byte string a cursor that takes one token
after another delivers the tokens of the signature, and comes to the end of input or to an error.
Each token is made of the bytes where it stands, at least one; the tokens stand in order; what
stands before, between and behind them are gaps; and every byte up to the end of input, or up to the
byte at which no token can be read, is in one token or one gap. -/
theorem delivers_partition (data : List UInt8) :
    (∀ ts ending, (Cursor.ofBytes data).Delivers ts ending ↔ (ts, ending) = tokens data) ∧
      Partition data (tokens data).1 (tokens data).2 := by
  refine ⟨fun ts ending => ?_, partition_tokens data⟩
  have hdelivers : (Cursor.ofBytes data).Delivers (tokens data).1 (tokens data).2 :=
    (Cursor.ofBytes data).delivers_toStream (by simp [EndLast, Cursor.ofBytes])
  constructor
  · exact fun h => h.unique hdelivers
  · intro heq
    rw [← heq] at hdelivers
    exact hdelivers

end TypeNotes.Signature
