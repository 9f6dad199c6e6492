import Mathlib.Data.List.TakeWhile
import TypeNotes.Note.Basic
import TypeNotes.Proofs.Ruby.Comment
import TypeNotes.Proofs.Signature.Blame
import TypeNotes.Proofs.Signature.Recognition

/-!
# Signatures with margins

A signature in a comment stands behind the heading of its note, which is blanked out, and in front
of the end of its line, from which carriage returns are left out. Neither margin makes a difference:
what is accepted by itself is accepted there too (`exists_answer_margins`), and read without an
error (`readSignature_of_answer`).

**Blanks in front** move all tokens by their number, and change nothing else about them
(`LexesFrom.add`, `LexesFrom.blanks`). Rules tell tokens by their kinds and texts and not by their
places, so that they derive the tokens wherever those stand (`Derives.map_shift`).

**A return behind** ends every lexeme that the end of the text ends. This is so for each pattern
that tells a return from what it takes (`Pattern.endsAtReturn`, a test that runs), as those of all
spellings do.

**Blank texts** are no types: a lexeme starts with a visible character, and a type has one.
-/

namespace TypeNotes.Signature

open Utf8

/-! ### Tokens one by one -/

/-- A byte string that is `offset` bytes into the signature is made of these tokens and gaps. -/
def LexesFrom (offset : Nat) (s : List UInt8) (ts : List Token) : Prop :=
  ∃ t, tokensFrom offset s = (ts, .ok t)

/-- A text has no tokens if its end is read first. -/
theorem lexesFrom_nil {offset : Nat} {s : List UInt8} :
    LexesFrom offset s [] ↔ ∃ t rest, Token.read offset s = .ok (t, rest) ∧ t.isEnd = true := by
  unfold LexesFrom
  cases hread : Token.read offset s with
  | error e => simp [tokensFrom_of_error hread]
  | ok parts =>
    obtain ⟨t, rest⟩ := parts
    rw [tokensFrom_eq_ahead hread]
    cases hend : t.isEnd <;> simp [ahead, hend]

/-- A text is made of a first token and those of what is behind it. -/
theorem lexesFrom_cons {offset : Nat} {s : List UInt8} {t : Token} {ts : List Token} :
    LexesFrom offset s (t :: ts) ↔
      ∃ rest, Token.read offset s = .ok (t, rest) ∧ t.isEnd = false ∧ LexesFrom t.stop rest ts := by
  unfold LexesFrom
  cases hread : Token.read offset s with
  | error e => simp [tokensFrom_of_error hread]
  | ok parts =>
    obtain ⟨t', rest⟩ := parts
    rw [tokensFrom_eq_ahead hread]
    cases hend : t'.isEnd with
    | true =>
      simp only [ahead, hend]
      constructor
      · rintro ⟨u, hu⟩
        simp at hu
      · rintro ⟨_, h, hfalse, -⟩
        obtain ⟨rfl, -⟩ := Prod.mk.inj (Except.ok.inj h)
        rw [hend] at hfalse
        cases hfalse
    | false =>
      simp only [ahead, hend]
      constructor
      · rintro ⟨u, hu⟩
        simp only [Bool.false_eq_true, if_false, Prod.mk.injEq, List.cons.injEq] at hu
        obtain ⟨⟨rfl, hts⟩, hending⟩ := hu
        exact ⟨rest, rfl, hend, u, Prod.ext hts hending⟩
      · rintro ⟨_, h, -, u, hu⟩
        obtain ⟨rfl, rfl⟩ := Prod.mk.inj (Except.ok.inj h)
        exact ⟨u, by simp [hu]⟩

/-! ### Blanks in front -/

/-- A token some bytes further on. -/
def Token.shift (count : Nat) (t : Token) : Token :=
  { t with start := t.start + count, stop := t.stop + count }

/-- `Token.read` gives the same token further on in the text, shifted. -/
theorem Token.read_add {offset : Nat} {s rest : List UInt8} {t : Token}
    (h : Token.read offset s = .ok (t, rest)) (count : Nat) :
    Token.read (offset + count) s = .ok (t.shift count, rest) := by
  have hstart : offset + count + (splitGap false s).1.length =
      offset + (splitGap false s).1.length + count := Nat.add_right_comm _ _ _
  unfold Token.read at h ⊢
  simp only [hstart] at h ⊢
  cases htail : (splitGap false s).2 with
  | nil =>
    rw [htail] at h
    obtain ⟨rfl, rfl⟩ := Prod.mk.inj (Except.ok.inj h)
    rfl
  | cons b tail =>
    rw [htail] at h
    simp only at h ⊢
    cases hlexeme : splitLexeme (b :: tail) with
    | some parts =>
      rw [hlexeme] at h
      obtain ⟨rfl, rfl⟩ := Prod.mk.inj (Except.ok.inj h)
      simp only [Token.shift, Except.ok.injEq, Prod.mk.injEq, Token.mk.injEq, true_and, and_true]
      omega
    | none =>
      rw [hlexeme] at h
      simp only at h
      split at h
      · cases h
      · cases h

/-- Further on in a signature there are the same tokens (`LexesFrom`), further on. -/
theorem LexesFrom.add {offset : Nat} {s : List UInt8} {ts : List Token}
    (h : LexesFrom offset s ts) (count : Nat) :
    LexesFrom (offset + count) s (ts.map (Token.shift count)) := by
  induction ts generalizing offset s with
  | nil =>
    obtain ⟨t, rest, hread, hend⟩ := lexesFrom_nil.1 h
    exact lexesFrom_nil.2 ⟨_, rest, Token.read_add hread count, hend⟩
  | cons t ts ih =>
    obtain ⟨rest, hread, hend, hrest⟩ := lexesFrom_cons.1 h
    exact lexesFrom_cons.2 ⟨rest, Token.read_add hread count, hend, ih hrest⟩

/-- A blank in front moves where `Token.read` reads. -/
theorem Token.read_blank (offset : Nat) (s : List UInt8) :
    Token.read offset (byte ' ' :: s) = Token.read (offset + 1) s := by
  have hgap : splitGap false (byte ' ' :: s) =
      (byte ' ' :: (splitGap false s).1, (splitGap false s).2) := rfl
  have hstart : offset + (byte ' ' :: (splitGap false s).1).length =
      offset + 1 + (splitGap false s).1.length := by
    rw [List.length_cons]
    omega
  simp only [Token.read, hgap, hstart]

/-- Blanks in front of tokens move these. -/
theorem LexesFrom.blanks {offset : Nat} {s : List UInt8} {ts : List Token} {count : Nat}
    (h : LexesFrom (offset + count) s ts) :
    LexesFrom offset (List.replicate count (byte ' ') ++ s) ts := by
  induction count generalizing offset with
  | zero => exact h
  | succ count ih =>
    have hrest : LexesFrom (offset + 1) (List.replicate count (byte ' ') ++ s) ts :=
      ih (by rwa [Nat.add_assoc, Nat.add_comm 1])
    rw [List.replicate_succ, List.cons_append]
    cases ts with
    | nil => rwa [lexesFrom_nil, Token.read_blank, ← lexesFrom_nil]
    | cons t ts => rwa [lexesFrom_cons, Token.read_blank, ← lexesFrom_cons]

/-! ### Line ends behind a gap -/

/-- Where the end of input is read, there is nothing but a gap. -/
theorem splitGap_of_isEnd {o : Nat} {w rest : List UInt8} {u : Token}
    (h : Token.read o w = .ok (u, rest)) (hend : u.isEnd = true) : splitGap false w = (w, []) := by
  have hgap := splitGap_append false w
  unfold Token.read at h
  split at h
  rename_i gap tail hsplit
  rw [hsplit] at hgap ⊢
  split at h
  · rw [List.append_nil] at hgap
    exact Prod.ext hgap rfl
  · split at h
    · rename_i hlexeme
      obtain ⟨rfl, -⟩ := Prod.mk.inj (Except.ok.inj h)
      obtain ⟨_, hmem, hparts⟩ := List.exists_of_findSome?_eq_some hlexeme
      obtain ⟨_, -, heq⟩ := Option.map_eq_some_iff.1 hparts
      cases heq
      exact absurd (beq_iff_eq.1 hend) (Spelling.kind_ne_endOfInput hmem _)
    · split at h <;> cases h

/-- At a line end `splitGap` goes on, or ends the comment in the gap. -/
theorem splitGap_newline (inComment : Bool) (s w : List UInt8) :
    splitGap inComment ((splitGap inComment s).1 ++ byte '\n' :: w) =
      ((splitGap inComment s).1 ++ byte '\n' :: (splitGap false w).1, (splitGap false w).2) := by
  induction s generalizing inComment with
  | nil => cases inComment <;> rfl
  | cons b s ih =>
    cases inComment with
    | true => simp only [splitGap, if_true, List.cons_append, ih]
    | false =>
      by_cases hb : (isBlank b || b == byte '#') = true
      · simp only [splitGap, if_pos hb, List.cons_append, ih, Bool.false_eq_true, if_false]
      · simp only [splitGap, if_neg hb, Bool.false_eq_true, if_false]
        rfl

/-- For `Token.read`, a line end behind a gap is part of the gap. -/
theorem Token.read_newline (o : Nat) (s w : List UInt8) :
    Token.read o ((splitGap false s).1 ++ byte '\n' :: w) =
      Token.read (o + ((splitGap false s).1.length + 1)) w := by
  have hlength : o + ((splitGap false s).1 ++ byte '\n' :: (splitGap false w).1).length =
      o + ((splitGap false s).1.length + 1) + (splitGap false w).1.length := by
    rw [List.length_append, List.length_cons]
    omega
  simp only [Token.read, splitGap_newline, hlength]

/-- Texts with the same first token have the same tokens. -/
theorem tokensFrom_congr {o o' : Nat} {s s' : List UInt8}
    (h : Token.read o s = Token.read o' s') : tokensFrom o s = tokensFrom o' s' := by
  cases hread : Token.read o s with
  | error e => rw [tokensFrom_of_error hread, tokensFrom_of_error (h ▸ hread)]
  | ok parts =>
    have hread' := h.symm.trans hread
    rw [tokensFrom_eq_ahead hread, tokensFrom_eq_ahead hread']

/-! ### Rules and places -/

/-- No token is told by its place. -/
def Form.Placeless : Form → Prop
  | .token fits => ∀ count t, fits (Token.shift count t) = fits t
  | .phrase _ => True
  | .andThen a b => a.Placeless ∧ b.Placeless
  | .orElse a b => a.Placeless ∧ b.Placeless
  | .maybe a => a.Placeless
  | .many a => a.Placeless

namespace Form

theorem placeless_ofKind (kind : Kind) : (ofKind kind).Placeless := fun _ _ => rfl

theorem placeless_mark (text : String) : (mark text).Placeless := placeless_ofKind _

theorem placeless_spelled (text : String) : (spelled text).Placeless := fun _ _ => rfl

theorem placeless_nameEnd : nameEnd.Placeless := fun _ _ => rfl

theorem placeless_literal : literal.Placeless := fun _ _ => rfl

theorem placeless_baseType : baseType.Placeless := fun _ _ => rfl

theorem placeless_key : key.Placeless := fun _ _ => rfl

theorem placeless_phrase (n : Nonterminal) : (phrase n).Placeless := trivial

theorem placeless_andThen {a b : Form} : (a >> b).Placeless ↔ a.Placeless ∧ b.Placeless := Iff.rfl

theorem placeless_orElse {a b : Form} : (a <|> b).Placeless ↔ a.Placeless ∧ b.Placeless := Iff.rfl

theorem placeless_maybe {a : Form} : (maybe a).Placeless ↔ a.Placeless := Iff.rfl

theorem placeless_many {a : Form} : (many a).Placeless ↔ a.Placeless := Iff.rfl

end Form

/-- No rule tells tokens by their places (`Placeless`). -/
theorem Nonterminal.placeless_rule (n : Nonterminal) : n.rule.Placeless := by
  cases n <;> simp only [rule, Form.placeless_andThen, Form.placeless_orElse, Form.placeless_maybe,
    Form.placeless_many, Form.placeless_phrase, Form.placeless_mark, Form.placeless_ofKind,
    Form.placeless_spelled, Form.placeless_nameEnd, Form.placeless_literal,
    Form.placeless_baseType, Form.placeless_key, and_self]

/-- Tokens have a form wherever they stand. -/
theorem Derives.map_shift {a : Form} {ts : List Token} (h : Derives a ts) (ha : a.Placeless)
    (count : Nat) : Derives a (ts.map (Token.shift count)) := by
  induction h with
  | @token fits t hfits => exact .token ((ha count t).trans hfits)
  | @phrase n ts _ ih => exact .phrase (ih n.placeless_rule)
  | @andThen a b us vs _ _ iha ihb =>
    rw [List.map_append]
    exact .andThen (iha ha.1) (ihb ha.2)
  | left _ ih => exact .left (ih ha.1)
  | right _ ih => exact .right (ih ha.2)
  | none => exact .none
  | some _ ih => exact .some (ih ha)
  | stop => exact .stop
  | @more a us vs _ _ iha ihb =>
    rw [List.map_append]
    exact .more (iha ha) (ihb ha)

/-! ### A return behind -/

/-- The byte of a carriage return. -/
abbrev returnByte : UInt8 := byte '\r'

/-- Whether a return behind a text is to a pattern as the end of the text, as far as its parts
tell. -/
def Pattern.endsAtReturn : Pattern → Bool
  | exactly bytes => !bytes.contains returnByte
  | one among | many among => !among returnByte
  | quotation mark => mark != returnByte
  | notBefore b => b != returnByte
  | optional p => p.endsAtReturn
  -- Whether or not the run takes the return, what has to follow is not there.
  | andThen (many _) (one among) => !among returnByte
  | andThen p q | orElse p q => p.endsAtReturn && q.endsAtReturn

namespace Pattern

/-- The parts of a text with a return behind it. -/
def addReturn (parts : List UInt8 × List UInt8) : List UInt8 × List UInt8 :=
  (parts.1, parts.2 ++ [returnByte])

/-- A return behind a text is left over by `splitExactly`. -/
theorem splitExactly_return {bytes : List UInt8} (h : returnByte ∉ bytes) (s : List UInt8) :
    splitExactly bytes (s ++ [returnByte]) = (splitExactly bytes s).map addReturn := by
  fun_induction splitExactly bytes s with
  | case1 s => rfl
  | case2 a bytes =>
    have hne : a ≠ returnByte := fun heq => h (heq ▸ List.mem_cons_self)
    rw [List.nil_append, splitExactly, if_neg (by simpa using hne)]
    rfl
  | case3 a bytes b s hab ih =>
    rw [List.cons_append, splitExactly, if_pos hab, ih fun hmem => h (List.mem_cons_of_mem _ hmem)]
    simp [addReturn, Function.comp_def]
  | case4 a bytes b s hab =>
    rw [List.cons_append, splitExactly, if_neg hab]
    rfl

/-- A return behind a text is left over by `splitQuotation`. -/
theorem splitQuotation_return {mark : UInt8} (h : mark ≠ returnByte) (s : List UInt8) :
    splitQuotation mark (s ++ [returnByte]) = (splitQuotation mark s).map addReturn := by
  fun_induction splitQuotation mark s with
  | case1 => rw [List.nil_append, splitQuotation_cons h.symm (by decide)]; rfl
  | case2 b s hb =>
    rw [List.cons_append, splitQuotation.eq_def]
    simp [hb, addReturn]
  | case3 b hb hslash =>
    obtain rfl := beq_iff_eq.1 hslash
    rw [List.cons_append, List.nil_append, splitQuotation_escape (by simpa using hb)]
    rfl
  | case4 b hb hslash c s hc =>
    obtain rfl := beq_iff_eq.1 hslash
    rw [List.cons_append, List.cons_append, splitQuotation_escape (by simpa using hb), if_pos hc]
    rfl
  | case5 b hb hslash c s hc ih =>
    obtain rfl := beq_iff_eq.1 hslash
    rw [List.cons_append, List.cons_append, splitQuotation_escape (by simpa using hb), if_neg hc,
      ih]
    simp [addReturn, Function.comp_def]
  | case6 b s hb hslash ih =>
    rw [List.cons_append, splitQuotation_cons (by simpa using hb) (by simpa using hslash), ih]
    simp [addReturn, Function.comp_def]

/-- A return behind a text that is not used up changes nothing about what is. -/
theorem dropWhile_return {among : UInt8 → Bool} {s : List UInt8} (h : s.dropWhile among ≠ []) :
    (s ++ [returnByte]).takeWhile among = s.takeWhile among ∧
      (s ++ [returnByte]).dropWhile among = s.dropWhile among ++ [returnByte] := by
  induction s with
  | nil => exact absurd rfl h
  | cons b s ih =>
    cases hb : among b with
    | true =>
      simp only [List.cons_append, List.takeWhile_cons, List.dropWhile_cons, hb, if_true] at h ⊢
      exact ⟨congrArg (b :: ·) (ih h).1, (ih h).2⟩
    | false => simp [hb]

/-- A return behind a text ends a run of bytes, as the end of the text does. -/
theorem split_many_return {among : UInt8 → Bool} (h : among returnByte = false) (s : List UInt8) :
    (many among).split (s ++ [returnByte]) = ((many among).split s).map addReturn := by
  induction s with
  | nil => simp [split, addReturn, h]
  | cons b s ih =>
    simp only [split, Option.map_some, Option.some.injEq, addReturn, Prod.mk.injEq,
      List.cons_append, List.takeWhile_cons, List.dropWhile_cons] at ih ⊢
    cases among b <;> simp [ih]

/-- A return behind a text is not taken for a single byte. -/
theorem split_one_return {among : UInt8 → Bool} (h : among returnByte = false) (s : List UInt8) :
    (one among).split (s ++ [returnByte]) = ((one among).split s).map addReturn := by
  cases s with
  | nil => simp [split, h]
  | cons b s => cases hb : among b <;> simp [split, hb, addReturn]

/-- A pattern that tells a return from what it takes (`Pattern.endsAtReturn`) cuts the same lexeme
off in front of one. -/
theorem split_return {p : Pattern} (h : p.endsAtReturn = true) (s : List UInt8) :
    p.split (s ++ [returnByte]) = (p.split s).map addReturn := by
  fun_induction endsAtReturn p generalizing s with
  | case1 bytes => exact splitExactly_return (by simpa using h) s
  | case2 among => exact split_one_return (by simpa using h) s
  | case3 among => exact split_many_return (by simpa using h) s
  | case4 mark => exact splitQuotation_return (by simpa using h) s
  | case5 b =>
    have hb : (returnByte == b) = false := by simpa using Ne.symm (bne_iff_ne.1 h)
    cases s with
    | nil => simp [split, hb, addReturn]
    | cons c s => cases hc : c == b <;> simp [split, hc, addReturn]
  | case6 p ih =>
    simp only [split, ih h]
    cases p.split s <;> rfl
  | case7 run among =>
    have hamong : among returnByte = false := by simpa using h
    by_cases hrun : s.dropWhile run = []
    · -- The run takes all of the text, so nothing follows it but, if that much, the return.
      have hall : ∀ b ∈ s, run b = true := List.dropWhile_eq_nil_iff.1 hrun
      cases hreturn : run returnByte <;>
        simp [split, List.takeWhile_append_of_pos hall, List.dropWhile_append_of_pos hall, hrun,
          hreturn, hamong]
    · obtain ⟨htake, hdrop⟩ := dropWhile_return hrun
      have hone := split_one_return hamong (s.dropWhile run)
      simp only [split, htake, hdrop] at hone ⊢
      rw [hone]
      simp [addReturn, Function.comp_def]
  | case8 p q _ ihp ihq =>
    obtain ⟨hp, hq⟩ := Bool.and_eq_true_iff.1 h
    simp only [split, ihp hp]
    cases hsplit : p.split s with
    | none => rfl
    | some parts => simp [addReturn, ihq hq, Function.comp_def]
  | case9 p q ihp ihq =>
    obtain ⟨hp, hq⟩ := Bool.and_eq_true_iff.1 h
    simp only [split, ihp hp, ihq hq]
    cases p.split s <;> rfl

end Pattern

/-- A return behind a text is left over by `splitLexeme`. -/
theorem splitLexeme_return (s : List UInt8) : splitLexeme (s ++ [returnByte]) =
    (splitLexeme s).map fun parts => (parts.1, Pattern.addReturn parts.2) := by
  have hall : Spelling.all.all (·.pattern.endsAtReturn) = true := by decide
  unfold splitLexeme
  generalize Spelling.all = spellings at hall
  induction spellings with
  | nil => rfl
  | cons spelling spellings ih =>
    rw [List.all_cons, Bool.and_eq_true_iff] at hall
    rw [List.findSome?_cons, List.findSome?_cons, Pattern.split_return hall.1, ih hall.2]
    cases spelling.pattern.split s <;> rfl

/-- A return behind a text is taken by a `splitGap` that reaches the end, and left over by any
other. -/
theorem splitGap_return (inComment : Bool) (s : List UInt8) :
    splitGap inComment (s ++ [returnByte]) =
      if (splitGap inComment s).2 = [] then (s ++ [returnByte], [])
      else Pattern.addReturn (splitGap inComment s) := by
  induction s generalizing inComment with
  | nil => cases inComment <;> rfl
  | cons b s ih =>
    rw [List.cons_append, splitGap, splitGap]
    split
    · rw [ih]
      split <;> simp [Pattern.addReturn]
    split
    · rw [ih]
      split <;> simp [Pattern.addReturn]
    · simp [Pattern.addReturn]

/-- In front of a return `Token.read` gives the same token, or the end of input. -/
theorem Token.read_return {offset : Nat} {s rest : List UInt8} {t : Token}
    (h : Token.read offset (s ++ [returnByte]) = .ok (t, rest)) :
    (t.isEnd = true ∧ ∃ t', Token.read offset s = .ok (t', []) ∧ t'.isEnd = true) ∨
      ∃ rest', rest = rest' ++ [returnByte] ∧ Token.read offset s = .ok (t, rest') := by
  unfold Token.read at h ⊢
  simp only [splitGap_return] at h
  cases htail : (splitGap false s).2 with
  | nil =>
    simp only [htail, if_true] at h
    obtain ⟨rfl, -⟩ := Prod.mk.inj (Except.ok.inj h)
    refine .inl ⟨rfl, Token.eof (offset + (splitGap false s).1.length), ?_, rfl⟩
    simp only [htail]
  | cons b tail =>
    refine .inr ?_
    have hlexeme := splitLexeme_return (b :: tail)
    simp only [htail, reduceCtorEq, if_false, Pattern.addReturn, List.cons_append] at h hlexeme ⊢
    rw [hlexeme] at h
    cases hsplit : splitLexeme (b :: tail) with
    | none =>
      simp only [hsplit, Option.map_none] at h
      split at h <;> cases h
    | some parts =>
      obtain ⟨spelling, lexeme, rest'⟩ := parts
      simp only [hsplit, Option.map_some, Except.ok.injEq, Prod.mk.injEq] at h
      obtain ⟨rfl, rfl⟩ := h
      exact ⟨rest', rfl, rfl⟩

/-- Without the return behind them there are the same tokens. -/
theorem LexesFrom.of_return {offset : Nat} {s : List UInt8} {ts : List Token}
    (h : LexesFrom offset (s ++ [returnByte]) ts) : LexesFrom offset s ts := by
  induction ts generalizing offset s with
  | nil =>
    obtain ⟨t, rest, hread, hend⟩ := lexesFrom_nil.1 h
    obtain ⟨-, t', hread', hend'⟩ | ⟨rest', -, hread'⟩ := Token.read_return hread
    · exact lexesFrom_nil.2 ⟨t', [], hread', hend'⟩
    · exact lexesFrom_nil.2 ⟨t, rest', hread', hend⟩
  | cons t ts ih =>
    obtain ⟨rest, hread, hend, hrest⟩ := lexesFrom_cons.1 h
    obtain ⟨hend', -⟩ | ⟨rest', rfl, hread'⟩ := Token.read_return hread
    · rw [hend] at hend'
      cases hend'
    · exact lexesFrom_cons.2 ⟨rest', hread', hend, ih hrest⟩

/-- Returns behind a text add no tokens. -/
theorem LexesFrom.of_returns {offset : Nat} {s : List UInt8} {ts : List Token} {count : Nat}
    (h : LexesFrom offset (s ++ List.replicate count returnByte) ts) : LexesFrom offset s ts := by
  induction count with
  | zero => simpa using h
  | succ count ih =>
    rw [List.replicate_succ', ← List.append_assoc] at h
    exact ih h.of_return

/-! ### Signatures in their margins -/

/-- A text ends with the carriage returns that `Text.dropReturns` leaves out of it. -/
theorem exists_replicate_dropReturns (text : List Char) :
    ∃ count, text = Text.dropReturns text ++ List.replicate count '\r' := by
  have hreturns : ∀ c ∈ text.reverse.takeWhile (· == '\r'), c = '\r' := fun c hc => by
    simpa using List.mem_takeWhile_imp hc
  refine ⟨(text.reverse.takeWhile (· == '\r')).length, ?_⟩
  rw [← List.reverse_replicate, ← List.eq_replicate_of_mem hreturns, Text.dropReturns,
    ← List.reverse_append, List.takeWhile_append_dropWhile, List.reverse_reverse]

/-- A run of ASCII characters is a run of bytes. -/
theorem encode_replicate {c : Char} (hc : c.toNat < 128) (count : Nat) :
    encode (List.replicate count c) = List.replicate count (byte c) := by
  induction count with
  | zero => rfl
  | succ count ih => rw [List.replicate_succ, encode_cons_of_lt hc, ih, List.replicate_succ]

/-- A script that reads what a rule derives accepts a text behind blanks and without the carriage
returns at its end, if it accepts the text. -/
theorem exists_answer_margins {α : Type} {x : Script α} {n : Nonterminal}
    (sound : ∀ {s s' : Stream} {a : α}, x.Gives s a s' → Cut (.phrase n) s.tokens s'.tokens)
    (complete : ∀ {ts : List Token}, Cut (.phrase n) ts [] → x.ReadsTo ts [])
    {text : List Char} (h : ∃ a, x.whole.answer (encode text) = .ok a) (count : Nat) :
    ∃ a, x.whole.answer (encode (Text.blanks count ++ Text.dropReturns text)) = .ok a := by
  obtain ⟨ts, hlexes, hderives⟩ := (exists_answer_whole_iff sound complete _).1 h
  obtain ⟨returns, htext⟩ := exists_replicate_dropReturns text
  have hbytes : encode text =
      encode (Text.dropReturns text) ++ List.replicate returns returnByte := by
    calc encode text
        = encode (Text.dropReturns text ++ List.replicate returns '\r') := by rw [← htext]
      _ = _ := by rw [encode_append, encode_replicate (by decide)]
  rw [hbytes] at hlexes
  have hbare : LexesFrom 0 (encode (Text.dropReturns text)) ts := LexesFrom.of_returns hlexes
  refine (exists_answer_whole_iff sound complete _).2 ⟨ts.map (Token.shift count), ?_, ?_⟩
  · rw [encode_append, Text.blanks, encode_replicate (by decide)]
    exact (hbare.add count).blanks
  · exact hderives.map_shift trivial count

/-- What is accepted as a whole text is read by `readSignature`. -/
theorem readSignature_of_answer {α : Type} {x : Script α} {text : List Char} {a : α}
    (h : x.whole.answer (encode text) = .ok a) (lenient : Bool) :
    readSignature x lenient text = .ok a := by
  obtain ⟨s', hs'⟩ := Script.answer_eq_ok_iff.1 h
  obtain ⟨hgives, hnil, hended⟩ := Script.gives_whole.1 hs'
  have hrun := (Cursor.reading_ofBytes x (encode text)).symm.trans hgives
  have hpeek := Cursor.peek_zero_of_run x (encode text)
  obtain ⟨t, ht, hkind⟩ := hended.tokenAt_zero
  rw [hnil, headKind] at hkind
  have hend : t.isEnd = true := by rw [Token.isEnd, hkind]; rfl
  unfold readSignature Cursor.ofText
  generalize (Cursor.ofBytes (encode text)).run x = outcome at hrun hpeek
  obtain ⟨answer, c⟩ := outcome
  obtain ⟨rfl, hstream⟩ := Prod.mk.inj hrun
  simp only at hstream hpeek
  rw [hstream, ht] at hpeek
  simp [acceptTrailing, hpeek, hend, Except.map]

/-! ### Texts that are not blank -/

/-- Whether a lexeme of the pattern may start with this byte, as far as its parts tell. -/
def Pattern.mayStart (b : UInt8) : Pattern → Bool
  | exactly bytes => bytes.head? == some b
  | one among | many among => among b
  | quotation _ => true
  | notBefore _ => false
  | optional p => p.mayStart b
  | andThen p q => p.mayStart b || (!p.takesByte && q.mayStart b)
  | orElse p q => p.mayStart b || q.mayStart b

/-- A lexeme starts with a byte that its pattern may start with (`Pattern.mayStart`). -/
theorem Pattern.mayStart_of_split {p : Pattern} {b : UInt8} {s lexeme rest : List UInt8}
    (h : p.split (b :: s) = some (lexeme, rest)) (hne : lexeme ≠ []) : p.mayStart b = true := by
  induction p generalizing lexeme rest with
  | exactly bytes => cases bytes <;> grind [split, splitExactly, mayStart]
  | one among => grind [split, mayStart]
  | many among => grind [split, mayStart, List.takeWhile_cons]
  | quotation mark => rfl
  | notBefore c => grind [split]
  | optional p ih => cases hp : p.split (b :: s) <;> grind [split, mayStart]
  | andThen p q ihp ihq =>
    rw [split] at h
    cases hp : p.split (b :: s) with
    | none => simp [hp] at h
    | some parts =>
      obtain ⟨first, rest'⟩ := parts
      by_cases hfirst : first = []
      · -- The first part is empty, and the second one starts with the byte.
        subst hfirst
        have htakes : p.takesByte = false :=
          Bool.eq_false_iff.2 fun htakes => ne_nil_of_split htakes hp rfl
        obtain rfl : b :: s = rest' := eq_append_of_split hp
        obtain ⟨⟨second, rest''⟩, hq, heq⟩ := Option.map_eq_some_iff.1 (hp ▸ h :)
        obtain ⟨rfl, -⟩ := Prod.mk.inj heq
        simp [mayStart, htakes, ihq hq hne]
      · simp [mayStart, ihp hp hfirst]
  | orElse p q ihp ihq => cases hp : p.split (b :: s) <;> grind [split, mayStart]

/-- A lexeme starts with a byte of a visible ASCII character. -/
theorem visible_of_splitLexeme {b : UInt8} {s : List UInt8}
    {parts : Spelling × List UInt8 × List UInt8} (h : splitLexeme (b :: s) = some parts) :
    32 < b.toNat ∧ b.toNat < 128 := by
  have hall : (List.range 256).all (fun n => (decide (32 < n) && decide (n < 128)) ||
      Spelling.all.all fun spelling => !spelling.pattern.mayStart (UInt8.ofNat n)) = true := by
    decide +kernel
  obtain ⟨spelling, lexeme, rest⟩ := parts
  obtain ⟨-, hne⟩ := splitLexeme_spec h
  obtain ⟨spelling', hmem, hsplit⟩ := List.exists_of_findSome?_eq_some h
  obtain ⟨parts, hparts, heq⟩ := Option.map_eq_some_iff.1 hsplit
  cases heq
  have hstart := Pattern.mayStart_of_split hparts hne
  have hb := List.all_eq_true.1 hall b.toNat (List.mem_range.2 b.toNat_lt)
  rw [UInt8.ofNat_toNat, Bool.or_eq_true_iff] at hb
  rcases hb with hb | hb
  · simpa using hb
  · have hnot := List.all_eq_true.1 hb spelling hmem
    rw [hstart] at hnot
    cases hnot

/-- Visible ASCII characters are not white space. -/
theorem isSpace_of_visible {c : Char} (h : 32 < c.toNat ∧ c.toNat < 128) :
    Unicode.isSpace c = false := by
  simp only [Unicode.isSpace, Bool.or_eq_false_iff, Bool.and_eq_false_iff, decide_eq_false_iff_not,
    beq_eq_false_iff_ne]
  omega

/-- Where a token can be read, there is a character that is no white space. -/
theorem exists_visible_of_read {offset : Nat} {text : List Char} {t : Token} {rest : List UInt8}
    (h : Token.read offset (encode text) = .ok (t, rest)) (hend : t.isEnd = false) :
    ∃ before c after, text = before ++ c :: after ∧ Unicode.isSpace c = false := by
  obtain ⟨gap, text', rfl, hgap, -⟩ := exists_gap text
  simp only [Token.read, hgap] at h
  cases text' with
  | nil =>
    obtain ⟨rfl, -⟩ := Prod.mk.inj (Except.ok.inj h)
    cases hend
  | cons c after =>
    refine ⟨gap, c, after, rfl, ?_⟩
    obtain ⟨b, s, hcons⟩ := exists_encode_cons c after
    simp only [hcons] at h
    split at h
    · rename_i hlexeme
      have hb := visible_of_splitLexeme hlexeme
      rcases Nat.lt_or_ge c.toNat 128 with hc | hc
      · rw [encode_cons_of_lt hc] at hcons
        rw [← (List.cons.inj hcons).1, toNat_byte hc] at hb
        exact isSpace_of_visible hb
      · -- The first byte of any other character is no byte of ASCII.
        obtain ⟨b', bs, hcons', -, hb', -⟩ := encode_cons_of_le hc after
        rw [hcons] at hcons'
        rw [(List.cons.inj hcons').1] at hb
        omega
    · split at h <;> cases h

/-- A text that is accepted as a type is not blank, with its carriage returns or without. -/
theorem isBlank_dropReturns_of_type {text : List Char}
    (h : ∃ a, Grammar.type.whole.answer (encode text) = .ok a) :
    Text.isBlank (Text.dropReturns text) = false := by
  obtain ⟨ts, ⟨ending, htokens⟩, -⟩ :=
    (exists_answer_whole_iff cut_type (fun h => readsTo_type h (free_nil _)) _).1 h
  obtain ⟨a, ha⟩ := h
  obtain ⟨s', hs'⟩ := Script.answer_eq_ok_iff.1 ha
  obtain ⟨-, -, hbody, -⟩ := Script.gives_spanned.1 (Script.gives_whole.1 hs').1
  have hlt := length_lt_of_typeBody hbody
  have hts : (Stream.ofBytes (encode text)).tokens = ts := congrArg Prod.fst htokens
  cases ts with
  | nil => simp [hts] at hlt
  | cons t ts =>
    obtain ⟨rest, hread, hend, -⟩ := lexesFrom_cons.1 ⟨ending, htokens⟩
    obtain ⟨before, c, after, rfl, hc⟩ := exists_visible_of_read hread hend
    have hne : c ≠ '\r' := by
      rintro rfl
      cases hc
    simp [Ruby.dropReturns_append hne, Text.isBlank, hc]

end TypeNotes.Signature
