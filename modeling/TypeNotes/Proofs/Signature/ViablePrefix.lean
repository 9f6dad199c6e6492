import TypeNotes.Proofs.Signature.Excerpt
import TypeNotes.Proofs.Signature.Stalling

/-!
# Errors at the end of a viable prefix

Where reading a type ends in an error, the bytes in front of the error are the start of a type that
is read to its end. The error lies within the bytes, and not before the end of the last token taken.

The tokens in front of the error can be completed (`stalls_whole_type`). What is left is to spell
the completion out. It starts with a line end, which ends a comment in front of the error, and keeps
the last token in front of it from growing (`Reads.reseam`); each of its words is followed by a line
end too (`tokensFrom_fill`).
-/

namespace TypeNotes.Signature

open Script Grammar

/-! ### Tokens of types are native -/

/-- Every token that the form asks for by itself is native. -/
def Form.IsNative : Form → Prop
  | token fits => ∀ t, fits t = true → t.Native
  | phrase _ => True
  | andThen a b | orElse a b => a.IsNative ∧ b.IsNative
  | maybe a | many a => a.IsNative

namespace Form

@[simp]
theorem isNative_andThen {a b : Form} : (a >> b).IsNative ↔ a.IsNative ∧ b.IsNative := Iff.rfl

@[simp]
theorem isNative_orElse {a b : Form} : (a <|> b).IsNative ↔ a.IsNative ∧ b.IsNative := Iff.rfl

theorem isNative_token {fits : Token → Bool}
    (h : ∀ t : Token, fits t = true → t.kind ≠ .mark "-" ∧ t.kind ≠ .mark "%") :
    (token fits).IsNative := fun t ht => Token.native_of_kind (h t ht)

@[simp]
theorem isNative_ofKind {kind : Kind} (hdash : kind ≠ .mark "-") (hpercent : kind ≠ .mark "%") :
    (ofKind kind).IsNative := by
  refine isNative_token fun t ht => ?_
  obtain rfl : t.kind = kind := by simpa using ht
  exact ⟨hdash, hpercent⟩

@[simp]
theorem isNative_mark {text : String} (hdash : text ≠ "-") (hpercent : text ≠ "%") :
    (mark text).IsNative := isNative_ofKind (by simpa using hdash) (by simpa using hpercent)

@[simp]
theorem isNative_spelled {text : String} (hdash : text ≠ "-") (hpercent : text ≠ "%") :
    (spelled text).IsNative :=
  fun _ ht => Token.native_of_text (by simpa using ht) ⟨hdash, hpercent⟩

theorem isNative_classes :
    nameEnd.IsNative ∧ literal.IsNative ∧ baseType.IsNative ∧ key.IsNative := by
  refine ⟨isNative_token ?_, isNative_token ?_, isNative_token ?_, isNative_token ?_⟩
  all_goals
    intro t ht
    constructor <;>
    · intro hkind
      simp [hkind, Kind.isName, Kind.isLiteral, Kind.isBaseType, Kind.isKey] at ht

end Form

theorem Nonterminal.isNative_rule (n : Nonterminal) : n.rule.IsNative := by
  obtain ⟨hname, hliteral, hbase, hkey⟩ := Form.isNative_classes
  cases n <;> simp [rule, Form.IsNative, hname, hliteral, hbase, hkey]

theorem Derives.native {a : Form} {ts : List Token} (h : Derives a ts) (ha : a.IsNative) :
    ∀ t ∈ ts, t.Native := by
  induction h with
  | token hfits => simpa using ha _ hfits
  | @phrase n _ _ ih => exact ih n.isNative_rule
  | andThen _ _ iha ihb => exact List.forall_mem_append.2 ⟨iha ha.1, ihb ha.2⟩
  | left _ ih => exact ih ha.1
  | right _ ih => exact ih ha.2
  | none => simp
  | some _ ih => exact ih ha
  | stop => simp
  | more _ _ iha ihb => exact List.forall_mem_append.2 ⟨iha ha, ihb ha⟩

/-- Viable tokens of a signature hold no per cent sign. -/
theorem Viable.kind_ne {n : Nonterminal} {data : List UInt8} {us : List Token} {s : Stream}
    (h : Viable (.phrase n) us) (htakes : (Stream.ofBytes data).Takes us s) :
    ∀ t ∈ us, t.kind ≠ .mark "%" := by
  intro t ht
  obtain ⟨ws, -, h⟩ := h
  have hwords : (ws.map fun w => (⟨w.1, w.2, 0, 0⟩ : Token)).map Token.word = ws := by
    simp [Token.word, Function.comp_def]
  have hnative := (h _ hwords).native trivial t (List.mem_append_left _ ht)
  have hmem : t ∈ (Stream.ofBytes data).tokens := htakes.tokens ▸ List.mem_append_left _ ht
  have hforeign := hnative (spelled_of_mem_tokensFrom hmem)
  exact beq_eq_false_iff_ne.1 (Bool.or_eq_false_iff.1 hforeign).2

/-! ### Places of errors -/

/-- The error shows behind the gap at the front of `s`, which is `o` bytes into the signature, and
within `s`. -/
def Error.ShowsAt (o : Nat) (s : List UInt8) (e : Error) : Prop :=
  e.offset = o + (splitGap false s).1.length ∧ e.offset + e.length ≤ o + s.length

theorem Error.showsAt_of_read {o : Nat} {s : List UInt8} {e : Error}
    (h : Token.read o s = .error e) : e.ShowsAt o s := by
  have hgap := congrArg List.length (splitGap_append false s)
  unfold Token.read at h
  split at h
  rename_i gap tail hsplit
  rw [ShowsAt, hsplit]
  split at h
  · cases h
  split at h
  · cases h
  simp only [hsplit, List.length_append, List.length_cons] at hgap
  split at h
  · cases h
    exact ⟨rfl, by simp only; omega⟩
  · cases h
    exact ⟨rfl, by simp only; omega⟩

/-- A token starts behind the gap, and ends within the bytes. -/
theorem Token.place_of_read {o : Nat} {s rest : List UInt8} {t : Token}
    (h : Token.read o s = .ok (t, rest)) :
    t.start = o + (splitGap false s).1.length ∧ t.start ≤ t.stop ∧ t.stop ≤ o + s.length := by
  have hgap := congrArg List.length (splitGap_append false s)
  unfold Token.read at h
  split at h
  rename_i gap tail hsplit
  rw [hsplit]
  simp only [hsplit, List.length_append] at hgap
  split at h
  · cases h
    exact ⟨rfl, Nat.le_refl _, by simp only [eof]; omega⟩
  split at h
  · rename_i hlexeme
    have := congrArg List.length (splitLexeme_spec hlexeme).1
    rw [List.length_append] at this
    cases h
    exact ⟨rfl, Nat.le_add_right _ _, by simp only; omega⟩
  · split at h <;> cases h

theorem Error.showsAt_unexpected {o : Nat} {s rest : List UInt8} {t : Token}
    (h : Token.read o s = .ok (t, rest)) (expected : String) :
    (t.unexpected expected).ShowsAt o s := by
  obtain ⟨hstart, hle, hstop⟩ := Token.place_of_read h
  rw [ShowsAt, Token.unexpected]
  split
  · exact ⟨hstart, by simp only; omega⟩
  · exact ⟨hstart, by simp only; omega⟩

/-- What blocks a stream behind some tokens shows behind them. -/
theorem Stream.Blocked.showsAt {data r : List UInt8} {us : List Token} {s : Stream} {e : Error}
    (hblocked : s.Blocked e) (htakes : (Stream.ofBytes data).Takes us s)
    (hreads : Reads 0 data us r) : e.ShowsAt (endOf 0 us) r := by
  have htoken : s.tokenAt 0 = (Token.read (endOf 0 us) r).map Prod.fst := by
    rw [← hreads.tokenAt, ← htakes.tokenAt, Nat.add_zero]
  rcases hblocked with herror | ⟨t, expected, ht, rfl⟩
  · cases hread : Token.read (endOf 0 us) r with
    | error e' =>
      rw [htoken, hread] at herror
      obtain rfl : e' = e := Except.error.inj herror
      exact Error.showsAt_of_read hread
    | ok parts =>
      rw [htoken, hread] at herror
      cases herror
  · cases hread : Token.read (endOf 0 us) r with
    | error e' =>
      rw [htoken, hread] at ht
      cases ht
    | ok parts =>
      rw [htoken, hread] at ht
      obtain rfl : parts.1 = t := Except.ok.inj ht
      exact Error.showsAt_unexpected hread expected

/-! ### Spelling completions out -/

/-- Words, each on a line of its own. -/
def fill (ws : List (Kind × String)) : List UInt8 :=
  ws.flatMap fun w => Utf8.encode w.2.toList ++ [byte '\n']

/-- One of the `fillers` is read as one token. -/
theorem read_filler {w : Kind × String} (hw : w ∈ fillers) (o : Nat) (s : List UInt8) :
    ∃ t, Token.read o (Utf8.encode w.2.toList ++ byte '\n' :: s) = .ok (t, byte '\n' :: s) ∧
      t.isEnd = false ∧ t.word = w := by
  have hread : ∀ w ∈ fillers, Token.read 0 (Utf8.encode w.2.toList) =
      .ok (⟨w.1, w.2, 0, (Utf8.encode w.2.toList).length⟩, []) := by decide +kernel
  have hkinds : ∀ w ∈ fillers, w.1 ≠ .endOfInput ∧ w.1 ≠ .mark "%" := by decide
  obtain ⟨hend, hpercent⟩ := hkinds w hw
  have hend : Token.isEnd ⟨w.1, w.2, 0, (Utf8.encode w.2.toList).length⟩ = false := by
    simpa [Token.isEnd] using hend
  have hreads : Reads 0 (Utf8.encode w.2.toList ++ []) [_] [] :=
    ⟨[], by rw [List.append_nil]; exact hread w hw, hend, rfl⟩
  have hstop : StopAhead (byte '\n' :: s) := by simp [StopAhead, stops]
  obtain ⟨_, hread, -, rfl⟩ := hreads.reseam (by simpa using hpercent) hstop
  have hread := Token.read_add hread o
  rw [Nat.zero_add] at hread
  exact ⟨_, hread, hend, rfl⟩

/-- Fillers are read one after the other, up to the end of input. -/
theorem tokensFrom_fill {ws : List (Kind × String)} (hws : ws ⊆ fillers) (o : Nat) :
    ∃ cs t, tokensFrom o (fill ws) = (cs, .ok t) ∧ cs.map Token.word = ws := by
  induction ws generalizing o with
  | nil =>
    have hread : Token.read o (fill []) = .ok (Token.eof o, []) := rfl
    exact ⟨[], Token.eof o, tokensFrom_eq_ahead hread, rfl⟩
  | cons w ws ih =>
    obtain ⟨hw, hws⟩ := List.cons_subset.1 hws
    obtain ⟨t, hread, hend, hword⟩ := read_filler hw o (fill ws)
    obtain ⟨cs, t', hcs, hwords⟩ := ih hws (t.stop + (0 + 1))
    have hfill : fill (w :: ws) = Utf8.encode w.2.toList ++ byte '\n' :: fill ws := by simp [fill]
    refine ⟨t :: cs, t', ?_, by rw [List.map_cons, hword, hwords]⟩
    have hrest : tokensFrom t.stop (byte '\n' :: fill ws) = (cs, .ok t') :=
      (tokensFrom_congr (Token.read_newline t.stop [] (fill ws))).trans hcs
    rw [hfill, tokensFrom_eq_ahead hread, hrest]
    simp [ahead, hend]

/-- **Completion.** Viable tokens in front of an error are completed to a type. -/
theorem exists_completion {data : List UInt8} {us : List Token} {s : Stream} {e : Error}
    (htakes : (Stream.ofBytes data).Takes us s) (hviable : Viable (.phrase .type) us)
    (hblocked : s.Blocked e) :
    endOf 0 us ≤ e.offset ∧ e.offset + e.length ≤ data.length ∧
      ∃ x text, type.whole.answer (data.take e.offset ++ x) = .ok text := by
  obtain ⟨r, hreads⟩ := exists_reads (o := 0) htakes.tokens
  obtain ⟨hoffset, hlength⟩ := hblocked.showsAt htakes hreads
  have hpercent := hviable.kind_ne htakes
  obtain ⟨hend, -⟩ := hreads.endOf_add
  obtain ⟨d, rfl⟩ := hreads.suffix
  rw [List.length_append] at hend
  refine ⟨by omega, by rw [List.length_append]; omega, ?_⟩
  obtain ⟨ws, hws, hderives⟩ := hviable
  obtain ⟨cs, t, hcs, hwords⟩ :=
    tokensFrom_fill hws (endOf 0 us + ((splitGap false r).1.length + 1))
  have htake : (d ++ r).take e.offset = d ++ (splitGap false r).1 := by
    have hgap : (splitGap false r).1 <+: r := ⟨_, splitGap_append false r⟩
    rw [hoffset, show endOf 0 us = d.length by omega, List.take_length_add_append,
      ← List.prefix_iff_eq_take.1 hgap]
  have hstop : StopAhead ((splitGap false r).1 ++ byte '\n' :: fill ws) :=
    stopAhead_of_splitGap (splitGap_newline false r (fill ws)) (by simp)
  have hlexes : Lexes (d ++ ((splitGap false r).1 ++ byte '\n' :: fill ws)) (us ++ cs) := by
    refine ⟨t, ?_⟩
    rw [tokens, (hreads.reseam hpercent hstop).tokensFrom_eq,
      tokensFrom_congr (Token.read_newline _ _ _), hcs]
  refine ⟨byte '\n' :: fill ws, ?_⟩
  rw [htake, List.append_assoc]
  exact (exists_answer_whole_iff cut_type (fun h => readsTo_type h (free_nil _)) _).2
    ⟨us ++ cs, hlexes, hderives cs hwords⟩

/-- `lastEnd` is no later than the ends of the tokens that are taken after it. -/
theorem Stream.lastEnd_le {data : List UInt8} {us vs : List Token} {s s' : Stream}
    (hus : (Stream.ofBytes data).Takes us s) (hvs : s.Takes vs s') : s.lastEnd ≤ s'.lastEnd := by
  have hall := hus.trans hvs
  obtain ⟨r, hreads⟩ := exists_reads (o := 0) hall.tokens
  have hle := hreads.endOf_add.2
  rw [hus.lastEnd, show s'.lastEnd = endOf 0 (us ++ vs) from hall.lastEnd]
  cases hlast : us.getLast? with
  | none => exact Nat.zero_le _
  | some t => exact hle t (List.mem_append_left _ (List.mem_of_getLast? hlast))

/-- **Errors at the end of a viable prefix.** Where a type cannot be read, the error lies within the
bytes, and not before the end of the last token taken. What stands in front of it can be completed
to a type that is read to its end, also where the error came up in looking ahead. -/
theorem error_ends_viable_prefix (data : List UInt8) {e : Error} {c : Cursor}
    (h : (Cursor.ofBytes data).run type.whole = (.error e, c)) :
    c.lastEnd ≤ e.offset ∧ e.offset + e.length ≤ data.length ∧
      ∃ x text, type.whole.answer (data.take e.offset ++ x) = .ok text := by
  have hfails : type.whole.Fails (Stream.ofBytes data) e c.toStream := by
    rw [Fails, Cursor.reading_ofBytes, h]
  obtain ⟨us, s, htakes, hviable, hblocked, vs, hvs⟩ := stalls_whole_type hfails
  obtain ⟨hoffset, hlength, hcompletion⟩ := exists_completion htakes hviable hblocked
  obtain ⟨taken, htaken⟩ := hfails.takes
  have hlast : s.lastEnd = endOf 0 us := htakes.lastEnd
  have hle : c.lastEnd ≤ s.lastEnd := Stream.lastEnd_le htaken hvs
  exact ⟨by omega, hlength, hcompletion⟩

/-- A bracket that might have opened a type of `self` is looked at and not taken; the dollar sign
behind it starts no token. The bracket is completed all the same. -/
theorem error_ends_viable_prefix_behind_bracket :
    let c := (Cursor.ofText "^(A) [$".toList).run type.whole
    c.1 = .error ⟨.unexpectedCharacter '$', 6, 1⟩ ∧ c.2.lastEnd = 4 ∧
      ∃ x text, type.whole.answer (Utf8.encode "^(A) [".toList ++ x) = .ok text := by
  have hrun : ((Cursor.ofText "^(A) [$".toList).run type.whole).1 =
      .error ⟨.unexpectedCharacter '$', 6, 1⟩ := by decide +kernel
  have htake : (Utf8.encode "^(A) [$".toList).take 6 = Utf8.encode "^(A) [".toList := by
    decide +kernel
  have hviable := error_ends_viable_prefix (Utf8.encode "^(A) [$".toList) (Prod.ext hrun rfl)
  exact ⟨hrun, by decide +kernel, htake ▸ hviable.2.2⟩

end TypeNotes.Signature
