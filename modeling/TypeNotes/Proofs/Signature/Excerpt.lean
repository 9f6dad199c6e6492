import TypeNotes.Proofs.Signature.Sequel
import TypeNotes.Proofs.Signature.Seam

/-!
# Signatures by themselves

A signature that was read out of a text is read again from what was cut out, to its end, with
nothing behind it (`reads_itself`).

**Bytes.** The tokens that were taken stand at the front of the bytes from the first one on. They
stay when what follows is cut off (`Reads.reseam`), and move to the start when what is in front is
(`Reads.sub`).

**Runs.** The streams of the two byte strings lie alongside each other (`Stream.alongside_ofBytes`),
up to the end of input. So both are read alike.
-/

namespace TypeNotes.Signature

open Script Grammar

variable {α : Type}

/-! ### Streams of bytes with common tokens -/

/-- Further on in a signature there are the same tokens (`Reads`), further on. -/
theorem Reads.add {o : Nat} {s rest : List UInt8} {us : List Token} (h : Reads o s us rest)
    (n : Nat) : Reads (o + n) s (us.map (Token.shift n)) rest := by
  induction us generalizing o s with
  | nil => exact h
  | cons t us ih =>
    obtain ⟨s₁, hread, hend, hrest⟩ := h
    exact ⟨s₁, Token.read_add hread n, hend, ih hrest⟩

/-- Nearer to the start of a signature there are the same tokens, nearer to it. -/
theorem Reads.sub {o n : Nat} {s rest : List UInt8} {us : List Token}
    (h : Reads (o + n) s us rest) : ∃ vs, us = vs.map (Token.shift n) ∧ Reads o s vs rest := by
  induction us generalizing o s with
  | nil => exact ⟨[], rfl, h⟩
  | cons t us ih =>
    obtain ⟨s₁, hread, hend, hrest⟩ := h
    obtain ⟨gap, spelling, lexeme, hgap, hlexeme, -⟩ := Token.exists_of_read hread hend
    have hread' := Token.read_of_splitLexeme (o := o) hgap hlexeme
    obtain ⟨rfl, -⟩ := Prod.mk.inj (Except.ok.inj (hread.symm.trans (Token.read_add hread' n)))
    obtain ⟨vs, rfl, hvs⟩ := ih hrest
    exact ⟨_ :: vs, rfl, _, hread', hend, hvs⟩

theorem Stream.Takes.tokenAt {s s' : Stream} {taken : List Token} (h : s.Takes taken s') (i : Nat) :
    s.tokenAt (taken.length + i) = s'.tokenAt i := by
  rw [Stream.tokenAt, Stream.tokenAt, h.tokens, h.ending, List.getElem?_append_right (by omega),
    Nat.add_sub_cancel_left]

/-- Behind the tokens at the front, `tokenAt` shows what is read there. -/
theorem Reads.tokenAt {s rest : List UInt8} {us : List Token} (h : Reads 0 s us rest) :
    (Stream.ofBytes s).tokenAt us.length = (Token.read (endOf 0 us) rest).map Prod.fst := by
  have hfrom := h.tokensFrom_eq
  cases hread : Token.read (endOf 0 us) rest with
  | error e =>
    rw [tokensFrom_of_error hread] at hfrom
    simp [Stream.tokenAt, Stream.ofBytes, Signature.tokens, hfrom, Except.map]
  | ok parts =>
    rw [tokensFrom_eq_ahead hread] at hfrom
    cases hend : parts.1.isEnd <;>
      simp [Stream.tokenAt, Stream.ofBytes, Signature.tokens, hfrom, ahead, hend, Except.map]

theorem Reads.exists_read {s rest : List UInt8} {us : List Token} {t : Token}
    (h : Reads 0 s us rest) (ht : (Stream.ofBytes s).tokenAt us.length = .ok t) :
    ∃ more, Token.read (endOf 0 us) rest = .ok (t, more) := by
  rw [h.tokenAt] at ht
  cases hread : Token.read (endOf 0 us) rest with
  | error e => simp [hread, Except.map] at ht
  | ok parts =>
    obtain rfl : parts.1 = t := by simpa [hread, Except.map] using ht
    exact ⟨parts.2, rfl⟩

/-- The `endOf` tokens in front of a rest is where the rest begins. -/
theorem Reads.endOf_eq {o : Nat} {d rest : List UInt8} {us : List Token}
    (h : Reads o (d ++ rest) us rest) : endOf o us = o + d.length := by
  have := h.endOf_add.1
  rw [List.length_append] at this
  omega

/-- Two byte strings with the same tokens in front of a rest, and other bytes in front of these. -/
theorem Stream.alongside_ofBytes {ends : Kind → Bool} (front front' : List UInt8)
    {d r r' : List UInt8} {us : List Token}
    (h : Reads 0 (front ++ d ++ r) (us.map (Token.shift front.length)) r)
    (h' : Reads 0 (front' ++ d ++ r') (us.map (Token.shift front'.length)) r') {v : Token}
    {rest : List UInt8} (hv : Token.read (front' ++ d).length r' = .ok (v, rest))
    (hends : ends v.kind = true) :
    (Stream.ofBytes (front ++ d ++ r)).Alongside ends front.length front'.length us.length
      (Stream.ofBytes (front' ++ d ++ r')) := by
  have htokens : (Stream.ofBytes (front ++ d ++ r)).tokens = us.map (Token.shift _) ++ _ :=
    congrArg Prod.fst h.tokensFrom_eq
  have htokens' : (Stream.ofBytes (front' ++ d ++ r')).tokens = us.map (Token.shift _) ++ _ :=
    congrArg Prod.fst h'.tokensFrom_eq
  refine ⟨fun l hl => ⟨us[l], ?_, ?_, ?_⟩, v, ?_, hends⟩
  · rw [htokens, List.getElem?_append_left (by simpa using hl)]
    simp [hl]
  · rw [htokens', List.getElem?_append_left (by simpa using hl)]
    simp [hl]
  · have hstop : us[l].stop + front'.length ≤ 0 + (front' ++ d).length :=
      h'.endOf_eq ▸ h'.endOf_add.2 _ (List.mem_map_of_mem (List.getElem_mem hl))
    rw [List.length_append] at hstop
    have hd : us[l].stop ≤ d.length := by omega
    simp only [Stream.ofBytes]
    rw [List.append_assoc, List.append_assoc, List.drop_left, List.drop_left,
      List.take_append_of_le_length hd, List.take_append_of_le_length hd]
  · have hnext := h'.tokenAt
    rwa [List.length_map, h'.endOf_eq, Nat.zero_add, hv] at hnext

/-- What was read from some tokens is read from them again, with other bytes in front of them, and in
front of another rest. -/
theorem Script.EndsAt.gives_of_reads {ends : Kind → Bool} {x : Script α} (hx : x.EndsAt ends)
    (front front' : List UInt8) (us : List Token) {d r r' : List UInt8} {a : α} {s' : Stream}
    (h : x.Gives (Stream.ofBytes (front ++ d ++ r)) a s')
    (htaken : (Stream.ofBytes (front ++ d ++ r)).Takes (us.map (Token.shift front.length)) s')
    (hreads : Reads 0 (front ++ d ++ r) (us.map (Token.shift front.length)) r)
    (hreads' : Reads 0 (front' ++ d ++ r') (us.map (Token.shift front'.length)) r') {v : Token}
    {rest : List UInt8} (hv : Token.read (front' ++ d).length r' = .ok (v, rest))
    (hends : ends v.kind = true) :
    ∃ t', x.Gives (Stream.ofBytes (front' ++ d ++ r')) a t' ∧ t'.tokenAt 0 = .ok v := by
  have hlen : (Stream.ofBytes (front ++ d ++ r)).tokens.length = us.length + s'.tokens.length := by
    rw [htaken.tokens, List.length_append, List.length_map]
  obtain ⟨t', hgives, hlen', -⟩ :=
    gives_of_alongside (k := 0) hx h hlen (Stream.alongside_ofBytes front front' hreads hreads' hv hends)
  obtain ⟨taken, htaken'⟩ := hgives.takes
  rw [htaken'.tokens, List.length_append] at hlen'
  refine ⟨t', hgives, ?_⟩
  have hnext := hreads'.tokenAt
  rw [List.length_map, hreads'.endOf_eq, Nat.zero_add, hv, ← Nat.add_right_cancel hlen',
    ← Nat.add_zero taken.length, htaken'.tokenAt] at hnext
  exact hnext

/-! ### Cutting a signature out -/

/-- Behind the gap in front of them (`splitGap`) there are the same tokens. -/
theorem Reads.splitGap {o : Nat} {s rest : List UInt8} {t : Token} {us : List Token}
    (h : Reads o s (t :: us) rest) : t.start = o + (Signature.splitGap false s).1.length ∧
      Reads (o + (Signature.splitGap false s).1.length) (Signature.splitGap false s).2 (t :: us)
        rest := by
  obtain ⟨s₁, hread, hend, hrest⟩ := h
  obtain ⟨gap, _, lexeme, hgap, -, ht⟩ := Token.exists_of_read hread hend
  refine ⟨by rw [ht, hgap], s₁, ?_, hend, hrest⟩
  rw [Token.read_splitGap, hread]

/-- The script reads a text that has tokens, each of which can stand in a signature, and is told by
no other token. -/
structure Script.Cuts (x : Script String) : Prop where
  spanned : ∃ body : Script Unit, x = Script.spanned body ∧ body.Forces 1
  ends : x.EndsAt Kind.isCalm
  picks : ∀ w, x.Picks w fun _ _ => True

/-- A byte string out of which a signature is read is a gap, tokens, and what follows. The signature
is the text of the tokens, and it is read from them alone. -/
theorem Script.Cuts.exists_excerpt {x : Script String} (hx : x.Cuts) {data : List UInt8}
    {a : String} {s' : Stream} (h : x.Gives (Stream.ofBytes data) a s') :
    ∃ front d r us t, splitGap false data = (front, d ++ r) ∧ Reads front.length (d ++ r) us r ∧
      a = Utf8.text d ∧ (Stream.ofBytes data).tokenAt 0 = .ok t ∧ t.start = front.length ∧
      s'.lastEnd = (front ++ d).length ∧ x.whole.answer d = .ok a := by
  obtain ⟨us, htaken, hforeign⟩ := Script.Picks.isForeign_of_gives hx.picks h
  obtain ⟨body, hspanned, hforces⟩ := hx.spanned
  obtain ⟨t, ht, hbody, htext⟩ := gives_spanned.1 (hspanned ▸ h)
  obtain ⟨r, hreads⟩ := exists_reads (o := 0) htaken.tokens
  obtain ⟨us', rfl⟩ : ∃ us', us = t :: us' := by
    have hlen := hforces _ _ _ hbody
    rw [htaken.tokens, List.length_append] at hlen
    cases us with
    | nil =>
      rw [List.length_nil] at hlen
      omega
    | cons u us' =>
      have hu : (Stream.ofBytes data).tokenAt 0 = .ok u := by simp [Stream.tokenAt, htaken.tokens]
      obtain rfl := Except.ok.inj (ht.symm.trans hu)
      exact ⟨us', rfl⟩
  have hlast : s'.lastEnd = endOf 0 (t :: us') := htaken.lastEnd
  obtain ⟨hend, -⟩ := hreads.endOf_add
  obtain ⟨hstart, hreads₀⟩ := hreads.splitGap
  obtain ⟨d, hd⟩ := hreads₀.suffix
  generalize hfront : (splitGap false data).1 = front at *
  obtain rfl : data = front ++ d ++ r := by
    rw [List.append_assoc, hd, ← hfront, splitGap_append]
  rw [← hd] at hreads₀
  obtain ⟨vs, hvs, hreads'⟩ := hreads₀.sub
  rw [Nat.zero_add] at *
  have hlastEnd : s'.lastEnd = (front ++ d).length := by
    rw [List.length_append] at hend
    omega
  refine ⟨front, d, r, t :: us', t, Prod.ext hfront hd.symm, hreads₀, ?_, ht, hstart, hlastEnd, ?_⟩
  · have htake : (front ++ d ++ r).take (front ++ d).length = front ++ d := List.take_left
    rw [htext, Stream.textSince, htaken.data, hlastEnd, hstart]
    simp only [Stream.ofBytes, htake, List.drop_left]
  · -- Without what follows the tokens are the same, and the end of input is next.
    rw [hvs] at htaken hreads
    have hpercent : ∀ u ∈ vs, u.kind ≠ .mark "%" := by
      intro u hu
      have := hforeign (u.shift front.length) (hvs ▸ List.mem_map_of_mem hu)
      simpa [Token.isForeign, Token.shift] using (Bool.or_eq_false_iff.1 this).2
    have heof : Token.read d.length [] = .ok (Token.eof d.length, []) := rfl
    have halone : Reads 0 ([] ++ d ++ []) (vs.map (Token.shift 0)) [] := by
      rw [show Token.shift 0 = id from rfl, List.map_id]
      exact hreads'.reseam hpercent (by simp [StopAhead])
    obtain ⟨t', hgives, hend'⟩ :=
      hx.ends.gives_of_reads front [] vs h htaken hreads halone heof rfl
    have hnil := Stream.tokens_of_isEnd hend' rfl
    rw [List.append_nil] at hgives
    refine answer_eq_ok_iff.2 ⟨t', gives_whole.2 ⟨hgives, hnil, Token.eof d.length, ?_⟩⟩
    simpa [Stream.tokenAt, hnil] using hend'

/-- The scripts whose answer is the text of what they read. -/
def excerpts : List (Script String) :=
  [type, typeName, className, classReference, blockSignature, methodType, moduleHead, classHead]

theorem cuts_of_mem_excerpts {x : Script String} (hx : x ∈ excerpts) : x.Cuts := by
  simp only [excerpts, List.mem_cons, List.not_mem_nil, or_false] at hx
  rcases hx with rfl | rfl | rfl | rfl | rfl | rfl | rfl | rfl
  · exact ⟨⟨_, rfl, forces_typeBody⟩, fun _ _ => sealed_type endsTypes_isCalm, fun _ => picks_type⟩
  · exact ⟨⟨_, rfl, forces_qualified _⟩,
      fun _ _ => sealed_spanned (sealed_qualified endsTypes_isCalm _) (forces_qualified _),
      fun _ => picks_spanned (picks_qualified _)⟩
  · exact ⟨⟨_, rfl, forces_qualified _⟩,
      fun _ _ => sealed_spanned (sealed_qualified endsTypes_isCalm _) (forces_qualified _),
      fun _ => picks_spanned (picks_qualified _)⟩
  · exact ⟨⟨_, rfl, forces_of_qualified⟩, fun _ _ => sealed_classReference endsMembers_isCalm,
      fun _ => picks_classReference⟩
  · exact ⟨⟨_, rfl, forces_last fun _ => forces_last fun _ => forces_result⟩,
      fun _ _ => sealed_blockSignature endsTypes_isCalm, fun _ => picks_blockSignature⟩
  · exact ⟨⟨_, rfl, forces_methodTypeBody⟩, fun _ _ => sealed_methodType endsMembers_isCalm,
      fun _ => picks_methodType⟩
  · exact ⟨⟨_, rfl, forces_of_qualified⟩, fun _ _ => sealed_moduleHead endsMembers_isCalm,
      fun _ => picks_moduleHead⟩
  · exact ⟨⟨_, rfl, forces_of_qualified⟩, fun _ _ => sealed_classHead endsMembers_isCalm,
      fun _ => picks_classHead⟩

/-- Behind the tokens of a text there is a rest of the text. -/
theorem Reads.exists_text {before text : List Char} {us : List Token} {rest : List UInt8}
    (h : Reads (Utf8.size before) (Utf8.encode text) us rest) :
    ∃ a b, text = a ++ b ∧ rest = Utf8.encode b := by
  induction us generalizing before text with
  | nil => exact ⟨[], text, rfl, h.symm⟩
  | cons t us ih =>
    obtain ⟨s₁, hread, -, hrest⟩ := h
    obtain ⟨-, a, b, rfl, rfl, hstop⟩ := Token.stands_of_read hread
    rw [hstop] at hrest
    obtain ⟨c, d, rfl, rfl⟩ := ih hrest
    exact ⟨a ++ c, d, by simp, rfl⟩

/-- **Signatures are self-delimiting.** What is read out of a text, whatever follows it there, is
the part of the text from the first token to the end of the last one taken, and it is read again from
that part alone, up to its end. -/
theorem reads_itself {x : Script String} (hx : x ∈ excerpts) (text : List Char) {a : String}
    {c : Cursor} (h : (Cursor.ofText text).run x = (.ok a, c)) :
    x.whole.answer (Utf8.encode a.toList) = .ok a ∧
      ∃ before after t, text = before ++ a.toList ++ after ∧
        ((Cursor.ofText text).peek 0).1 = .ok t ∧ t.start = Utf8.size before ∧
        c.lastEnd = Utf8.size (before ++ a.toList) := by
  have hgives : x.Gives (Stream.ofBytes (Utf8.encode text)) a c.toStream := by
    have hrun := Cursor.reading_ofBytes x (Utf8.encode text)
    rwa [← Cursor.ofText, h] at hrun
  obtain ⟨front, d, r, us, t, hgap, hreads, rfl, ht, hstart, hend, hwhole⟩ :=
    (cuts_of_mem_excerpts hx).exists_excerpt hgives
  obtain ⟨before, text, rfl, hgap', -⟩ := exists_gap text
  obtain ⟨rfl, hd⟩ := Prod.mk.inj (hgap.symm.trans hgap')
  rw [hd, Utf8.length_encode] at hreads
  obtain ⟨cut, after, rfl, rfl⟩ := hreads.exists_text
  obtain rfl : d = Utf8.encode cut := by
    rw [Utf8.encode_append] at hd
    exact List.append_cancel_right hd
  have hpeek : ((Cursor.ofText (before ++ (cut ++ after))).peek 0).1 = .ok t := by
    have hlast : EndLast (Cursor.ofText (before ++ (cut ++ after))).buffer := by
      simp [EndLast, Cursor.ofText, Cursor.ofBytes]
    exact (congrArg Prod.fst (Cursor.agree_peek 0 _ hlast).1).symm.trans ht
  rw [Utf8.text_encode] at hwhole ⊢
  rw [String.toList_ofList]
  refine ⟨hwhole, before, after, t, by simp, hpeek, by rwa [Utf8.length_encode] at hstart, ?_⟩
  rw [← Utf8.length_encode, Utf8.encode_append]
  exact hend

/-- A type in front of an arrow. The question mark is the last token that is taken. -/
theorem reads_itself_in_front_of_arrow :
    let c := (Cursor.ofText " A[B::C]? -> D".toList).run type
    c.1 = .ok "A[B::C]?" ∧ type.whole.answer (Utf8.encode "A[B::C]?".toList) = .ok "A[B::C]?" ∧
      c.2.lastEnd = 9 := by
  have hrun : ((Cursor.ofText " A[B::C]? -> D".toList).run type).1 = .ok "A[B::C]?" := by
    decide +kernel
  refine ⟨hrun, (reads_itself (by simp [excerpts]) _ (Prod.ext hrun rfl)).1, by decide +kernel⟩

end TypeNotes.Signature
