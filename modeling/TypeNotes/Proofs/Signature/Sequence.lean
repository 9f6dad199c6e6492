import TypeNotes.Proofs.Signature.Excerpt
import TypeNotes.Proofs.Signature.Tag

/-!
# Declarations behind each other

Two sequences of declarations, with a line end between them, are a sequence of as many declarations
as both together (`declarations_append`), unless the second one starts at the root of the name space:
two colons would go on with a name in front of them.

**Items.** `Declares count s t` counts the members and declarations up to the end of input. A member
is read alike in front of anything that starts an item (`sealed_member`), and so the items of one
stream are those of any other one that has the same tokens and goes on with items (`Declares.append`).

**Bytes.** A line end ends every lexeme and every comment, so that the tokens of the first sequence
stay (`Reads.reseam_of_opensTag`), and those of the second one stand behind them, further on.
-/

namespace TypeNotes.Signature

open Script Grammar

variable {s s' t : Stream} {ends : Kind → Bool} {i j count : Nat}

/-! ### Counting items -/

/-- Up to the end of input, where `t` is, the stream `s` holds so many members and declarations, with
tags among them. -/
inductive Declares : Nat → Stream → Stream → Prop
  /-- The end of input. -/
  | stop {s : Stream} {u : Token} (hu : s.tokenAt 0 = .ok u) (hend : u.isEnd = true) :
      Declares 0 s s
  /-- A tag. -/
  | tag {count : Nat} {s t : Stream} {u : Token} (hu : s.tokenAt 0 = .ok u) (htag : u.kind = .tag)
      (hrest : Declares count s.rest t) : Declares count s t
  /-- A member or a declaration. -/
  | item {count : Nat} {s s₁ t : Stream} {u : Token} (hu : s.tokenAt 0 = .ok u)
      (hend : u.isEnd = false) (htag : u.kind ≠ .tag) (hmember : member.Gives s () s₁)
      (hrest : Declares count s₁ t) : Declares (count + 1) s t

theorem gives_declarations_iff : declarations.Gives s count t ↔ Declares count s t := by
  constructor
  · intro h
    generalize hlen : s.tokens.length = len
    induction len using Nat.strong_induction_on generalizing s count with
    | _ len ih =>
      obtain ⟨u, hu, ⟨htag, hrest⟩ | ⟨hend, rfl, rfl⟩ | ⟨hend, htag, s₁, n, hmember, hrest, rfl⟩⟩ :=
        gives_declarations.1 h
      · have hlt := Stream.length_rest_lt hu (by simp [Token.isEnd, htag])
        exact .tag hu htag (ih _ (hlen ▸ hlt) hrest rfl)
      · exact .stop hu hend
      · have hlt := (paced_member.mono (by decide)).length_lt (Stream.knows_some hu) hmember
        exact .item hu hend htag hmember (ih _ (hlen ▸ hlt) hrest rfl)
  · intro h
    induction h with
    | stop hu hend => exact gives_declarations.2 ⟨_, hu, .inr (.inl ⟨hend, rfl, rfl⟩)⟩
    | tag hu htag _ ih => exact gives_declarations.2 ⟨_, hu, .inl ⟨htag, ih⟩⟩
    | item hu hend htag hmember _ ih =>
      exact gives_declarations.2 ⟨_, hu, .inr (.inr ⟨hend, htag, _, _, hmember, ih, rfl⟩)⟩

theorem Declares.exists_end (h : Declares count s t) : ∃ u, t.tokenAt 0 = .ok u ∧ u.isEnd = true := by
  induction h with
  | stop hu hend => exact ⟨_, hu, hend⟩
  | tag _ _ _ ih => exact ih
  | item _ _ _ _ _ ih => exact ih

theorem Declares.exists_token (h : Declares count s t) : ∃ u, s.tokenAt 0 = .ok u := by
  cases h with
  | stop hu _ | tag hu _ _ | item hu _ _ _ _ => exact ⟨_, hu⟩

/-- **Items in front of items** are counted together. -/
theorem Declares.append (h : EndsMembers ends) {m n : Nat} (hs : Declares m s t)
    (halong : s.Alongside ends i j s.tokens.length s')
    (hrest : ∀ taken r, s'.Takes taken r → taken.length = s.tokens.length → ∃ t', Declares n r t') :
    ∃ t', Declares (m + n) s' t' := by
  induction hs generalizing s' with
  | @stop s u hu hend =>
    rw [Nat.zero_add]
    exact hrest [] s' (.refl s') (by rw [Stream.tokens_of_isEnd hu hend])
  | @tag count s t u hu htag _ ih =>
    have hlen := congrArg List.length (Stream.tokens_of_tokenAt_zero hu (by simp [Token.isEnd, htag]))
    rw [List.length_cons] at hlen
    rw [hlen] at halong
    obtain ⟨v, hend, hv, hv'⟩ := halong.tokenAt_of_lt (Nat.zero_lt_succ _)
    obtain rfl := Except.ok.inj (hu.symm.trans hv)
    have htaken : s'.Takes [v.shift j] s'.rest := by
      have := s'.takes_rest
      rwa [Stream.tokens_of_tokenAt_zero hv' hend] at this
    obtain ⟨t', ht'⟩ := ih halong.rest fun taken r htaken' hlength =>
      hrest _ r (htaken.trans htaken') (by simp [hlength, hlen])
    exact ⟨t', .tag hv' htag ht'⟩
  | @item count s s₁ t u hu hend htag hmember _ ih =>
    obtain ⟨m₀, hm₀⟩ := Nat.exists_eq_add_of_le' hmember.length_le
    have hlt := (paced_member.mono (by decide)).length_lt (Stream.knows_some hu) hmember
    rw [hm₀] at halong
    obtain ⟨v, -, hv, hv'⟩ := halong.tokenAt_of_lt (show 0 < m₀ + _ by omega)
    obtain rfl := Except.ok.inj (hu.symm.trans hv)
    obtain ⟨s₁', hmember', hlen, halong'⟩ :=
      gives_of_alongside (fun _ _ => sealed_member h) hmember hm₀ halong
    obtain ⟨taken, htaken⟩ := hmember'.takes
    obtain ⟨t', ht'⟩ := ih halong' fun taken' r htaken' hlength =>
      hrest _ r (htaken.trans htaken') (by rw [List.length_append]; have := htaken.length; omega)
    rw [Nat.add_right_comm]
    exact ⟨t', .item hv' hend htag hmember' ht'⟩

/-! ### Bytes -/

/-- The kinds of tokens that start an item and are no part of one that came before. -/
def Kind.startsAnew (kind : Kind) : Bool := kind.startsItem && kind != .mark "::"

theorem endsMembers_startsAnew : EndsMembers Kind.startsAnew := by
  refine ⟨fun mark _ => ?_, rfl⟩
  simp [Kind.startsAnew, Kind.startsItem]

/-- Declarations are counted alike further on (`Declares`). -/
theorem Declares.shift {s r : Stream} (hs : Declares count s t) {front : List UInt8}
    (hdata : r.data = front ++ s.data)
    (htokens : r.tokens = s.tokens.map (Token.shift front.length)) {u : Token}
    (hending : r.ending = .ok u) : ∃ t', Declares count r t' := by
  have hend : u.isEnd = true := r.thenEnd.isEnd_ending u hending
  have hbehind {taken : List Token} {r' : Stream} (htaken : r.Takes taken r')
      (hlength : taken.length = s.tokens.length) : r'.tokenAt 0 = .ok u := by
    have hnil : r'.tokens = [] := by
      have := htaken.length
      rw [htokens, List.length_map] at this
      exact List.length_eq_zero_iff.1 (by omega)
    simp [Stream.tokenAt, hnil, htaken.ending, hending]
  refine hs.append (i := 0) (j := front.length) (n := 0) endsMembers_startsAnew
    ⟨fun l hl => ⟨s.tokens[l], ?_, ?_, ?_⟩, u, ?_, ?_⟩
    fun taken r' htaken hlength => ⟨r', .stop (hbehind htaken hlength) hend⟩
  · simp [hl, Token.shift]
  · simp [htokens, hl]
  · rw [hdata, List.drop_left, List.drop_zero]
  · simp [Stream.tokenAt, htokens, hending]
  · rw [beq_iff_eq.1 hend]
    rfl

/-- The tokens of a byte string stay the same in front of a line end, if no tag opens among them, and
behind the line end there are those of another byte string, further on. -/
theorem exists_reads_newline {a : List UInt8} {us : List Token} (ha : LexesFrom 0 a us)
    (hopen : ∀ vs, vs <:+ us → opensTag vs = false) (b : List UInt8) :
    ∃ d r, d ++ r = a ∧ Reads 0 (d ++ r) us r ∧
      Reads 0 (d ++ (r ++ byte '\n' :: b)) us (r ++ byte '\n' :: b) ∧
      ∀ o, Token.read o (r ++ byte '\n' :: b) = Token.read (o + (r.length + 1)) b := by
  obtain ⟨u, hu⟩ := ha
  have hall : (tokensFrom 0 a).1 = us ++ [] := by rw [hu, List.append_nil]
  obtain ⟨r, hreads⟩ := exists_reads hall
  obtain ⟨d, rfl⟩ := hreads.suffix
  have hgap : splitGap false r = (r, []) := by
    have hfrom := hreads.tokensFrom_eq
    rw [hu] at hfrom
    obtain ⟨hnil, hending⟩ := Prod.mk.inj hfrom
    have hlexes : LexesFrom (endOf 0 us) r [] :=
      ⟨u, Prod.ext (List.append_cancel_left (by rw [← hnil, List.append_nil])) hending.symm⟩
    obtain ⟨_, _, hread, hend⟩ := lexesFrom_nil.1 hlexes
    exact splitGap_of_isEnd hread hend
  have hnewline := splitGap_newline false r b
  have hread := fun o => Token.read_newline o r b
  rw [hgap] at hnewline
  simp only [hgap] at hread
  have hstop : StopAhead (r ++ byte '\n' :: b) := stopAhead_of_splitGap hnewline (by simp)
  exact ⟨d, r, rfl, hreads, hreads.reseam_of_opensTag hopen hstop, hread⟩

/-- What is accepted as declarations is made of items, and no tag is left open among its tokens. -/
theorem exists_declares {data : List UInt8} (h : declarations.answer data = .ok count) :
    ∃ us t, Declares count (Stream.ofBytes data) t ∧ LexesFrom 0 data us ∧
      (∀ vs, vs <:+ us → opensTag vs = false) ∧ (Stream.ofBytes data).AtItem := by
  obtain ⟨t, hgives⟩ := answer_eq_ok_iff.1 h
  have hdeclares := gives_declarations_iff.1 hgives
  obtain ⟨u, hu, hend⟩ := hdeclares.exists_end
  have hnil := Stream.tokens_of_isEnd hu hend
  obtain ⟨us, htaken⟩ := hgives.takes
  have htokens : (Stream.ofBytes data).tokens = us := by rw [htaken.tokens, hnil, List.append_nil]
  have hending : (Stream.ofBytes data).ending = .ok u := by
    rw [← htaken.ending]
    simpa [Stream.tokenAt, hnil] using hu
  refine ⟨us, t, hdeclares, ⟨u, Prod.ext htokens hending⟩, fun vs hvs => ?_,
    atItem_of_declarations hgives⟩
  cases vs with
  | nil => rfl
  | cons v vs =>
    have hitem : t.AtItem := Stream.atItem_of_tokenAt hu (by rw [beq_iff_eq.1 hend]; rfl)
    have hspelled : (Stream.ofBytes data).Spelled := fun _ => spelled_of_mem_tokensFrom
    refine closed_of_declarations hgives hspelled hitem _ (htokens ▸ hvs) ?_
    rw [hnil, List.length_nil, List.length_cons]
    exact Nat.succ_pos _

/-- The first token of items that do not start at the root of the name space. -/
theorem exists_startsAnew {b : List UInt8} (htoken : ∃ v, (Stream.ofBytes b).tokenAt 0 = .ok v)
    (hitem : (Stream.ofBytes b).AtItem)
    (hroot : ∀ t rest, Token.read 0 b = .ok (t, rest) → t.kind ≠ .mark "::") :
    ∃ v rest, Token.read 0 b = .ok (v, rest) ∧ v.kind.startsAnew = true := by
  obtain ⟨v, hv⟩ := htoken
  have hnone : Reads 0 b [] b := rfl
  obtain ⟨rest, hread⟩ : ∃ rest, Token.read 0 b = .ok (v, rest) := hnone.exists_read hv
  exact ⟨v, rest, hread, by simp [Kind.startsAnew, hitem v hv, hroot v rest hread]⟩

/-- **Declarations compose.** Two sequences of declarations with a line end between them are a sequence
of as many declarations as both together, if the first token of the second one is no double colon. -/
theorem declarations_append {a b : List UInt8} {m n : Nat} (ha : declarations.answer a = .ok m)
    (hb : declarations.answer b = .ok n)
    (hroot : ∀ t rest, Token.read 0 b = .ok (t, rest) → t.kind ≠ .mark "::") :
    declarations.answer (a ++ byte '\n' :: b) = .ok (m + n) := by
  obtain ⟨us, ta, hdeclares, hlexes, hopen, -⟩ := exists_declares ha
  obtain ⟨vs, tb, hdeclares', hlexes', -, hitem⟩ := exists_declares hb
  obtain ⟨d, r, rfl, hreads, hreads', hread⟩ := exists_reads_newline hlexes hopen b
  have hbytes : d ++ r ++ byte '\n' :: b = d ++ (r ++ byte '\n' :: b) := List.append_assoc ..
  have hfront : d ++ (r ++ byte '\n' :: b) = (d ++ (r ++ [byte '\n'])) ++ b := by simp
  have hlength : (d ++ (r ++ [byte '\n'])).length = d.length + (r.length + 1) := by simp
  -- The tokens of the second sequence stand behind the first one.
  obtain ⟨u, hu⟩ := hlexes'.add (d.length + (r.length + 1))
  rw [Nat.zero_add, ← tokensFrom_congr (hread d.length)] at hu
  have htokens := hreads'.tokensFrom_eq
  rw [hreads'.endOf_eq, Nat.zero_add, hu] at htokens
  -- So does its first token, which is where the last item of the first sequence ends.
  obtain ⟨v, rest, hv, hends⟩ := exists_startsAnew hdeclares'.exists_token hitem hroot
  have hv := Token.read_add hv (d.length + (r.length + 1))
  rw [Nat.zero_add, ← hread d.length] at hv
  have hsame : us.map (Token.shift ([] : List UInt8).length) = us := List.map_id us
  have halong := Stream.alongside_ofBytes [] [] (hsame.symm ▸ hreads) (hsame.symm ▸ hreads') hv hends
  have hcount : us.length = (Stream.ofBytes (d ++ r)).tokens.length := by
    obtain ⟨_, hall⟩ := hlexes
    exact (congrArg (fun parts => parts.1.length) hall).symm
  rw [hcount] at halong
  obtain ⟨t', ht'⟩ := hdeclares.append endsMembers_startsAnew halong fun taken s hs htaken => by
    refine hdeclares'.shift (hs.data.trans hfront) ?_ (hs.ending.trans (congrArg Prod.snd htokens))
    have hall := (congrArg Prod.fst htokens).symm.trans hs.tokens
    rw [(List.append_inj hall (by rw [htaken, hcount])).2.symm, hlength]
    obtain ⟨_, hall'⟩ := hlexes'
    rw [show (Stream.ofBytes b).tokens = vs from congrArg Prod.fst hall']
  rw [hbytes]
  exact answer_eq_ok_iff.2 ⟨t', gives_declarations_iff.2 ht'⟩

/-- A class with the name of an operator among its methods, in front of an attribute. -/
theorem declarations_append_operators :
    let a := Utf8.encode "class A\n  def %: (untyped) -> A\nend # %a(".toList
    let b := Utf8.encode "# )\nalias % a attr_reader b: A?".toList
    declarations.answer a = .ok 1 ∧ declarations.answer b = .ok 2 ∧
      (Token.read 0 b).toOption.map (fun parts => parts.1.kind) = some (.keyword "alias") ∧
      declarations.answer (a ++ byte '\n' :: b) = .ok 3 := by
  intro a b
  have ha : declarations.answer a = .ok 1 := by decide +kernel
  have hb : declarations.answer b = .ok 2 := by decide +kernel
  have hfirst : (Token.read 0 b).toOption.map (fun parts => parts.1.kind) =
      some (.keyword "alias") := by decide +kernel
  refine ⟨ha, hb, hfirst, declarations_append ha hb fun t rest ht => ?_⟩
  have hkind : t.kind = .keyword "alias" := by simpa [ht, Except.toOption] using hfirst
  simp [hkind]

end TypeNotes.Signature
