import TypeNotes.Proofs.Signature.Seam
import TypeNotes.Proofs.Signature.Sequel

/-!
# Tags that are not closed

A per cent sign is the name of a method, and with the letter `a` and a bracket it turns into a tag as
soon as the closing bracket follows. In declarations that are read without an error no per cent sign
stands in such a place (`closed_of_declarations`): a colon follows it, or another name and the next
member.

`Script.Tidy` says this of a script, as far as it says so of the phrases that the script calls. The
phrases without members pass as they take no per cent sign (`Stream.closed_of_picks`).
-/

namespace TypeNotes.Signature

open Script Grammar

variable {α β : Type} {s t r : Stream} {count : Nat}

/-! ### Tokens between two streams -/

/-- The text of every mark among the tokens is the mark. -/
def Stream.Spelled (s : Stream) : Prop := ∀ u ∈ s.tokens, u.Spelled

/-- No tag opens among the tokens that the first stream has before the second one. -/
def Stream.Closed (s t : Stream) : Prop :=
  ∀ vs, vs <:+ s.tokens → t.tokens.length < vs.length → opensTag vs = false

/-- The kinds of tokens that stand behind a member: those at the start of another one or of a tag,
`end`, and the end of input. -/
def Kind.startsItem : Kind → Bool
  | .endOfInput | .tag | .keyword _ | .instanceVariable | .globalVariable | .upperKey
  | .upperName => true
  | kind => kind == .mark "::"

/-- What stands next is no part of a member that came before. -/
def Stream.AtItem (s : Stream) : Prop := ∀ u, s.tokenAt 0 = .ok u → u.kind.startsItem = true

namespace Stream

/-- What is left of a stream is spelled like all of it. -/
theorem Takes.spelled {taken : List Token} (h : s.Takes taken t) (hs : s.Spelled) : t.Spelled :=
  fun u hu => hs u (h.tokens ▸ List.mem_append_right _ hu)

/-- If no tag opens up to one place and none from there on, none opens (`Closed`). -/
theorem Closed.trans (h : s.Closed t) (h' : t.Closed r) {taken : List Token}
    (htaken : s.Takes taken t) : s.Closed r := by
  intro vs hvs hlen
  rcases Nat.lt_or_ge t.tokens.length vs.length with hlt | hge
  · exact h vs hvs hlt
  · have hsuffix : t.tokens <:+ s.tokens := htaken.tokens ▸ List.suffix_append _ _
    exact h' vs (List.suffix_of_suffix_length_le hvs hsuffix hge) hlen

/-- One token is taken, at which no tag opens. -/
theorem closed_rest {u : Token} (hu : s.tokenAt 0 = .ok u) (h : opensTag s.tokens = false) :
    s.Closed s.rest := by
  intro vs hvs hlen
  cases hend : u.isEnd with
  | true =>
    rw [rest_of_nil (tokens_of_isEnd hu hend)] at hlen
    have := hvs.length_le
    omega
  | false =>
    have htokens := tokens_of_tokenAt_zero hu hend
    have hlen' : s.tokens.length ≤ vs.length := by
      rw [htokens, List.length_cons]
      exact hlen
    rwa [hvs.eq_of_length_le hlen']

/-- Scripts that pick native tokens take no token at which a tag opens. -/
theorem closed_of_picks {x : Script α} {a : α} (hx : x.Picks s.window fun _ _ => True)
    (h : x.Gives s a t) (hs : s.Spelled) : s.Closed t := by
  obtain ⟨taken, htaken, hnative⟩ := hx.native_of_gives h
  intro vs hvs hlen
  cases vs with
  | nil => rfl
  | cons u vs =>
    -- The suffix is longer than what is left, so it starts with a token that was taken.
    have hu : u ∈ taken := by
      obtain ⟨front, hfront⟩ := hvs
      rw [htaken.tokens] at hfront
      rcases List.append_eq_append_iff.1 hfront with ⟨d, rfl, hd⟩ | ⟨d, rfl, hd⟩
      · cases d with
        | nil =>
          have := congrArg List.length hd
          rw [List.nil_append] at this
          omega
        | cons v d =>
          obtain ⟨rfl, -⟩ := List.cons.inj hd
          simp
      · have := congrArg List.length hd
        rw [List.length_append] at this
        omega
    have hspelled : u.Spelled := hs u (htaken.tokens ▸ List.mem_append_left _ hu)
    have hforeign := (Bool.or_eq_false_iff.1 (hnative u hu hspelled)).2
    exact opensTag_cons (by simpa using hforeign) vs

end Stream

/-! ### The names of methods -/

section Picks

variable {w : Nat → Token}

/-- What `attached` takes is native, unless it is a dash or a per cent sign. -/
@[simp]
theorem picks_attached {mark : String} (h : mark ≠ "-" ∧ mark ≠ "%") :
    (attached mark).Picks w fun _ _ => True := by
  simp only [attached, bind_eq, pure_eq, picks_bind, picks_peek, picks_lastEnd, picks_ite,
    picks_skip, picks_done, Bool.and_eq_true, beq_iff_eq, implies_true, and_true]
  intro n hmark
  exact Token.native_of_kind (by simpa [hmark.1] using h)

@[simp]
theorem picks_singletonMarker : singletonMarker.Picks w fun _ _ => True := by
  simp only [singletonMarker, bind_eq, pure_eq, picks_bind, picks_nextIs, picks_ite,
    picks_peekSecond, picks_done, beq_iff_eq, implies_true, and_true]
  intro hself
  split <;> simp_all [Token.native_of_kind]

/-- No foreign token is taken as the name of a method, unless `isOperatorName` holds of it. -/
theorem picks_methodName (h : (w 0).kind.isOperatorName = false) :
    methodName.Picks w fun _ _ => True := by
  simp only [methodName, bind_eq, pure_eq, picks_bind, picks_peek, picks_ite, picks_skip, picks_done,
    picks_fail, h, Bool.false_eq_true, beq_iff_eq, Bool.or_eq_true, false_imp_iff, true_and,
    not_false_eq_true, true_imp_iff, implies_true, and_true]
  refine ⟨fun hbracket => ⟨Token.native_of_kind (by simp [hbracket]), ?_⟩, fun _ hname => ⟨?_, ?_⟩⟩
  · exact (picks_expect (by decide)).imp fun _ _ _ => picks_attached (by decide)
  · refine Token.native_of_kind ⟨fun heq => ?_, fun heq => ?_⟩ <;>
      simp [heq, Kind.isName, Kind.isKeyword] at hname
  · refine (picks_attached (by decide)).imp fun _ _ _ _ => ?_
    exact (picks_attached (by decide)).imp fun _ _ _ _ => picks_attached (by decide)

@[simp]
theorem picks_typed : typed.Picks w fun _ _ => True := by
  simp [typed]

/-- An attribute takes native tokens only, if the word that starts it is one. -/
@[simp]
theorem picks_attributeMember (h : (w 0).Native) : attributeMember.Picks w fun _ _ => True := by
  simp only [attributeMember, bind_eq, picks_bind, picks_skip]
  refine ⟨h, picks_singletonMarker.imp fun _ w _ => ?_⟩
  simp only [picks_nextIs, picks_ite, beq_iff_eq]
  refine ⟨fun hkey => ⟨Token.native_of_kind (by simp [hkey]), picks_typeBody⟩, fun _ => ?_⟩
  simp

@[simp]
theorem picks_aliasDeclaration (h : (w 0).Native) : aliasDeclaration.Picks w fun _ _ => True := by
  simp [aliasDeclaration, h, call, Phrase.isMemberless]

end Picks

/-- What is taken as the name of a method. -/
theorem gives_methodName {u : Token} (h : methodName.Gives s () r) (hu : s.tokenAt 0 = .ok u) :
    u.kind.isOperatorName = false ∨ r = s.rest := by
  simp only [methodName, bind_eq, pure_eq, gives_bind, gives_peek] at h
  obtain ⟨_, _, ⟨hu', rfl⟩, h⟩ := h
  obtain rfl := Except.ok.inj (hu.symm.trans hu')
  split at h
  · rename_i hbracket
    exact .inl (by rw [beq_iff_eq.1 hbracket]; rfl)
  · split at h
    · exact .inr (gives_skip.1 h).2
    · rename_i hoperator
      exact .inl (by simpa using hoperator)

/-- The name of a method opens no tag, unless it is a single token that does. -/
theorem closed_of_methodName (h : methodName.Gives s () r) (hs : s.Spelled)
    (hrest : r = s.rest → opensTag s.tokens = false) : s.Closed r := by
  obtain ⟨u, _, hpeek, -⟩ := gives_bind.1 h
  obtain ⟨hu, -⟩ := gives_peek.1 hpeek
  rcases gives_methodName h hu with hname | rfl
  · refine Stream.closed_of_picks (picks_methodName ?_) h hs
    rwa [Stream.window_of_tokenAt hu]
  · exact Stream.closed_rest hu (hrest rfl)

/-- A name in front of a bracket is taken by itself. -/
theorem rest_of_methodName {u v : Token} (h : methodName.Gives s () r)
    (hu : s.tokenAt 0 = .ok u) (hname : u.kind = .lowerName) (hv : s.rest.tokenAt 0 = .ok v)
    (hbracket : v.kind.opensBracket = true) : r = s.rest := by
  have hattached : ∀ {mark : String} {b : Bool} {t : Stream},
      (Kind.mark mark).opensBracket = false → (attached mark).Gives s.rest b t →
        b = false ∧ s.rest = t := by
    intro mark b t hmark hgives
    obtain ⟨v', hv', ⟨hkind, -⟩ | ⟨-, hstay⟩⟩ := gives_attached.1 hgives
    · obtain rfl := Except.ok.inj (hv.symm.trans hv')
      rw [hkind, hmark] at hbracket
      contradiction
    · exact hstay
  simp only [methodName, bind_eq, pure_eq, gives_bind, gives_peek] at h
  obtain ⟨_, _, ⟨hu', rfl⟩, h⟩ := h
  obtain rfl := Except.ok.inj (hu.symm.trans hu')
  rw [if_neg (by simp [hname]), if_neg (by simp [hname, Kind.isOperatorName]),
    if_pos (by simp [hname, Kind.isName])] at h
  simp only [gives_bind, gives_skip] at h
  obtain ⟨_, _, ⟨-, rfl⟩, _, _, hquery, h⟩ := h
  obtain ⟨rfl, rfl⟩ := hattached rfl hquery
  obtain ⟨_, _, hbang, h⟩ := gives_bind.1 h
  obtain ⟨rfl, rfl⟩ := hattached rfl hbang
  obtain ⟨_, _, hequals, h⟩ := gives_bind.1 h
  obtain ⟨rfl, rfl⟩ := hattached rfl hequals
  exact (gives_done.1 h).2.symm

/-! ### Where a tag may open -/

/-- A per cent sign that opens a tag has the letter and a bracket behind it. -/
theorem Stream.exists_of_opensTag (h : opensTag s.tokens = true) :
    ∃ u v, s.rest.tokenAt 0 = .ok u ∧ u.kind = .lowerName ∧ s.rest.rest.tokenAt 0 = .ok v ∧
      v.kind.opensBracket = true := by
  rcases htokens : s.tokens with _ | ⟨t, _ | ⟨u, _ | ⟨v, us⟩⟩⟩
  · simp [htokens, opensTag] at h
  · simp [htokens, opensTag] at h
  · simp [htokens, opensTag] at h
  · simp only [htokens, opensTag, Bool.and_eq_true, beq_iff_eq] at h
    refine ⟨u, v, ?_, h.1.2, ?_, h.2⟩
    · simp [tokenAt, rest, htokens]
    · simp [tokenAt, rest, htokens]

/-- Where another token than a name stands behind the next one, no tag opens. -/
theorem Stream.opensTag_of_rest (h : ∀ v, s.rest.tokenAt 0 = .ok v → v.kind ≠ .lowerName) :
    opensTag s.tokens = false := by
  by_contra hopen
  obtain ⟨u, -, hu, hkind, -⟩ := exists_of_opensTag (eq_true_of_ne_false hopen)
  exact h u hu hkind

/-- Where the name of a method stands behind the next token, and an item behind that name, no tag
opens. -/
theorem opensTag_of_aliasTarget (h : aliasTarget.Gives s.rest () r) (hitem : r.AtItem) :
    opensTag s.tokens = false := by
  by_contra hopen
  obtain ⟨u, v, hu, hname, hv, hbracket⟩ := Stream.exists_of_opensTag (eq_true_of_ne_false hopen)
  obtain ⟨_, s₁, hself, hmethod⟩ := gives_bind.1 h
  obtain rfl : s.rest = s₁ := by
    obtain ⟨u', hu', ⟨-, hstay⟩ | ⟨hkind, -⟩⟩ := gives_singletonMarker.1 hself
    · exact hstay
    · obtain rfl := Except.ok.inj (hu.symm.trans hu')
      rw [hname] at hkind
      cases hkind
  obtain rfl := rest_of_methodName hmethod hu hname hv hbracket
  have hnext := hitem v hv
  revert hbracket hnext
  cases v.kind <;> simp [Kind.startsItem, Kind.opensBracket]
  rintro (rfl | rfl | rfl | rfl | rfl) <;> decide

/-! ### Tidy scripts -/

/-- If an item stands behind what was read, no tag opens among the tokens that were taken. -/
def Phrase.Tidy : Phrase.Property := fun _ s _ t => s.Spelled → t.AtItem → s.Closed t

/-- If an item stands behind what the script reads, no tag opens among the tokens that it takes, as
far as this holds of the phrases that it calls. -/
def Script.Tidy (known : Option Token) (x : Script α) : Prop :=
  ∀ s a t, s.Knows known → x.Runs Phrase.Tidy s a t → s.Spelled → t.AtItem → s.Closed t

namespace Script

variable {known : Option Token}

/-- A script that takes native tokens only is tidy (`Tidy`). -/
theorem tidy_of_picks {x : Script α} (hx : ∀ w, (∀ u ∈ known, w 0 = u) → x.Picks w fun _ _ => True) :
    x.Tidy known := by
  intro s a t hknown hruns hs _
  refine Stream.closed_of_picks (hx s.window fun u hu => ?_) hruns.gives hs
  exact Stream.window_of_tokenAt (hknown u hu)

theorem tidy_fail (e : Error) : (fail e : Script α).Tidy known := fun _ _ _ _ h => h.elim

/-- A script of native tokens in front of a tidy one is tidy. -/
theorem tidy_bind {x : Script α} {f : α → Script β}
    (hx : ∀ w, (∀ u ∈ known, w 0 = u) → x.Picks w fun _ _ => True) (hf : ∀ a, (f a).Tidy none) :
    (x.bind f).Tidy known := by
  intro s b t hknown hruns hs hitem
  obtain ⟨a, s₁, hx₁, hf₁⟩ := runs_bind.1 hruns
  obtain ⟨taken, htaken⟩ := hx₁.gives.takes
  have hclosed : s.Closed s₁ :=
    Stream.closed_of_picks (hx s.window fun u hu => Stream.window_of_tokenAt (hknown u hu))
      hx₁.gives hs
  exact hclosed.trans (hf a s₁ b t (fun _ hu => by cases hu) hf₁ (htaken.spelled hs) hitem) htaken

/-- `skip` may pass over a token that is no foreign mark. -/
theorem tidy_skip {t : Token} (ht : t.kind ≠ .mark "-" ∧ t.kind ≠ .mark "%") {f : Unit → Script α}
    (hf : (f ()).Tidy none) : (skip.bind f).Tidy (some t) := by
  refine tidy_bind (fun w hw => ?_) fun _ => hf
  rw [picks_skip, hw t rfl]
  exact ⟨Token.native_of_kind ht, trivial⟩

/-- A token that `peek` looked at is known from there on. -/
theorem tidy_peek {f : Token → Script α} (hf : ∀ u, (f u).Tidy (some u)) :
    (peek.bind f).Tidy known := by
  intro s b t _ hruns hs hitem
  obtain ⟨u, s₁, hpeek, hf₁⟩ := runs_bind.1 hruns
  obtain ⟨hu, rfl⟩ := gives_peek.1 hpeek.gives
  exact hf u s b t (Stream.knows_some hu) hf₁ hs hitem

/-- A test is tidy, if both branches are. -/
theorem tidy_ite {c : Prop} [Decidable c] {x y : Script α} (hx : c → x.Tidy known)
    (hy : ¬ c → y.Tidy known) : (if c then x else y).Tidy known := by
  split
  · exact hx ‹c›
  · exact hy ‹¬ c›

/-- Calling a phrase is tidy, as far as it is supposed of phrases. -/
theorem tidy_call (p : Phrase) : (call p).Tidy known := by
  rintro s a t - ⟨_, _, -, htidy, rfl, rfl⟩
  exact htidy

end Script

/-- A method is tidy: a colon follows its name. -/
theorem tidy_methodMember {t : Token} (ht : t.kind = .keyword "def") :
    methodMember.Tidy (some t) := by
  refine tidy_skip (by simp [ht]) (tidy_bind (fun _ _ => picks_singletonMarker) fun _ => ?_)
  refine tidy_peek fun u => tidy_ite (fun hkey => tidy_of_picks fun w hw => ?_) fun _ => ?_
  · have hne : ∀ mark, u.kind ≠ .mark mark := by
      intro mark heq
      simp [heq, Kind.isKey] at hkey
    simp [hw u rfl, Token.native_of_kind ⟨hne _, hne _⟩, call, Phrase.isMemberless]
  · intro s a r _ hruns hs _
    obtain ⟨_, s₁, hname, hrest⟩ := runs_bind.1 hruns
    obtain ⟨taken, htaken⟩ := hname.gives.takes
    have hclosed : s.Closed s₁ := by
      refine closed_of_methodName hname.gives hs ?_
      rintro rfl
      -- A colon stands behind an operator.
      obtain ⟨_, _, hcolon, -⟩ := gives_bind.1 hrest.gives
      obtain ⟨⟨v, hv, hkind⟩, -⟩ := gives_expect.1 hcolon
      refine Stream.opensTag_of_rest fun v' hv' => ?_
      obtain rfl := Except.ok.inj (hv.symm.trans hv')
      simp [hkind]
    refine hclosed.trans (Stream.closed_of_picks ?_ hrest.gives (htaken.spelled hs)) htaken
    simp [call, Phrase.isMemberless]

/-- What is taken as one of the two names of an alias. -/
theorem closed_of_aliasTarget (h : aliasTarget.Gives s () r) (hs : s.Spelled)
    (hrest : ∀ s₁ : Stream, r = s₁.rest → opensTag s₁.tokens = false) : s.Closed r := by
  obtain ⟨_, s₁, hself, hname⟩ := gives_bind.1 h
  obtain ⟨taken, htaken⟩ := hself.takes
  exact (Stream.closed_of_picks picks_singletonMarker hself hs).trans
    (closed_of_methodName hname (htaken.spelled hs) (hrest s₁)) htaken

/-- Two names are tidy: each is followed by another one or by an item. -/
theorem tidy_alias {t : Token} (ht : t.kind = .keyword "alias") :
    (skip.bind fun _ => aliasTarget.bind fun _ => aliasTarget).Tidy (some t) := by
  refine tidy_skip (by simp [ht]) fun s a r _ hruns hs hitem => ?_
  obtain ⟨_, s₁, hfirst, hsecond⟩ := runs_bind.1 hruns
  obtain ⟨taken, htaken⟩ := hfirst.gives.takes
  have hclosed : s.Closed s₁ := by
    refine closed_of_aliasTarget hfirst.gives hs ?_
    rintro s₀ rfl
    exact opensTag_of_aliasTarget hsecond.gives hitem
  refine hclosed.trans (closed_of_aliasTarget hsecond.gives (htaken.spelled hs) ?_) htaken
  rintro s₀ rfl
  refine Stream.opensTag_of_rest fun v hv hname => ?_
  have := hitem v hv
  rw [hname] at this
  contradiction

/-- `classDeclaration` is tidy, if its heritage takes native tokens only. -/
theorem tidy_classDeclaration {t : Token} (ht : t.kind ≠ .mark "-" ∧ t.kind ≠ .mark "%")
    {heritage : Script Unit} (hheritage : ∀ w, heritage.Picks w fun _ _ => True) :
    (classDeclaration heritage).Tidy (some t) := by
  refine tidy_skip ht (tidy_bind (fun _ _ => picks_qualified _) fun _ => ?_)
  refine tidy_bind (fun _ _ => picks_accept (by decide)) fun b => tidy_ite (fun _ => ?_) fun _ => ?_
  · exact tidy_of_picks fun _ _ => picks_qualified _
  · exact tidy_bind (fun _ _ => picks_typeParameters? _) fun _ =>
      tidy_bind (fun w _ => hheritage w) fun _ => tidy_call _

theorem tidy_member : member.Tidy none := by
  refine tidy_peek fun u => ?_
  have hsimple {x : Script Unit} (hu : u.kind ≠ .mark "-" ∧ u.kind ≠ .mark "%")
      (hx : ∀ w, (w 0).Native → x.Picks w fun _ _ => True) : x.Tidy (some u) := by
    refine tidy_of_picks fun w hw => hx w ?_
    rw [hw u rfl]
    exact Token.native_of_kind hu
  split
  case h_1 h | h_2 h => exact hsimple (by simp [h]) (by simp)
  case h_3 h => exact tidy_methodMember h
  case h_4 h | h_5 h | h_6 h => exact hsimple (by simp [h]) (by simp +contextual)
  case h_7 h | h_8 h | h_9 h | h_10 h => exact hsimple (by simp [h]) (by simp)
  case h_11 h =>
    refine hsimple (by simp [h]) fun w hw => ?_
    simp +contextual [Token.native_of_kind, hw]
  case h_12 h => exact tidy_alias h
  case h_13 h => exact hsimple (by simp [h]) (by simp +contextual)
  case h_14 h | h_15 h => exact tidy_classDeclaration (by simp [h]) (by simp)
  case h_16 h =>
    refine tidy_skip (by simp [h]) (tidy_bind (fun _ _ => picks_qualified _) fun _ => ?_)
    exact tidy_bind (fun _ _ => picks_typeParameters? _) fun _ => tidy_call _
  case h_17 h | h_18 h | h_19 h => exact hsimple (by simp [h]) (by simp)
  case h_20 h | h_21 h =>
    exact hsimple (by simp [h]) (by simp [call, Phrase.isMemberless])
  case h_22 => exact tidy_fail _

/-! ### Phrases -/

/-- A token with `startsItem` stands at the next item. -/
theorem Stream.atItem_of_tokenAt {u : Token} (hu : s.tokenAt 0 = .ok u)
    (h : u.kind.startsItem = true) : s.AtItem := by
  intro v hv
  obtain rfl := Except.ok.inj (hu.symm.trans hv)
  exact h

/-- Members start with words that start items; and so do all lists of members and declarations. -/
theorem atItem_of_member (h : member.Gives s () t) : s.AtItem := by
  obtain ⟨u, _, hpeek, h⟩ := gives_bind.1 h
  obtain ⟨hu, rfl⟩ := gives_peek.1 hpeek
  refine Stream.atItem_of_tokenAt hu ?_
  split at h
  case h_22 => exact absurd h not_gives_fail
  all_goals
    rename_i hkind
    rw [hkind]
    rfl

/-- A tag is taken, and the tags behind it, or none. -/
theorem gives_tags {tags : List String} : (call .tags).Gives s tags t ↔ ∃ u, s.tokenAt 0 = .ok u ∧
    (u.kind = .tag ∧ (∃ more, (call .tags).Gives s.rest more t ∧ tags = u.text :: more) ∨
      u.kind ≠ .tag ∧ tags = [] ∧ s = t) := by
  rw [gives_call]
  simp only [Phrase.script, bind_eq, pure_eq, gives_bind, gives_nextIs]
  constructor
  · rintro ⟨_, _, ⟨⟨u, hu, rfl⟩, rfl⟩, h⟩
    refine ⟨u, hu, ?_⟩
    split at h
    · rename_i htag
      simp only [gives_bind, gives_advance, gives_done] at h
      obtain ⟨v, _, ⟨hv, rfl⟩, more, _, hmore, rfl, rfl⟩ := h
      obtain rfl := Except.ok.inj (hu.symm.trans hv)
      exact .inl ⟨beq_iff_eq.1 htag, more, hmore, rfl⟩
    · rename_i htag
      exact .inr ⟨by simpa using htag, gives_done.1 h⟩
  · rintro ⟨u, hu, ⟨htag, more, hmore, rfl⟩ | ⟨htag, rfl, rfl⟩⟩
    · refine ⟨true, s, ⟨⟨u, hu, by simp [htag]⟩, rfl⟩, ?_⟩
      simp only [if_true, gives_bind, gives_advance, gives_done]
      exact ⟨u, s.rest, ⟨hu, rfl⟩, more, t, hmore, rfl, rfl⟩
    · refine ⟨false, s, ⟨⟨u, hu, by simp [htag]⟩, rfl⟩, ?_⟩
      exact gives_done.2 ⟨rfl, rfl⟩

/-- One step of reading declarations. -/
theorem gives_declarations : declarations.Gives s count t ↔ ∃ u, s.tokenAt 0 = .ok u ∧
    (u.kind = .tag ∧ declarations.Gives s.rest count t ∨
      u.isEnd = true ∧ count = 0 ∧ s = t ∨
      u.isEnd = false ∧ u.kind ≠ .tag ∧ ∃ s₁ n, member.Gives s () s₁ ∧
        declarations.Gives s₁ n t ∧ count = n + 1) := by
  have hopen {s : Stream} : declarations.Gives s count t ↔ ∃ tags s₁,
      (call .tags).Gives s tags s₁ ∧ (atEnd.bind fun b => if b then done 0 else
        member.bind fun _ => (call .declarations).bind fun n => done (n + 1)).Gives s₁ count t :=
    gives_call.trans gives_bind
  rw [hopen]
  constructor
  · rintro ⟨tags, s₁, htags, h⟩
    obtain ⟨u, hu, ⟨htag, more, hmore, rfl⟩ | ⟨htag, rfl, rfl⟩⟩ := gives_tags.1 htags
    · exact ⟨u, hu, .inl ⟨htag, hopen.2 ⟨more, s₁, hmore, h⟩⟩⟩
    · refine ⟨u, hu, .inr ?_⟩
      obtain ⟨_, _, hend, h⟩ := gives_bind.1 h
      obtain ⟨⟨v, hv, rfl⟩, rfl⟩ := gives_nextIs.1 hend
      obtain rfl := Except.ok.inj (hu.symm.trans hv)
      split at h
      · rename_i hend
        exact .inl ⟨hend, gives_done.1 h⟩
      · rename_i hend
        simp only [gives_bind, gives_done] at h
        obtain ⟨_, s₁, hmember, n, _, hrest, rfl, rfl⟩ := h
        exact .inr ⟨Bool.eq_false_iff.2 hend, htag, s₁, n, hmember, hrest, rfl⟩
  · rintro ⟨u, hu, ⟨htag, h⟩ | ⟨hend, rfl, rfl⟩ | ⟨hend, htag, s₁, n, hmember, hrest, rfl⟩⟩
    · obtain ⟨more, s₁, hmore, h⟩ := hopen.1 h
      exact ⟨_, s₁, gives_tags.2 ⟨u, hu, .inl ⟨htag, more, hmore, rfl⟩⟩, h⟩
    · have htag : u.kind ≠ .tag := by
        rw [beq_iff_eq.1 hend]
        simp
      refine ⟨[], s, gives_tags.2 ⟨u, hu, .inr ⟨htag, rfl, rfl⟩⟩, ?_⟩
      refine gives_bind.2 ⟨true, s, gives_nextIs.2 ⟨⟨u, hu, hend.symm⟩, rfl⟩, ?_⟩
      exact gives_done.2 ⟨rfl, rfl⟩
    · refine ⟨[], s, gives_tags.2 ⟨u, hu, .inr ⟨htag, rfl, rfl⟩⟩, ?_⟩
      refine gives_bind.2 ⟨false, s, gives_nextIs.2 ⟨⟨u, hu, hend.symm⟩, rfl⟩, ?_⟩
      refine gives_bind.2 ⟨(), s₁, hmember, gives_bind.2 ⟨n, t, hrest, ?_⟩⟩
      exact gives_done.2 ⟨rfl, rfl⟩

/-- A tag stands next, or none is taken. -/
theorem atItem_of_tags {tags : List String} (h : (call .tags).Gives s tags t) :
    s.AtItem ∨ s = t := by
  obtain ⟨u, hu, ⟨htag, -⟩ | ⟨-, -, hstay⟩⟩ := gives_tags.1 h
  · exact .inl (Stream.atItem_of_tokenAt hu (by rw [htag]; rfl))
  · exact .inr hstay

theorem atItem_of_members (h : (call .members).Gives s () t) : s.AtItem := by
  obtain ⟨_, s₁, htags, h⟩ := gives_bind.1 (gives_call.1 h)
  rcases atItem_of_tags htags with hitem | rfl
  · exact hitem
  obtain ⟨u, _, hpeek, h⟩ := gives_bind.1 h
  obtain ⟨hu, rfl⟩ := gives_peek.1 hpeek
  split at h
  · rename_i hkind
    exact Stream.atItem_of_tokenAt hu (by rw [hkind]; rfl)
  · exact absurd h not_gives_fail
  · obtain ⟨_, _, hmember, -⟩ := gives_bind.1 h
    exact atItem_of_member hmember

theorem atItem_of_declarations (h : declarations.Gives s count t) : s.AtItem := by
  obtain ⟨u, hu, ⟨htag, -⟩ | ⟨hend, -⟩ | ⟨-, -, s₁, n, hmember, -⟩⟩ := gives_declarations.1 h
  · exact Stream.atItem_of_tokenAt hu (by rw [htag]; rfl)
  · exact Stream.atItem_of_tokenAt hu (by rw [beq_iff_eq.1 hend]; rfl)
  · exact atItem_of_member hmember

/-- A member in front of something that starts an item. -/
theorem tidy_member_bind {known : Option Token} {f : Unit → Script α} (hf : (f ()).Tidy none)
    (hitem : ∀ s a t, (f ()).Gives s a t → s.AtItem) : (member.bind f).Tidy known := by
  intro s a t _ hruns hs hnext
  obtain ⟨_, s₁, hmember, hrest⟩ := runs_bind.1 hruns
  obtain ⟨taken, htaken⟩ := hmember.gives.takes
  have hnone {s : Stream} : s.Knows none := fun _ hu => by cases hu
  exact (tidy_member s () s₁ hnone hmember hs (hitem s₁ a t hrest.gives)).trans
    (hf s₁ a t hnone hrest (htaken.spelled hs) hnext) htaken

/-- Every phrase is tidy. -/
theorem Phrase.tidy (p : Phrase) (s : Stream) (a : p.Answer) (t : Stream)
    (h : p.script.Runs Tidy s a t) : Tidy p s a t := by
  have htags : ∀ w, (call .tags).Picks w fun _ _ => True := fun _ => by
    simp [call, Phrase.isMemberless]
  suffices p.script.Tidy none from this s a t (fun _ hu => by cases hu) h
  cases p with
  | members =>
    refine tidy_bind (fun w _ => htags w) fun _ => tidy_peek fun u => ?_
    split
    case h_1 hkind =>
      refine tidy_of_picks fun w hw => ?_
      simp [hw u rfl, Token.native_of_kind, hkind]
    · exact tidy_fail _
    · exact tidy_member_bind (tidy_call _) fun _ _ _ => atItem_of_members
  | declarations =>
    refine tidy_bind (fun w _ => htags w) fun _ => tidy_bind (fun w _ => by simp) fun b => ?_
    refine tidy_ite (fun _ => tidy_of_picks (by simp)) fun _ => ?_
    refine tidy_member_bind ?_ fun s a t h => ?_
    · intro s a t hknown hruns
      obtain ⟨count, s₁, hcall, -, rfl⟩ := runs_bind.1 hruns
      exact tidy_call .declarations s count s₁ hknown hcall
    · obtain ⟨_, _, hcall, -⟩ := gives_bind.1 h
      exact atItem_of_declarations hcall
  | _ => exact tidy_of_picks fun w _ => (picks_script rfl).imp fun _ _ _ => trivial

/-- **No tag is left open** in declarations that are read without an error. -/
theorem closed_of_declarations (h : declarations.Gives s count t) (hs : s.Spelled)
    (hitem : t.AtItem) : s.Closed t :=
  Phrase.tidy .declarations s count t (runs_of_gives Phrase.tidy (gives_call.1 h)) hs hitem

end TypeNotes.Signature
