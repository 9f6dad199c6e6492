import TypeNotes.Proofs.Signature.Termination

/-!
# What scripts give

`x.Gives s a s'` says that the script `x`, run on the stream `s`, gives the answer `a` and leaves
the stream `s'`. For each of the small scripts of which the grammar is put together, one
equivalence says what it gives; with them a run that gave an answer is taken apart, and a run that
is to give one is put together.

`x.Leaves ts post` is the same for a run that is bound to give an answer, told from the tokens
alone: from every stream with the tokens `ts`, the end of input behind them, `x` gives an answer
and leaves tokens that together have the property `post`.
-/

namespace TypeNotes.Signature

variable {α β : Type}

/-- `Stream.tokenAt` one token further is that from behind the next token. -/
theorem Stream.tokenAt_succ {s : Stream} (ahead : Nat) :
    s.tokenAt (ahead + 1) = s.rest.tokenAt ahead := by
  cases htokens : s.tokens <;> simp [tokenAt, rest, htokens]

namespace Script

/-- The script, run on the stream, gives this answer and leaves that stream. -/
def Gives (x : Script α) (s : Stream) (a : α) (s' : Stream) : Prop := x.reading s = (.ok a, s')

/-! ### Taking runs apart -/

variable {s s' : Stream}

/-- A run that gives an answer (`Script.Gives`) takes tokens off the front of the stream. -/
theorem Gives.takes {x : Script α} {a : α} (h : x.Gives s a s') : ∃ taken, s.Takes taken s' := by
  have := Phrase.steady_reading.forward.run x s
  rw [show x.run Phrase.reading s = (.ok a, s') from h] at this
  exact this

@[simp]
theorem gives_done {a b : α} : (done a).Gives s b s' ↔ b = a ∧ s = s' := by
  simp only [Gives, reading, run, Prod.mk.injEq, Except.ok.injEq]
  exact and_congr_left' eq_comm

@[simp]
theorem not_gives_fail {e : Error} {a : α} : ¬ (fail e).Gives s a s' := by
  simp [Gives, reading, run]

/-- One reader after another gives an answer if both do. -/
theorem gives_andThen {outcome : Except Error α × Stream} {next : α → Reader Stream β} {b : β} :
    Reader.andThen outcome next = (.ok b, s') ↔
      ∃ a s₁, outcome = (.ok a, s₁) ∧ next a s₁ = (.ok b, s') := by
  rcases outcome with ⟨e | a, s₁⟩
  · simp [Reader.andThen]
  · constructor
    · exact fun h => ⟨a, s₁, rfl, h⟩
    · rintro ⟨_, _, ⟨⟩, h⟩
      exact h

/-- A script followed by others reads with the first one, and then with those for its answer. -/
theorem reading_bind (x : Script α) (f : α → Script β) (s : Stream) :
    (x.bind f).reading s = Reader.andThen (x.reading s) fun a => (f a).reading := by
  induction x generalizing s with
  | done a => rfl
  | fail e => rfl
  | peekAt ahead next ih =>
    simp only [Script.bind, reading, run] at ih ⊢
    rcases Supply.peek ahead s with ⟨e | t, s₁⟩
    · rfl
    · exact ih t _
  | take next ih =>
    simp only [Script.bind, reading, run] at ih ⊢
    rcases Supply.advance s with ⟨e | t, s₁⟩
    · rfl
    · exact ih t _
  | askEnd next ih => exact ih _ _
  | cutFrom start next ih => exact ih _ _
  | read p next ih =>
    simp only [Script.bind, reading, run] at ih ⊢
    rcases p.reading s with ⟨e | a, s₁⟩
    · rfl
    · exact ih a _

/-- A script that goes on with another one gives what the second gives. -/
@[simp]
theorem gives_bind {x : Script α} {f : α → Script β} {b : β} :
    (x.bind f).Gives s b s' ↔ ∃ a s₁, x.Gives s a s₁ ∧ (f a).Gives s₁ b s' := by
  rw [Gives, reading_bind, gives_andThen]
  rfl

/-- A call gives what the script of the phrase gives. -/
theorem gives_call {p : Phrase} {a : p.Answer} :
    (call p).Gives s a s' ↔ p.script.Gives s a s' := by
  have h : (call p).reading s = Reader.andThen (p.reading s) fun b => (done b).reading := rfl
  rw [Gives, h, gives_andThen, p.reading_eq]
  constructor
  · rintro ⟨b, s₁, hb, hdone⟩
    obtain ⟨rfl, rfl⟩ := gives_done.1 hdone
    exact hb
  · exact fun hp => ⟨a, s', hp, gives_done.2 ⟨rfl, rfl⟩⟩

/-- `peekAt` leaves the stream as it is. -/
theorem gives_peekAt {ahead : Nat} {next : Token → Script α} {a : α} :
    (peekAt ahead next).Gives s a s' ↔ ∃ t, s.tokenAt ahead = .ok t ∧ (next t).Gives s a s' := by
  have h : (peekAt ahead next).reading s =
      Reader.andThen (s.tokenAt ahead, s) fun t => (next t).reading := rfl
  rw [Gives, h, gives_andThen]
  constructor
  · rintro ⟨t, s₁, ht, hnext⟩
    obtain ⟨htoken, rfl⟩ := Prod.mk.inj ht
    exact ⟨t, htoken, hnext⟩
  · rintro ⟨t, ht, hnext⟩
    exact ⟨t, s, by rw [ht], hnext⟩

/-- `take` leaves what is behind the token. -/
theorem gives_take {next : Token → Script α} {a : α} :
    (take next).Gives s a s' ↔ ∃ t, s.tokenAt 0 = .ok t ∧ (next t).Gives s.rest a s' := by
  have h : (take next).reading s =
      Reader.andThen (s.tokenAt 0, s.rest) fun t => (next t).reading := rfl
  rw [Gives, h, gives_andThen]
  constructor
  · rintro ⟨t, s₁, ht, hnext⟩
    obtain ⟨htoken, rfl⟩ := Prod.mk.inj ht
    exact ⟨t, htoken, hnext⟩
  · rintro ⟨t, ht, hnext⟩
    exact ⟨t, s.rest, by rw [ht], hnext⟩

@[simp]
theorem gives_peek {t : Token} : peek.Gives s t s' ↔ s.tokenAt 0 = .ok t ∧ s = s' := by
  simp only [peek, gives_peekAt, gives_done]
  constructor
  · rintro ⟨_, h, rfl, rfl⟩
    exact ⟨h, rfl⟩
  · rintro ⟨h, rfl⟩
    exact ⟨t, h, rfl, rfl⟩

@[simp]
theorem gives_peekSecond {t : Token} :
    peekSecond.Gives s t s' ↔ s.tokenAt 1 = .ok t ∧ s = s' := by
  simp only [peekSecond, gives_peekAt, gives_done]
  constructor
  · rintro ⟨_, h, rfl, rfl⟩
    exact ⟨h, rfl⟩
  · rintro ⟨h, rfl⟩
    exact ⟨t, h, rfl, rfl⟩

@[simp]
theorem gives_peekThird {t : Token} :
    peekThird.Gives s t s' ↔ s.tokenAt 2 = .ok t ∧ s = s' := by
  simp only [peekThird, gives_peekAt, gives_done]
  constructor
  · rintro ⟨_, h, rfl, rfl⟩
    exact ⟨h, rfl⟩
  · rintro ⟨h, rfl⟩
    exact ⟨t, h, rfl, rfl⟩

/-- For `skip` there is a token to pass over, or the end of input. -/
@[simp]
theorem gives_skip {u : Unit} :
    skip.Gives s u s' ↔ (∃ t, s.tokenAt 0 = .ok t) ∧ s' = s.rest := by
  simp only [skip, gives_take, gives_done]
  constructor
  · rintro ⟨t, h, -, rfl⟩
    exact ⟨⟨t, h⟩, rfl⟩
  · rintro ⟨⟨t, h⟩, rfl⟩
    exact ⟨t, h, trivial, rfl⟩

theorem gives_advance {t : Token} :
    advance.Gives s t s' ↔ s.tokenAt 0 = .ok t ∧ s' = s.rest := by
  simp only [advance, gives_take, gives_done]
  constructor
  · rintro ⟨_, h, rfl, rfl⟩
    exact ⟨h, rfl⟩
  · rintro ⟨h, rfl⟩
    exact ⟨t, h, rfl, rfl⟩

theorem gives_textSince {start : Nat} {text : String} :
    (textSince start).Gives s text s' ↔ text = s.textSince start ∧ s = s' := gives_done

theorem gives_lastEnd {n : Nat} :
    lastEnd.Gives s n s' ↔ n = s.lastEnd ∧ s = s' := gives_done

@[simp]
theorem gives_nextIs {kind : Kind} {b : Bool} :
    (nextIs kind).Gives s b s' ↔ (∃ t, s.tokenAt 0 = .ok t ∧ b = (t.kind == kind)) ∧ s = s' := by
  simp only [nextIs, bind_eq, pure_eq, gives_bind, gives_peek, gives_done]
  constructor
  · rintro ⟨t, _, ⟨h, rfl⟩, rfl, rfl⟩
    exact ⟨⟨t, h, rfl⟩, rfl⟩
  · rintro ⟨⟨t, h, rfl⟩, rfl⟩
    exact ⟨t, s, ⟨h, rfl⟩, rfl, rfl⟩

/-- `nextThen` looks at two tokens only where the first is the mark. -/
theorem gives_nextThen {mark : String} {fits : Token → Bool} {b : Bool} :
    (nextThen mark fits).Gives s b s' ↔ s = s' ∧ ∃ t, s.tokenAt 0 = .ok t ∧
      (t.kind = .mark mark ∧ (∃ u, s.rest.tokenAt 0 = .ok u ∧ b = fits u) ∨
        t.kind ≠ .mark mark ∧ b = false) := by
  simp only [nextThen, nextIsMark, bind_eq, pure_eq, gives_bind, gives_nextIs]
  constructor
  · rintro ⟨_, _, ⟨⟨t, ht, rfl⟩, rfl⟩, h⟩
    split at h
    · rename_i hkind
      simp only [gives_bind, gives_peekSecond, gives_done] at h
      obtain ⟨u, _, ⟨hu, rfl⟩, rfl, rfl⟩ := h
      rw [Stream.tokenAt_succ] at hu
      exact ⟨rfl, t, ht, .inl ⟨by simpa using hkind, u, hu, rfl⟩⟩
    · rename_i hkind
      obtain ⟨rfl, rfl⟩ := gives_done.1 h
      exact ⟨rfl, t, ht, .inr ⟨by simpa using hkind, rfl⟩⟩
  · rintro ⟨rfl, t, ht, ⟨hkind, u, hu, rfl⟩ | ⟨hkind, rfl⟩⟩
    · refine ⟨true, s, ⟨⟨t, ht, by simp [hkind]⟩, rfl⟩, ?_⟩
      simp only [if_pos, gives_bind, gives_peekSecond, gives_done, Stream.tokenAt_succ]
      exact ⟨u, s, ⟨hu, rfl⟩, rfl, rfl⟩
    · refine ⟨false, s, ⟨⟨t, ht, by simp [hkind]⟩, rfl⟩, ?_⟩
      simp

/-- `acceptAny` takes a token of one of the kinds; any other stays in place. -/
theorem gives_acceptAny {kinds : List Kind} {r : Option Token} :
    (acceptAny kinds).Gives s r s' ↔ ∃ t, s.tokenAt 0 = .ok t ∧
      (t.kind ∈ kinds ∧ r = some t ∧ s' = s.rest ∨ t.kind ∉ kinds ∧ r = none ∧ s = s') := by
  simp only [acceptAny, bind_eq, pure_eq, gives_bind, gives_peek]
  constructor
  · rintro ⟨t, _, ⟨ht, rfl⟩, h⟩
    refine ⟨t, ht, ?_⟩
    by_cases hmem : t.kind ∈ kinds
    · rw [if_pos (by simpa using hmem)] at h
      simp only [gives_bind, gives_advance, gives_done] at h
      obtain ⟨u, _, ⟨hu, rfl⟩, rfl, rfl⟩ := h
      obtain rfl : t = u := by simpa [ht] using hu
      exact .inl ⟨hmem, rfl, rfl⟩
    · rw [if_neg (by simpa using hmem), gives_done] at h
      exact .inr ⟨hmem, h⟩
  · rintro ⟨t, ht, ⟨hmem, rfl, rfl⟩ | ⟨hmem, rfl, rfl⟩⟩
    · refine ⟨t, s, ⟨ht, rfl⟩, ?_⟩
      rw [if_pos (by simpa using hmem)]
      simp only [gives_bind, gives_advance, gives_done]
      exact ⟨t, s.rest, ⟨ht, rfl⟩, rfl, rfl⟩
    · refine ⟨t, s, ⟨ht, rfl⟩, ?_⟩
      rw [if_neg (by simpa using hmem), gives_done]
      exact ⟨rfl, rfl⟩

/-- `acceptKind` takes a token of the kind that is asked for, and leaves any other one. -/
theorem gives_acceptKind {kind : Kind} {b : Bool} :
    (acceptKind kind).Gives s b s' ↔ ∃ t, s.tokenAt 0 = .ok t ∧
      (t.kind = kind ∧ b = true ∧ s' = s.rest ∨ t.kind ≠ kind ∧ b = false ∧ s = s') := by
  simp only [acceptKind, bind_eq, pure_eq, gives_bind, gives_acceptAny, gives_done,
    List.mem_singleton]
  constructor
  · rintro ⟨_, _, ⟨t, ht, ⟨hkind, rfl, rfl⟩ | ⟨hkind, rfl, rfl⟩⟩, rfl, rfl⟩
    · exact ⟨t, ht, .inl ⟨hkind, rfl, rfl⟩⟩
    · exact ⟨t, ht, .inr ⟨hkind, rfl, rfl⟩⟩
  · rintro ⟨t, ht, ⟨hkind, rfl, rfl⟩ | ⟨hkind, rfl, rfl⟩⟩
    · exact ⟨_, _, ⟨t, ht, .inl ⟨hkind, rfl, rfl⟩⟩, rfl, rfl⟩
    · exact ⟨_, _, ⟨t, ht, .inr ⟨hkind, rfl, rfl⟩⟩, rfl, rfl⟩

theorem gives_accept {mark : String} {b : Bool} :
    (accept mark).Gives s b s' ↔ ∃ t, s.tokenAt 0 = .ok t ∧
      (t.kind = .mark mark ∧ b = true ∧ s' = s.rest ∨
        t.kind ≠ .mark mark ∧ b = false ∧ s = s') := gives_acceptKind

/-- `expectAny` takes what is expected. -/
theorem gives_expectAny {kinds : List Kind} {expected : String} {t : Token} :
    (expectAny kinds expected).Gives s t s' ↔
      s.tokenAt 0 = .ok t ∧ t.kind ∈ kinds ∧ s' = s.rest := by
  simp only [expectAny, bind_eq, pure_eq, gives_bind, gives_acceptAny]
  constructor
  · rintro ⟨_, _, ⟨u, hu, ⟨hmem, rfl, rfl⟩ | ⟨hmem, rfl, rfl⟩⟩, h⟩
    · obtain ⟨rfl, rfl⟩ := gives_done.1 h
      exact ⟨hu, hmem, rfl⟩
    · simp at h
  · rintro ⟨ht, hmem, rfl⟩
    exact ⟨_, _, ⟨t, ht, .inl ⟨hmem, rfl, rfl⟩⟩, gives_done.2 ⟨rfl, rfl⟩⟩

/-- The mark that `expect` insists on stands next, and is taken. -/
theorem gives_expect {mark : String} {u : Unit} :
    (expect mark).Gives s u s' ↔
      (∃ t, s.tokenAt 0 = .ok t ∧ t.kind = .mark mark) ∧ s' = s.rest := by
  simp only [expect, bind_eq, pure_eq, gives_bind, gives_expectAny, gives_done, List.mem_singleton]
  constructor
  · rintro ⟨t, _, ⟨ht, hkind, rfl⟩, -, rfl⟩
    exact ⟨⟨t, ht, hkind⟩, rfl⟩
  · rintro ⟨⟨t, ht, hkind⟩, rfl⟩
    exact ⟨t, s.rest, ⟨ht, hkind, rfl⟩, trivial, rfl⟩

/-- `spanned` does not change how its script is read. -/
theorem gives_spanned {body : Script Unit} {text : String} :
    (spanned body).Gives s text s' ↔
      ∃ t, s.tokenAt 0 = .ok t ∧ body.Gives s () s' ∧ text = s'.textSince t.start := by
  simp only [spanned, bind_eq, gives_bind, gives_peek, gives_textSince]
  constructor
  · rintro ⟨t, _, ⟨ht, rfl⟩, _, s₁, hbody, rfl, rfl⟩
    exact ⟨t, ht, hbody, rfl⟩
  · rintro ⟨t, ht, hbody, rfl⟩
    exact ⟨t, s, ⟨ht, rfl⟩, (), s', hbody, rfl, rfl⟩

/-- For `expectEnd` the end of input stands next, and stays there. -/
theorem gives_expectEnd {u : Unit} :
    expectEnd.Gives s u s' ↔ (∃ t, s.tokenAt 0 = .ok t ∧ t.isEnd = true) ∧ s = s' := by
  simp only [expectEnd, atEnd, bind_eq, pure_eq, gives_bind, gives_nextIs]
  constructor
  · rintro ⟨b, _, ⟨⟨t, ht, rfl⟩, rfl⟩, h⟩
    cases hend : t.kind == .endOfInput with
    | true =>
      rw [if_pos hend, gives_done] at h
      exact ⟨⟨t, ht, hend⟩, h.2⟩
    | false =>
      rw [if_neg (by simp [hend])] at h
      simp at h
  · rintro ⟨⟨t, ht, hend⟩, rfl⟩
    refine ⟨true, s, ⟨⟨t, ht, hend.symm⟩, rfl⟩, ?_⟩
    rw [if_pos rfl, gives_done]
    exact ⟨rfl, rfl⟩

end Script

/-! ### Putting runs together -/

/-- The end of input stands behind the tokens of the stream. -/
def Stream.Ended (s : Stream) : Prop := ∃ t, s.ending = .ok t

/-- The kind of the next token, if there is one, or of the end of input. -/
def headKind : List Token → Kind
  | [] => .endOfInput
  | t :: _ => t.kind

@[simp]
theorem headKind_cons (t : Token) (ts : List Token) : headKind (t :: ts) = t.kind := rfl

/-- With the end of input behind its tokens, a stream always shows a token of the kind `headKind`.
-/
theorem Stream.Ended.tokenAt_zero {s : Stream} (h : s.Ended) :
    ∃ t, s.tokenAt 0 = .ok t ∧ t.kind = headKind s.tokens := by
  cases htokens : s.tokens with
  | nil =>
    obtain ⟨t, ht⟩ := h
    have hend := s.thenEnd.isEnd_ending t ht
    exact ⟨t, by simpa [tokenAt, htokens] using ht, by simpa [Token.isEnd, headKind] using hend⟩
  | cons t ts => exact ⟨t, by simp [tokenAt, htokens], rfl⟩

namespace Script

/-- From every stream with these tokens and the end of input behind them, the script gives an
answer and leaves tokens that together have the property. -/
def Leaves (x : Script α) (ts : List Token) (post : α → List Token → Prop) : Prop :=
  ∀ s : Stream, s.Ended → s.tokens = ts → ∃ a s', x.Gives s a s' ∧ post a s'.tokens

variable {ts : List Token}

/-- A weaker property of answers and tokens is enough (`Script.Leaves`). -/
theorem Leaves.imp {x : Script α} {post post' : α → List Token → Prop} (h : x.Leaves ts post)
    (himp : ∀ a rest, post a rest → post' a rest) : x.Leaves ts post' := by
  intro s hs hts
  obtain ⟨a, s', hgives, hpost⟩ := h s hs hts
  exact ⟨a, s', hgives, himp a _ hpost⟩

theorem Leaves.done {a : α} {post : α → List Token → Prop} (h : post a ts) :
    (Script.done a).Leaves ts post := by
  rintro s - rfl
  exact ⟨a, s, gives_done.2 ⟨rfl, rfl⟩, h⟩

/-- A script followed by others leaves what these leave, from where the first one stops. -/
theorem Leaves.bind {x : Script α} {f : α → Script β} {post : β → List Token → Prop}
    (h : x.Leaves ts fun a rest => (f a).Leaves rest post) : (x.bind f).Leaves ts post := by
  intro s hs hts
  obtain ⟨a, s₁, hx, hf⟩ := h s hs hts
  obtain ⟨taken, htaken⟩ := hx.takes
  have hs₁ : s₁.Ended := by
    obtain ⟨t, ht⟩ := hs
    exact ⟨t, htaken.ending.trans ht⟩
  obtain ⟨b, s₂, hgives, hpost⟩ := hf s₁ hs₁ rfl
  exact ⟨b, s₂, gives_bind.2 ⟨a, s₁, hx, hgives⟩, hpost⟩

/-- Calling a phrase leaves what its script leaves. -/
theorem Leaves.call {p : Phrase} {post : p.Answer → List Token → Prop}
    (h : p.script.Leaves ts post) : (Script.call p).Leaves ts post := by
  intro s hs hts
  obtain ⟨a, s', hgives, hpost⟩ := h s hs hts
  exact ⟨a, s', gives_call.2 hgives, hpost⟩

theorem Leaves.peek {t : Token} {post : Token → List Token → Prop} (h : post t (t :: ts)) :
    Script.peek.Leaves (t :: ts) post := by
  intro s _ hts
  exact ⟨t, s, gives_peek.2 ⟨by simp [Stream.tokenAt, hts], rfl⟩, hts ▸ h⟩

theorem Leaves.skip {t : Token} {post : Unit → List Token → Prop} (h : post () ts) :
    Script.skip.Leaves (t :: ts) post := by
  intro s _ hts
  refine ⟨(), s.rest, gives_skip.2 ⟨⟨t, by simp [Stream.tokenAt, hts]⟩, rfl⟩, ?_⟩
  simpa [Stream.rest, hts] using h

/-- `nextIs` tells the kind of the next token and takes nothing. -/
theorem Leaves.nextIs {kind : Kind} {post : Bool → List Token → Prop}
    (h : post (headKind ts == kind) ts) : (Script.nextIs kind).Leaves ts post := by
  rintro s hs rfl
  obtain ⟨t, ht, hkind⟩ := hs.tokenAt_zero
  exact ⟨_, s, gives_nextIs.2 ⟨⟨t, ht, rfl⟩, rfl⟩, by rwa [hkind]⟩

/-- The mark stands next, and after it a token. -/
theorem Leaves.nextThen_hit {mark : String} {fits : Token → Bool} {t u : Token}
    {post : Bool → List Token → Prop} (ht : t.kind = .mark mark)
    (h : post (fits u) (t :: u :: ts)) : (nextThen mark fits).Leaves (t :: u :: ts) post := by
  intro s _ hts
  refine ⟨fits u, s, gives_nextThen.2 ⟨rfl, t, by simp [Stream.tokenAt, hts], .inl ⟨ht, u, ?_, rfl⟩⟩,
    hts ▸ h⟩
  simp [Stream.tokenAt, Stream.rest, hts]

/-- The mark does not stand next. -/
theorem Leaves.nextThen_miss {mark : String} {fits : Token → Bool}
    {post : Bool → List Token → Prop} (hts : headKind ts ≠ .mark mark) (h : post false ts) :
    (nextThen mark fits).Leaves ts post := by
  rintro s hs rfl
  obtain ⟨t, ht, hkind⟩ := hs.tokenAt_zero
  exact ⟨false, s, gives_nextThen.2 ⟨rfl, t, ht, .inr ⟨hkind ▸ hts, rfl⟩⟩, h⟩

/-- From every stream with these tokens and the end of input behind them, the script gives an
answer and leaves just these other tokens. -/
abbrev ReadsTo (x : Script α) (ts rest : List Token) : Prop := x.Leaves ts fun _ r => r = rest

/-- A script that reads to a place (`ReadsTo`) is followed by others from there. -/
theorem ReadsTo.andThen {x : Script α} {f : α → Script β} {mid : List Token}
    {post : β → List Token → Prop} (hx : x.ReadsTo ts mid) (hf : ∀ a, (f a).Leaves mid post) :
    (x.bind f).Leaves ts post := by
  refine .bind (hx.imp ?_)
  rintro a _ rfl
  exact hf a

/-- A token of the kind is taken. -/
theorem Leaves.acceptKind_hit {kind : Kind} {t : Token} {post : Bool → List Token → Prop}
    (ht : t.kind = kind) (h : post true ts) : (acceptKind kind).Leaves (t :: ts) post := by
  intro s _ hts
  refine ⟨true, s.rest, gives_acceptKind.2 ⟨t, by simp [Stream.tokenAt, hts], .inl ⟨ht, rfl, rfl⟩⟩,
    ?_⟩
  simpa [Stream.rest, hts] using h

/-- A token of another kind stays in place. -/
theorem Leaves.acceptKind_miss {kind : Kind} {post : Bool → List Token → Prop}
    (hts : headKind ts ≠ kind) (h : post false ts) : (acceptKind kind).Leaves ts post := by
  rintro s hs rfl
  obtain ⟨t, ht, hkind⟩ := hs.tokenAt_zero
  exact ⟨false, s, gives_acceptKind.2 ⟨t, ht, .inr ⟨hkind ▸ hts, rfl, rfl⟩⟩, h⟩

/-- The mark that is asked for stands next, and is taken. -/
theorem Leaves.accept_hit {mark : String} {t : Token} {post : Bool → List Token → Prop}
    (ht : t.kind = .mark mark) (h : post true ts) : (accept mark).Leaves (t :: ts) post :=
  acceptKind_hit ht h

/-- Another token than the mark that is asked for is left. -/
theorem Leaves.accept_miss {mark : String} {post : Bool → List Token → Prop}
    (hts : headKind ts ≠ .mark mark) (h : post false ts) : (accept mark).Leaves ts post :=
  acceptKind_miss hts h

/-- `expectAny` takes a token of one of the kinds that are insisted on. -/
theorem Leaves.expectAny {kinds : List Kind} {expected : String} {t : Token}
    {post : Token → List Token → Prop} (ht : t.kind ∈ kinds) (h : post t ts) :
    (Script.expectAny kinds expected).Leaves (t :: ts) post := by
  intro s _ hts
  refine ⟨t, s.rest, gives_expectAny.2 ⟨by simp [Stream.tokenAt, hts], ht, rfl⟩, ?_⟩
  simpa [Stream.rest, hts] using h

theorem Leaves.expect {mark : String} {t : Token} {post : Unit → List Token → Prop}
    (ht : t.kind = .mark mark) (h : post () ts) : (Script.expect mark).Leaves (t :: ts) post := by
  intro s _ hts
  refine ⟨(), s.rest, gives_expect.2 ⟨⟨t, by simp [Stream.tokenAt, hts], ht⟩, rfl⟩, ?_⟩
  simpa [Stream.rest, hts] using h

/-- `spanned` leaves what its script leaves. -/
theorem Leaves.spanned {body : Script Unit} {post : String → List Token → Prop}
    (h : body.Leaves ts fun _ rest => ∀ text, post text rest) :
    (Script.spanned body).Leaves ts post := by
  intro s hs hts
  obtain ⟨t, ht, -⟩ := hs.tokenAt_zero
  obtain ⟨_, s', hbody, hpost⟩ := h s hs hts
  exact ⟨_, s', gives_spanned.2 ⟨t, ht, hbody, rfl⟩, hpost _⟩

end Script

end TypeNotes.Signature
