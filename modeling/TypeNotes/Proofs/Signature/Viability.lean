import TypeNotes.Proofs.Signature.Soundness

/-!
# Runs that fail, and viable tokens

`x.Fails s e s'` says that the script `x`, run on the stream `s`, ends in the error `e` and leaves
the stream `s'`. As with `Gives`, one statement for each small script takes such a run apart: it
failed in its first part, or the first part gave an answer and the second failed.

`Viable a us` says that the tokens `us` can be completed to tokens of the form `a`, and that the few
words of `fillers` are enough for it. The words are told by their kind and text alone, so that they
may stand anywhere.

`Stalls a s e s'` ties the two together: the error stands behind viable tokens of the stream. What
was read before the failing part is derived, and what is left open behind it has a shortest
completion, so a failing run is followed form by form (`Stalls.behind`, `Stalls.inFront`).
-/

namespace TypeNotes.Signature

open Script Grammar

variable {α β : Type} {s s' s₁ : Stream} {e : Error}

/-! ### Runs that fail -/

/-- The error stands in place of the next token, or is one that the next token makes. -/
def Stream.Blocked (s : Stream) (e : Error) : Prop :=
  s.tokenAt 0 = .error e ∨ ∃ t expected, s.tokenAt 0 = .ok t ∧ e = t.unexpected expected

/-- A stream that shows an error has nothing to take. -/
theorem Stream.rest_of_error (h : s.tokenAt 0 = .error e) : s.rest = s := by
  refine rest_of_nil ?_
  cases htokens : s.tokens with
  | nil => rfl
  | cons t tokens => simp [tokenAt, htokens] at h

namespace Script

/-- The script, run on the stream, ends in this error and leaves that stream. -/
def Fails (x : Script α) (s : Stream) (e : Error) (s' : Stream) : Prop :=
  x.reading s = (.error e, s')

/-- Also a run that fails (`Script.Fails`) only takes tokens from the front of its stream. -/
theorem Fails.takes {x : Script α} (h : x.Fails s e s') : ∃ taken, s.Takes taken s' := by
  have := Phrase.steady_reading.forward.run x s
  rw [show x.run Phrase.reading s = (.error e, s') from h] at this
  exact this

@[simp]
theorem not_fails_done {a : α} : ¬ (done a).Fails s e s' := by
  simp [Fails, reading, run]

@[simp]
theorem fails_fail {e' : Error} : (fail e' : Script α).Fails s e s' ↔ e = e' ∧ s = s' := by
  simp only [Fails, reading, run, Prod.mk.injEq, Except.error.injEq]
  exact and_congr_left' eq_comm

/-- One reader after another fails in the first one, or in the second one after an answer of the
first. -/
theorem fails_andThen {outcome : Except Error α × Stream} {next : α → Reader Stream β} :
    Reader.andThen outcome next = (.error e, s') ↔ outcome = (.error e, s') ∨
      ∃ a s₁, outcome = (.ok a, s₁) ∧ next a s₁ = (.error e, s') := by
  rcases outcome with ⟨e | a, s₁⟩
  · simp [Reader.andThen]
  · constructor
    · exact fun h => .inr ⟨a, s₁, rfl, h⟩
    · rintro (h | ⟨_, _, ⟨⟩, h⟩)
      · cases h
      · exact h

/-- A script that goes on with another one fails where either does. -/
@[simp]
theorem fails_bind {x : Script α} {f : α → Script β} :
    (x.bind f).Fails s e s' ↔ x.Fails s e s' ∨ ∃ a s₁, x.Gives s a s₁ ∧ (f a).Fails s₁ e s' := by
  rw [Fails, reading_bind, fails_andThen]
  rfl

/-- Calling a phrase fails as the script of the phrase does. -/
theorem fails_call {p : Phrase} : (call p).Fails s e s' ↔ p.script.Fails s e s' := by
  have h : (call p).reading s = Reader.andThen (p.reading s) fun b => (done b).reading := rfl
  rw [Fails, h, fails_andThen, p.reading_eq]
  constructor
  · rintro (hp | ⟨b, s₁, -, hdone⟩)
    · exact hp
    · exact absurd hdone not_fails_done
  · exact .inl

/-- `peekAt` fails where there is an error in place of the token, and otherwise goes on from the
same stream. -/
theorem fails_peekAt {ahead : Nat} {next : Token → Script α} :
    (peekAt ahead next).Fails s e s' ↔ s.tokenAt ahead = .error e ∧ s = s' ∨
      ∃ t, s.tokenAt ahead = .ok t ∧ (next t).Fails s e s' := by
  have h : (peekAt ahead next).reading s =
      Reader.andThen (s.tokenAt ahead, s) fun t => (next t).reading := rfl
  rw [Fails, h]
  cases s.tokenAt ahead <;> simp [Reader.andThen, Fails]

/-- `take` fails where there is an error in place of the token, and otherwise goes on behind it. -/
theorem fails_take {next : Token → Script α} :
    (take next).Fails s e s' ↔ s.tokenAt 0 = .error e ∧ s = s' ∨
      ∃ t, s.tokenAt 0 = .ok t ∧ (next t).Fails s.rest e s' := by
  have h : (take next).reading s =
      Reader.andThen (s.tokenAt 0, s.rest) fun t => (next t).reading := rfl
  rw [Fails, h]
  cases htoken : s.tokenAt 0 with
  | error e' => simp [Reader.andThen, Stream.rest_of_error htoken]
  | ok t => simp [Reader.andThen, Fails]

@[simp]
theorem fails_peek : peek.Fails s e s' ↔ s.tokenAt 0 = .error e ∧ s = s' := by
  simp [peek, fails_peekAt]

@[simp]
theorem fails_skip : skip.Fails s e s' ↔ s.tokenAt 0 = .error e ∧ s = s' := by
  simp [skip, fails_take]

/-- `skip` does not fail at a token that is known. -/
theorem fails_skip_bind {t : Token} {f : Unit → Script α} (ht : s.tokenAt 0 = .ok t) :
    (skip.bind f).Fails s e s' ↔ (f ()).Fails s.rest e s' := by
  simp only [fails_bind, fails_skip, gives_skip, ht, reduceCtorEq, false_and, false_or]
  constructor
  · rintro ⟨_, _, ⟨-, rfl⟩, h⟩
    exact h
  · exact fun h => ⟨(), _, ⟨⟨t, rfl⟩, rfl⟩, h⟩

@[simp]
theorem fails_nextIs {kind : Kind} :
    (nextIs kind).Fails s e s' ↔ s.tokenAt 0 = .error e ∧ s = s' := by
  simp [nextIs, bind_eq, pure_eq]

/-- For `acceptAny`, whether a token is taken or not, only its place can be in error. -/
@[simp]
theorem fails_acceptAny {kinds : List Kind} :
    (acceptAny kinds).Fails s e s' ↔ s.tokenAt 0 = .error e ∧ s = s' := by
  simp only [acceptAny, bind_eq, pure_eq, fails_bind, fails_peek, gives_peek]
  refine or_iff_left ?_
  rintro ⟨t, _, ⟨ht, rfl⟩, h⟩
  split at h <;> simp [advance, fails_take, ht] at h

/-- `acceptKind` fails only where no token could be read. -/
@[simp]
theorem fails_acceptKind {kind : Kind} :
    (acceptKind kind).Fails s e s' ↔ s.tokenAt 0 = .error e ∧ s = s' := by
  simp [acceptKind, bind_eq, pure_eq]

@[simp]
theorem fails_accept {mark : String} :
    (accept mark).Fails s e s' ↔ s.tokenAt 0 = .error e ∧ s = s' := fails_acceptKind

/-- `expectAny` fails at the next token, whether it could not be read or is another one. -/
theorem blocked_of_expectAny {kinds : List Kind} {expected : String}
    (h : (expectAny kinds expected).Fails s e s') : s.Blocked e ∧ s = s' := by
  simp only [expectAny, bind_eq, pure_eq, fails_bind, fails_acceptAny, gives_acceptAny] at h
  obtain ⟨herror, rfl⟩ | ⟨_, _, ⟨t, ht, ⟨-, rfl, rfl⟩ | ⟨-, rfl, rfl⟩⟩, h⟩ := h
  · exact ⟨.inl herror, rfl⟩
  · simp at h
  · simp only [fails_bind, fails_peek, gives_peek, fails_fail] at h
    obtain ⟨herror, rfl⟩ | ⟨u, _, ⟨hu, rfl⟩, rfl, rfl⟩ := h
    · exact ⟨.inl herror, rfl⟩
    · exact ⟨.inr ⟨u, _, hu, rfl⟩, rfl⟩

theorem blocked_of_expect {mark : String} (h : (expect mark).Fails s e s') :
    s.Blocked e ∧ s = s' := by
  simp only [expect, bind_eq, fails_bind, not_fails_done, pure_eq, and_false, exists_false,
    or_false] at h
  exact blocked_of_expectAny h

theorem blocked_of_expectEnd (h : expectEnd.Fails s e s') : s.Blocked e ∧ s = s' := by
  simp only [expectEnd, atEnd, bind_eq, pure_eq, fails_bind, fails_nextIs, gives_nextIs] at h
  obtain ⟨herror, rfl⟩ | ⟨b, _, ⟨-, rfl⟩, h⟩ := h
  · exact ⟨.inl herror, rfl⟩
  split at h
  · simp at h
  · simp only [fails_bind, fails_peek, gives_peek, fails_fail] at h
    obtain ⟨herror, rfl⟩ | ⟨t, _, ⟨ht, rfl⟩, rfl, rfl⟩ := h
    · exact ⟨.inl herror, rfl⟩
    · exact ⟨.inr ⟨t, _, ht, rfl⟩, rfl⟩

/-- `nextThen` fails at the first of two tokens, or at the second behind the mark. -/
theorem fails_nextThen {mark : String} {fits : Token → Bool} :
    (nextThen mark fits).Fails s e s' ↔ s = s' ∧ (s.tokenAt 0 = .error e ∨
      ∃ t, s.tokenAt 0 = .ok t ∧ t.kind = .mark mark ∧ s.rest.tokenAt 0 = .error e) := by
  simp only [nextThen, nextIsMark, bind_eq, pure_eq, fails_bind, fails_nextIs, gives_nextIs]
  constructor
  · rintro (⟨herror, rfl⟩ | ⟨_, _, ⟨⟨t, ht, rfl⟩, rfl⟩, h⟩)
    · exact ⟨rfl, .inl herror⟩
    split at h
    · rename_i hkind
      simp only [peekSecond, fails_bind, fails_peekAt, not_fails_done, and_false, exists_false,
        or_false, Stream.tokenAt_succ] at h
      exact ⟨h.2, .inr ⟨t, ht, by simpa using hkind, h.1⟩⟩
    · simp at h
  · rintro ⟨rfl, herror | ⟨t, ht, hkind, herror⟩⟩
    · exact .inl ⟨herror, rfl⟩
    · refine .inr ⟨true, s, ⟨⟨t, ht, by simp [hkind]⟩, rfl⟩, ?_⟩
      simp [peekSecond, fails_peekAt, Stream.tokenAt_succ, herror]

/-- `spanned` fails at its first token or where its script fails. -/
theorem fails_spanned {body : Script Unit} (h : (spanned body).Fails s e s') :
    s.tokenAt 0 = .error e ∧ s = s' ∨ body.Fails s e s' := by
  simp only [spanned, bind_eq, fails_bind, fails_peek, gives_peek] at h
  obtain h | ⟨t, _, ⟨-, rfl⟩, h | ⟨_, s₁, -, h⟩⟩ := h
  · exact .inl h
  · exact .inr h
  · exact absurd h not_fails_done

end Script

/-! ### Completions -/

/-- What of a token the grammar looks at. -/
def Token.word (t : Token) : Kind × String := (t.kind, t.text)

/-- The words that are enough to complete a type: a name, a key, and marks. -/
def fillers : List (Kind × String) :=
  (.upperName, "A") :: (.lowerKey, "self:") ::
    ["->", "=>", "(", ")", "]", "\x7b", "\x7d"].map fun mark => (.mark mark, mark)

/-- The tokens can be completed to some of this form, with fillers. -/
def Viable (a : Form) (us : List Token) : Prop :=
  ∃ ws ⊆ fillers, ∀ cs : List Token, cs.map Token.word = ws → Derives a (us ++ cs)

namespace Viable

variable {a b : Form} {us : List Token}

/-- Tokens of a form need no completion (`Viable`). -/
theorem of_derives (h : Derives a us) : Viable a us := by
  refine ⟨[], by simp, fun cs hcs => ?_⟩
  rw [List.map_eq_nil_iff.1 hcs, List.append_nil]
  exact h

/-- A word by itself. -/
theorem token {fits : Token → Bool} {w : Kind × String} (hw : w ∈ fillers)
    (h : ∀ t : Token, t.word = w → fits t = true) : Viable (.token fits) [] := by
  refine ⟨[w], by simpa using hw, fun cs hcs => ?_⟩
  obtain ⟨t, rfl, ht⟩ := List.map_eq_singleton_iff.1 hcs
  exact .token (h t ht)

/-- A mark can be left to the completion, if it is one of the `fillers`. -/
theorem mark {text : String} (h : (.mark text, text) ∈ fillers) : Viable (.mark text) [] :=
  token h fun t ht => by simp [← (Prod.mk.inj ht).1]

/-- Completions serve every form that has at least the same tokens. -/
theorem imp (h : Viable a us) (himp : ∀ {ts : List Token}, Derives a ts → Derives b ts) :
    Viable b us := by
  obtain ⟨ws, hws, h⟩ := h
  exact ⟨ws, hws, fun cs hcs => himp (h cs hcs)⟩

/-- What completes tokens for a rule completes them for its nonterminal. -/
theorem phrase {n : Nonterminal} (h : Viable n.rule us) : Viable (.phrase n) us := h.imp .phrase

theorem left (h : Viable a us) : Viable (a <|> b) us := h.imp .left

theorem right (h : Viable b us) : Viable (a <|> b) us := h.imp .right

theorem some (h : Viable a us) : Viable (.maybe a) us := h.imp .some

theorem none : Viable (.maybe a) [] := of_derives .none

theorem stop : Viable (.many a) [] := of_derives .stop

/-- What completes tokens for a form completes them for a repetition of it. -/
theorem one (h : Viable a us) : Viable (.many a) us := by
  refine h.imp fun {ts} hts => ?_
  have := Derives.more hts .stop
  rwa [List.append_nil] at this

/-- What is completed in front is followed by something shortest. -/
theorem inFront (ha : Viable a us) (hb : Viable b []) : Viable (a >> b) us := by
  obtain ⟨ws, hws, ha⟩ := ha
  obtain ⟨ws', hws', hb⟩ := hb
  refine ⟨ws ++ ws', List.append_subset.2 ⟨hws, hws'⟩, fun cs hcs => ?_⟩
  obtain ⟨cs, ds, rfl, hcs, hds⟩ := List.map_eq_append_iff.1 hcs
  rw [← List.append_assoc]
  exact .andThen (ha cs hcs) (hb ds hds)

/-! The shortest completions of some forms. -/

/-- The last part of a name can be left to the completion. -/
theorem nameEnd : Viable .nameEnd [] :=
  .token (w := (.upperName, "A")) (by simp [fillers])
    fun t ht => by simp [(Prod.mk.inj ht).1, Kind.isName]

/-- A name can be left to the completion. -/
theorem name : Viable (.phrase .name) [] :=
  .phrase (.inFront .none (.inFront .stop nameEnd))

theorem simple : Viable (.phrase .simple) [] :=
  .phrase (.right (.right (.right (.right (.right (.right (.right (.right (.right
    (.inFront name .none))))))))))

theorem optional : Viable (.phrase .optional) [] := .phrase (.inFront simple .none)

theorem intersection : Viable (.phrase .intersection) [] := .phrase (.inFront optional .stop)

/-- A type can be left to the completion: one name is enough for it. -/
theorem type : Viable (.phrase .type) [] := .phrase (.inFront intersection .stop)

/-- A key can be left to the completion. -/
theorem key : Viable .key [] :=
  .token (w := (.lowerKey, "self:")) (by simp [fillers])
    fun t ht => by simp [(Prod.mk.inj ht).1, Kind.isKey]

theorem selfKey : Viable (.spelled "self:") [] :=
  .token (w := (.lowerKey, "self:")) (by simp [fillers]) fun t ht => by simp [(Prod.mk.inj ht).2]

/-- A field of a record can be left to the completion: a key and a type. -/
theorem field : Viable (.phrase .field) [] := .phrase (.left (.inFront .none (.inFront key type)))

/-- An arrow with a type behind it can be left to the completion. -/
theorem result : Viable (.mark "->" >> .phrase .optional) [] :=
  .inFront (.mark (by decide)) optional

end Viable

/-! ### Stalling -/

/-- Tokens of a form are taken from one stream to the other. -/
structure Stream.Passes (a : Form) (s s' : Stream) : Prop where
  takes : ∃ taken, s.Takes taken s'
  cut : Cut a s.tokens s'.tokens

/-- The error stands behind viable tokens of the stream, at the place `s'` or beyond it. -/
def Stalls (a : Form) (s : Stream) (e : Error) (s' : Stream) : Prop :=
  ∃ us s₁, s.Takes us s₁ ∧ Viable a us ∧ s₁.Blocked e ∧ ∃ vs, s'.Takes vs s₁

/-- Tokens taken one after another are taken together. -/
theorem Stream.exists_takes_trans {s₂ : Stream} (h : ∃ taken, s.Takes taken s₁)
    (h' : ∃ taken, s₁.Takes taken s₂) : ∃ taken, s.Takes taken s₂ := by
  obtain ⟨us, hus⟩ := h
  obtain ⟨vs, hvs⟩ := h'
  exact ⟨us ++ vs, hus.trans hvs⟩

namespace Stream.Passes

variable {a b : Form} {s₂ : Stream}

/-- A run that gives an answer passes a form, if what it took is cut off by this form. -/
theorem of_gives {x : Script α} {v : α} (h : x.Gives s v s') (hcut : Cut a s.tokens s'.tokens) :
    s.Passes a s' := ⟨h.takes, hcut⟩

/-- Two forms are passed one after the other. -/
theorem andThen (ha : s.Passes a s₁) (hb : s₁.Passes b s₂) : s.Passes (a >> b) s₂ :=
  ⟨exists_takes_trans ha.takes hb.takes, ha.cut.andThen hb.cut⟩

theorem left (h : s.Passes a s') : s.Passes (a <|> b) s' := ⟨h.takes, h.cut.left⟩

theorem right (h : s.Passes b s') : s.Passes (a <|> b) s' := ⟨h.takes, h.cut.right⟩

theorem some (h : s.Passes a s') : s.Passes (.maybe a) s' := ⟨h.takes, h.cut.some⟩

theorem none : s.Passes (.maybe a) s := ⟨⟨[], .refl s⟩, .none⟩

theorem stop : s.Passes (.many a) s := ⟨⟨[], .refl s⟩, .stop⟩

/-- A nonterminal is passed by its rule. -/
theorem phrase {n : Nonterminal} (h : s.Passes n.rule s') : s.Passes (.phrase n) s' :=
  ⟨h.takes, h.cut.phrase⟩

/-- A single token is passed by taking it. -/
theorem rest (h : Cut a s.tokens s.rest.tokens) : s.Passes a s.rest := ⟨⟨_, s.takes_rest⟩, h⟩

theorem assoc {c : Form} (h : s.Passes ((a >> b) >> c) s') : s.Passes (a >> b >> c) s' := by
  obtain ⟨mid, hab, hc⟩ := h.cut.exists_of_andThen
  obtain ⟨mid', ha, hb⟩ := hab.exists_of_andThen
  exact ⟨h.takes, ha.andThen (hb.andThen hc)⟩

/-- The tokens that are taken are those of the form. -/
theorem exists_takes (h : s.Passes a s') : ∃ us, s.Takes us s' ∧ Derives a us := by
  obtain ⟨⟨taken, htaken⟩, us, hus, hderives⟩ := h
  obtain rfl : taken = us := List.append_cancel_right (htaken.tokens.symm.trans hus)
  exact ⟨taken, htaken, hderives⟩

end Stream.Passes

/-- A form that cuts off everything describes all tokens. -/
theorem cut_nil_iff {a : Form} {ts : List Token} : Cut a ts [] ↔ Derives a ts := by
  simp [Cut]

namespace Stalls

variable {a b c : Form}

/-- Nothing of the form has been read (`Stalls`). -/
theorem here (h : s.Blocked e ∧ s = s') (ha : Viable a []) : Stalls a s e s' := by
  obtain ⟨hblocked, rfl⟩ := h
  exact ⟨[], s, .refl s, ha, hblocked, [], .refl s⟩

/-- In front of a form of which nothing has been read, an error stalls it if the form can be
completed from nothing. -/
theorem of_error (h : s.tokenAt 0 = .error e ∧ s = s') (ha : Viable a []) : Stalls a s e s' :=
  here ⟨.inl h.1, h.2⟩ ha

/-- An error that stalls one form stalls every form with at least the same completions. -/
theorem imp (h : Stalls a s e s') (himp : ∀ {us : List Token}, Viable a us → Viable b us) :
    Stalls b s e s' := by
  obtain ⟨us, s₁, htakes, hviable, hblocked⟩ := h
  exact ⟨us, s₁, htakes, himp hviable, hblocked⟩

/-- An error that stalls a rule stalls its nonterminal. -/
theorem phrase {n : Nonterminal} (h : Stalls n.rule s e s') : Stalls (.phrase n) s e s' :=
  h.imp .phrase

theorem left (h : Stalls a s e s') : Stalls (a <|> b) s e s' := h.imp .left

theorem right (h : Stalls b s e s') : Stalls (a <|> b) s e s' := h.imp .right

theorem some (h : Stalls a s e s') : Stalls (.maybe a) s e s' := h.imp .some

/-- An error in the first item stalls a repetition. -/
theorem one (h : Stalls a s e s') : Stalls (.many a) s e s' := h.imp .one

/-- An error in the first of two forms stalls both, if the second can be completed from nothing. -/
theorem inFront (h : Stalls a s e s') (hb : Viable b []) : Stalls (a >> b) s e s' :=
  h.imp (.inFront · hb)

theorem assoc (h : Stalls ((a >> b) >> c) s e s') : Stalls (a >> b >> c) s e s' := by
  refine h.imp fun h => h.imp fun h => ?_
  obtain ⟨_, zs, rfl, h, hc⟩ := derives_andThen.1 h
  obtain ⟨xs, ys, rfl, ha, hb⟩ := derives_andThen.1 h
  rw [List.append_assoc]
  exact .andThen ha (.andThen hb hc)

/-- Tokens of a form have been read before. -/
theorem after (ha : s.Passes a s₁) (hb : Stalls b s₁ e s')
    (himp : ∀ {ts mid : List Token}, Cut a ts mid → Cut b mid [] → Cut c ts []) :
    Stalls c s e s' := by
  obtain ⟨us, hus, hderives⟩ := ha.exists_takes
  obtain ⟨vs, s₂, hvs, ⟨ws, hws, hviable⟩, hblocked⟩ := hb
  refine ⟨us ++ vs, s₂, hus.trans hvs, ⟨ws, hws, fun cs hcs => ?_⟩, hblocked⟩
  rw [List.append_assoc]
  exact cut_nil_iff.1 (himp ⟨us, rfl, hderives⟩ (cut_nil_iff.2 (hviable cs hcs)))

/-- An error in the second of two forms stalls both, once the first one is passed. -/
theorem behind (ha : s.Passes a s₁) (hb : Stalls b s₁ e s') : Stalls (a >> b) s e s' :=
  after ha hb .andThen

/-- An error in a later item stalls a repetition. -/
theorem more (ha : s.Passes a s₁) (h : Stalls (.many a) s₁ e s') : Stalls (.many a) s e s' :=
  after ha h .more

/-- One round of a loop has been read before. -/
theorem again (ha : s.Passes a s₁) (h : Stalls (.many a >> b) s₁ e s') :
    Stalls (.many a >> b) s e s' := by
  refine after ha h fun ha h => ?_
  obtain ⟨mid, hmany, hb⟩ := h.exists_of_andThen
  exact (ha.more hmany).andThen hb

/-- A separator has been read before another round of a loop. -/
theorem separated (ha : s.Passes a s₁) (h : Stalls (b >> .many (a >> b) >> c) s₁ e s') :
    Stalls (.many (a >> b) >> c) s e s' := by
  refine after ha h fun ha h => ?_
  obtain ⟨mid, hb, h⟩ := h.exists_of_andThen
  obtain ⟨mid', hmany, hc⟩ := h.exists_of_andThen
  exact ((ha.andThen hb).more hmany).andThen hc

/-- All of the form has been read. -/
theorem ended (ha : s.Passes a s₁) (h : s₁.Blocked e ∧ s₁ = s') : Stalls a s e s' := by
  obtain ⟨us, hus, hderives⟩ := ha.exists_takes
  obtain ⟨hblocked, rfl⟩ := h
  exact ⟨us, s₁, hus, .of_derives hderives, hblocked, [], .refl s₁⟩

/-- A token has been looked at, and the error lies beyond it. -/
theorem beyond (ha : s.Passes a s.rest) (h : s.rest.tokenAt 0 = .error e) (hb : Viable b []) :
    Stalls (a >> b) s e s := by
  obtain ⟨us, s₁, hus, hviable, hblocked, vs, hvs⟩ := behind ha (of_error ⟨h, rfl⟩ hb)
  exact ⟨us, s₁, hus, hviable, hblocked, _, s.takes_rest.trans hvs⟩

/-- Where there are no tokens left, it does not matter what was to be read. -/
theorem of_nil (h : Stalls a s e s') (hs : s.tokens = []) (hb : Viable b []) : Stalls b s e s' := by
  obtain ⟨us, s₁, hus, -, hblocked⟩ := h
  obtain rfl : us = [] := (List.append_eq_nil_iff.1 (hus.tokens.symm.trans hs)).1
  exact ⟨[], s₁, hus, hb, hblocked⟩

end Stalls

end TypeNotes.Signature
