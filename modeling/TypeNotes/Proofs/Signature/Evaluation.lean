import TypeNotes.Proofs.Signature.Transparency

/-!
# Reading without a budget

When a signature is read, a budget bounds how deep calls are nested. Here reading is told without one,
as a relation that follows the calls of a script however deep they go: what goes on for ever is
evaluated to nothing.

**Evaluation.** A script is evaluated to at most one outcome (`Script.Evaluates.unique`). A run within
a budget is an evaluation unless the budget is used up (`Script.evaluates_run`), so a cursor in a
signature evaluates every call, and just as it runs (`Standing.evaluates_iff`).

**Entering phrases.** `Script.Enters` lists the phrases that are entered on the way, in a call or in
calls inside of it. A phrase that is entered in another one before a token has been taken has a lower
rank (`Script.Enters.rank_lt`). So each time that reading comes back to a phrase inside of the same
phrase, be it a loop or a recursion through other phrases, at least one token has been taken.
-/

namespace TypeNotes.Signature

open Script

/-! ### Evaluation -/

/-- A script, followed on a supply of tokens with the scripts of the phrases that it calls, comes to
an outcome and leaves the supply in this state. -/
inductive Script.Evaluates {σ : Type} [Supply σ] :
    {α : Type} → Script α → σ → Except Error α → σ → Prop
  | done {α : Type} {a : α} {s : σ} : Evaluates (done a) s (.ok a) s
  | fail {α : Type} {e : Error} {s : σ} : Evaluates (fail e : Script α) s (.error e) s
  | peekAt {α : Type} {ahead : Nat} {next : Token → Script α} {t : Token} {s s₁ s' : σ}
      {outcome : Except Error α} : Supply.peek ahead s = (.ok t, s₁) →
      Evaluates (next t) s₁ outcome s' → Evaluates (peekAt ahead next) s outcome s'
  | peekAt_error {α : Type} {ahead : Nat} {next : Token → Script α} {e : Error} {s s' : σ} :
      Supply.peek ahead s = (.error e, s') → Evaluates (peekAt ahead next) s (.error e) s'
  | take {α : Type} {next : Token → Script α} {t : Token} {s s₁ s' : σ}
      {outcome : Except Error α} : Supply.advance s = (.ok t, s₁) →
      Evaluates (next t) s₁ outcome s' → Evaluates (take next) s outcome s'
  | take_error {α : Type} {next : Token → Script α} {e : Error} {s s' : σ} :
      Supply.advance s = (.error e, s') → Evaluates (take next) s (.error e) s'
  | askEnd {α : Type} {next : Nat → Script α} {s s' : σ} {outcome : Except Error α} :
      Evaluates (next (Supply.lastEnd s)) s outcome s' → Evaluates (askEnd next) s outcome s'
  | cutFrom {α : Type} {start : Nat} {next : String → Script α} {s s' : σ}
      {outcome : Except Error α} : Evaluates (next (Supply.textSince start s)) s outcome s' →
      Evaluates (cutFrom start next) s outcome s'
  | read {α : Type} {p : Phrase} {next : p.Answer → Script α} {a : p.Answer} {s s₁ s' : σ}
      {outcome : Except Error α} : Evaluates p.script s (.ok a) s₁ →
      Evaluates (next a) s₁ outcome s' → Evaluates (read p next) s outcome s'
  | read_error {α : Type} {p : Phrase} {next : p.Answer → Script α} {e : Error} {s s' : σ} :
      Evaluates p.script s (.error e) s' → Evaluates (read p next) s (.error e) s'

/-- Whether something else than the budget decided the outcome. -/
def Unbounded {α : Type} (outcome : Except Error α) : Prop :=
  ∀ e, outcome = .error e → e.cause ≠ .tooDeep

section Supply

variable {σ α : Type} [Supply σ]

/-- A script comes to one outcome only (`Script.Evaluates`). -/
theorem Script.Evaluates.unique {x : Script α} {s s' s'' : σ} {outcome outcome' : Except Error α}
    (h : x.Evaluates s outcome s') (h' : x.Evaluates s outcome' s'') :
    (outcome, s') = (outcome', s'') := by
  induction h generalizing s'' with
  | done => cases h'; rfl
  | fail => cases h'; rfl
  | peekAt hpeek _ ih =>
    cases h' with
    | peekAt hpeek' hnext =>
      cases hpeek.symm.trans hpeek'
      exact ih hnext
    | peekAt_error hpeek' => cases hpeek.symm.trans hpeek'
  | peekAt_error hpeek =>
    cases h' with
    | peekAt hpeek' _ => cases hpeek.symm.trans hpeek'
    | peekAt_error hpeek' =>
      cases hpeek.symm.trans hpeek'
      rfl
  | take hadvance _ ih =>
    cases h' with
    | take hadvance' hnext =>
      cases hadvance.symm.trans hadvance'
      exact ih hnext
    | take_error hadvance' => cases hadvance.symm.trans hadvance'
  | take_error hadvance =>
    cases h' with
    | take hadvance' _ => cases hadvance.symm.trans hadvance'
    | take_error hadvance' =>
      cases hadvance.symm.trans hadvance'
      rfl
  | askEnd _ ih =>
    cases h' with
    | askEnd hnext => exact ih hnext
  | cutFrom _ ih =>
    cases h' with
    | cutFrom hnext => exact ih hnext
  | read _ _ ihcall ih =>
    cases h' with
    | read hcall' hnext =>
      cases ihcall hcall'
      exact ih hnext
    | read_error hcall' => cases ihcall hcall'
  | read_error _ ihcall =>
    cases h' with
    | read hcall' _ => cases ihcall hcall'
    | read_error hcall' =>
      cases ihcall hcall'
      rfl

/-- `Script.run` is an evaluation if the phrases that it reads are evaluated unless the budget is
used up, and it is not. -/
theorem Script.evaluates_run {perform : (p : Phrase) → Reader σ p.Answer}
    (hperform : ∀ p s, Unbounded (perform p s).1 →
      p.script.Evaluates s (perform p s).1 (perform p s).2)
    {x : Script α} {s : σ} (h : Unbounded (x.run perform s).1) :
    x.Evaluates s (x.run perform s).1 (x.run perform s).2 := by
  induction x generalizing s with
  | done a => exact .done
  | fail e => exact .fail
  | peekAt ahead next ih =>
    rw [run] at h ⊢
    cases hpeek : Supply.peek ahead s with
    | mk outcome s₁ =>
      rw [hpeek] at h
      cases outcome with
      | ok t => exact .peekAt hpeek (ih t h)
      | error e => exact .peekAt_error hpeek
  | take next ih =>
    rw [run] at h ⊢
    cases hadvance : Supply.advance s with
    | mk outcome s₁ =>
      rw [hadvance] at h
      cases outcome with
      | ok t => exact .take hadvance (ih t h)
      | error e => exact .take_error hadvance
  | askEnd next ih => exact .askEnd (ih _ h)
  | cutFrom start next ih => exact .cutFrom (ih _ h)
  | read p next ih =>
    rw [run] at h ⊢
    have hcall := hperform p s
    cases hp : perform p s with
    | mk outcome s₁ =>
      rw [hp] at h hcall
      cases outcome with
      | ok a => exact .read (hcall fun e he => by cases he) (ih a h)
      | error e => exact .read_error (hcall fun e' he' => h e' (by rw [Except.error.inj he']; rfl))

theorem Phrase.evaluates_perform {budget : Nat} {p : Phrase} {s : σ}
    (h : Unbounded (p.perform budget s).1) :
    p.script.Evaluates s (p.perform budget s).1 (p.perform budget s).2 := by
  induction budget generalizing p s with
  | zero => exact absurd rfl (h _ rfl)
  | succ budget ih => exact evaluates_run (fun _ _ => ih) h

end Supply

/-! ### Entering phrases -/

/-- While a script is followed on a supply of tokens, a phrase is entered in some state, in a call of
the script or inside of one. -/
inductive Script.Enters {σ : Type} [Supply σ] :
    {α : Type} → Script α → σ → Phrase → σ → Prop
  | peekAt {α : Type} {ahead : Nat} {next : Token → Script α} {t : Token} {q : Phrase}
      {s s₁ s' : σ} : Supply.peek ahead s = (.ok t, s₁) → Enters (next t) s₁ q s' →
      Enters (peekAt ahead next) s q s'
  | take {α : Type} {next : Token → Script α} {t : Token} {q : Phrase} {s s₁ s' : σ} :
      Supply.advance s = (.ok t, s₁) → Enters (next t) s₁ q s' → Enters (take next) s q s'
  | askEnd {α : Type} {next : Nat → Script α} {q : Phrase} {s s' : σ} :
      Enters (next (Supply.lastEnd s)) s q s' → Enters (askEnd next) s q s'
  | cutFrom {α : Type} {start : Nat} {next : String → Script α} {q : Phrase} {s s' : σ} :
      Enters (next (Supply.textSince start s)) s q s' → Enters (cutFrom start next) s q s'
  | call {α : Type} {q : Phrase} {next : q.Answer → Script α} {s : σ} :
      Enters (read q next) s q s
  | inside {α : Type} {p q : Phrase} {next : p.Answer → Script α} {s s' : σ} :
      Enters p.script s q s' → Enters (read p next) s q s'
  | behind {α : Type} {p q : Phrase} {next : p.Answer → Script α} {a : p.Answer} {s s₁ s' : σ} :
      p.script.Evaluates s (.ok a) s₁ → Enters (next a) s₁ q s' → Enters (read p next) s q s'

/-! ### Views -/

section View

variable {σ τ α : Type} {view : σ → τ} {Valid : σ → Prop}

/-- What a reader comes to, one that agrees with it comes to from the view. -/
theorem Agree.of_eq {r₁ : Reader σ α} {r₂ : Reader τ α} (h : Agree view Valid r₁ r₂) {s s₁ : σ}
    {outcome : Except Error α} (hs : Valid s) (heq : r₁ s = (outcome, s₁)) :
    r₂ (view s) = (outcome, view s₁) ∧ Valid s₁ := by
  have hagree := h s hs
  rwa [heq] at hagree

variable [Supply σ] [Supply τ]

/-- A script is evaluated alike on a supply and on its view. -/
theorem Simulation.evaluates (hview : Simulation view Valid) {x : Script α} {s s' : σ}
    {outcome : Except Error α} (h : x.Evaluates s outcome s') (hs : Valid s) :
    x.Evaluates (view s) outcome (view s') ∧ Valid s' := by
  induction h with
  | done => exact ⟨.done, hs⟩
  | fail => exact ⟨.fail, hs⟩
  | @peekAt _ ahead _ _ _ _ _ _ hpeek _ ih =>
    obtain ⟨hpeek', hs₁⟩ := (hview.peek ahead).of_eq hs hpeek
    obtain ⟨hnext, hs'⟩ := ih hs₁
    exact ⟨.peekAt hpeek' hnext, hs'⟩
  | @peekAt_error _ ahead _ _ _ _ hpeek =>
    obtain ⟨hpeek', hs'⟩ := (hview.peek ahead).of_eq hs hpeek
    exact ⟨.peekAt_error hpeek', hs'⟩
  | take hadvance _ ih =>
    obtain ⟨hadvance', hs₁⟩ := hview.advance.of_eq hs hadvance
    obtain ⟨hnext, hs'⟩ := ih hs₁
    exact ⟨.take hadvance' hnext, hs'⟩
  | take_error hadvance =>
    obtain ⟨hadvance', hs'⟩ := hview.advance.of_eq hs hadvance
    exact ⟨.take_error hadvance', hs'⟩
  | askEnd _ ih =>
    obtain ⟨hnext, hs'⟩ := ih hs
    exact ⟨.askEnd (by rwa [hview.lastEnd]), hs'⟩
  | cutFrom _ ih =>
    obtain ⟨hnext, hs'⟩ := ih hs
    exact ⟨.cutFrom (by rwa [hview.textSince]), hs'⟩
  | read _ _ ihcall ih =>
    obtain ⟨hcall, hs₁⟩ := ihcall hs
    obtain ⟨hnext, hs'⟩ := ih hs₁
    exact ⟨.read hcall hnext, hs'⟩
  | read_error _ ihcall =>
    obtain ⟨hcall, hs'⟩ := ihcall hs
    exact ⟨.read_error hcall, hs'⟩

/-- The phrases that are entered on a supply are entered on its view. -/
theorem Simulation.enters (hview : Simulation view Valid) {q : Phrase} {x : Script α} {s s' : σ}
    (h : x.Enters s q s') (hs : Valid s) : x.Enters (view s) q (view s') ∧ Valid s' := by
  induction h with
  | @peekAt _ ahead _ _ _ _ _ _ hpeek _ ih =>
    obtain ⟨hpeek', hs₁⟩ := (hview.peek ahead).of_eq hs hpeek
    obtain ⟨hnext, hs'⟩ := ih hs₁
    exact ⟨.peekAt hpeek' hnext, hs'⟩
  | take hadvance _ ih =>
    obtain ⟨hadvance', hs₁⟩ := hview.advance.of_eq hs hadvance
    obtain ⟨hnext, hs'⟩ := ih hs₁
    exact ⟨.take hadvance' hnext, hs'⟩
  | askEnd _ ih =>
    obtain ⟨hnext, hs'⟩ := ih hs
    exact ⟨.askEnd (by rwa [hview.lastEnd]), hs'⟩
  | cutFrom _ ih =>
    obtain ⟨hnext, hs'⟩ := ih hs
    exact ⟨.cutFrom (by rwa [hview.textSince]), hs'⟩
  | call => exact ⟨.call, hs⟩
  | inside _ ih =>
    obtain ⟨hcall, hs'⟩ := ih hs
    exact ⟨.inside hcall, hs'⟩
  | behind hcall _ ih =>
    obtain ⟨hcall', hs₁⟩ := hview.evaluates hcall hs
    obtain ⟨hnext, hs'⟩ := ih hs₁
    exact ⟨.behind hcall' hnext, hs'⟩

end View

/-! ### Streams -/

section Stream

variable {α : Type} {x : Script α} {q : Phrase} {s s' : Stream}

/-- On streams, evaluation is `reading`. -/
theorem Script.Evaluates.reading_eq {outcome : Except Error α} (h : x.Evaluates s outcome s') :
    x.reading s = (outcome, s') := by
  induction h with
  | done => rfl
  | fail => rfl
  | peekAt hpeek _ ih =>
    rw [reading, run, hpeek]
    exact ih
  | peekAt_error hpeek =>
    rw [reading, run, hpeek]
    rfl
  | take hadvance _ ih =>
    rw [reading, run, hadvance]
    exact ih
  | take_error hadvance =>
    rw [reading, run, hadvance]
    rfl
  | askEnd _ ih => exact ih
  | cutFrom _ ih => exact ih
  | @read _ p _ _ s _ _ _ _ _ ihcall ih =>
    have hcall : p.reading s = _ := (p.reading_eq s).trans ihcall
    rw [reading, run, hcall]
    exact ih
  | @read_error _ p _ _ s _ _ ihcall =>
    have hcall : p.reading s = _ := (p.reading_eq s).trans ihcall
    rw [reading, run, hcall]
    rfl

theorem Script.Evaluates.takes {outcome : Except Error α} (h : x.Evaluates s outcome s') :
    ∃ taken, s.Takes taken s' := by
  have htakes := Phrase.steady_reading.forward.run x s
  rwa [show x.run Phrase.reading s = (outcome, s') from h.reading_eq] at htakes

/-- Up to where a phrase is entered (`Script.Enters`), tokens are taken off the front of the stream.
-/
theorem Script.Enters.takes (h : x.Enters s q s') : ∃ taken, s.Takes taken s' := by
  induction h with
  | peekAt hpeek _ ih =>
    obtain ⟨-, rfl⟩ := Prod.mk.inj hpeek
    exact ih
  | @take _ _ _ _ s _ _ hadvance _ ih =>
    obtain ⟨-, rfl⟩ := Prod.mk.inj hadvance
    obtain ⟨taken, htaken⟩ := ih
    exact ⟨_, s.takes_rest.trans htaken⟩
  | askEnd _ ih => exact ih
  | cutFrom _ ih => exact ih
  | call => exact ⟨[], .refl _⟩
  | inside _ ih => exact ih
  | behind hcall _ ih =>
    obtain ⟨first, hfirst⟩ := hcall.takes
    obtain ⟨taken, htaken⟩ := ih
    exact ⟨_, hfirst.trans htaken⟩

theorem Script.Enters.length_le (h : x.Enters s q s') : s'.tokens.length ≤ s.tokens.length := by
  obtain ⟨taken, htaken⟩ := h.takes
  rw [htaken.length]
  exact Nat.le_add_left _ _

/-- A phrase that a paced script enters before a token has been taken has a rank below the limit. -/
theorem Script.Enters.rank_lt (h : x.Enters s q s') {limit : Nat} {known : Option Token}
    {post : α → Option Token → Prop} (hx : x.Paced limit known post) (hknown : s.Knows known)
    (hlen : s.tokens.length ≤ s'.tokens.length) : q.rank < limit := by
  induction h generalizing limit known with
  | @peekAt _ ahead _ t _ s _ _ hpeek _ ih =>
    obtain ⟨htoken, rfl⟩ := Prod.mk.inj hpeek
    cases ahead with
    | zero => exact ih (hx t (hknown.eq htoken)) (Stream.knows_some htoken) hlen
    | succ ahead => exact ih (hx t) hknown hlen
  | @take _ _ t _ s _ _ hadvance hnext ih =>
    obtain ⟨htoken, rfl⟩ := Prod.mk.inj hadvance
    have hle := hnext.length_le
    cases hend : t.isEnd with
    | false =>
      have hlt := Stream.length_rest_lt htoken hend
      omega
    | true =>
      rw [Stream.rest_of_nil (Stream.tokens_of_isEnd htoken hend)] at ih
      exact ih (hx t (hknown.eq htoken) hend) (Stream.knows_some htoken) hlen
  | askEnd _ ih => exact ih (hx _) hknown hlen
  | cutFrom _ ih => exact ih (hx _) hknown hlen
  | call => exact hx.1
  | @inside _ p _ _ _ _ _ ih =>
    have hlt := ih p.paced_script (fun u hu => by cases hu) hlen
    exact Nat.lt_trans hlt hx.1
  | @behind _ p _ _ a s s₁ _ hcall hnext ih =>
    obtain ⟨taken, htaken⟩ := hcall.takes
    have hle := hnext.length_le
    have hcount := htaken.length
    -- The phrase read before has taken no token, so it is none of those that have to.
    have hread : p.reading s = (.ok a, s₁) := (p.reading_eq s).trans hcall.reading_eq
    rcases hx.2 with htakes | hnext'
    · exact absurd (Phrase.steady_reading.takes p s htakes hread) (by omega)
    · exact ih (hnext' a) (fun u hu => by cases hu) (by omega)

/-- A phrase that is entered inside itself is entered with fewer tokens left. -/
theorem Phrase.exists_taken_of_enters {p : Phrase} (h : p.script.Enters s p s') :
    ∃ taken, taken ≠ [] ∧ s.Takes taken s' := by
  obtain ⟨taken, htaken⟩ := h.takes
  refine ⟨taken, ?_, htaken⟩
  rintro rfl
  have hlen := htaken.length
  rw [List.length_nil, Nat.zero_add] at hlen
  exact Nat.lt_irrefl _ (h.rank_lt p.paced_script (fun u hu => by cases hu) (Nat.le_of_eq hlen))

end Stream

/-! ### Cursors in a signature -/

namespace Standing

variable {data : List UInt8} {c c' : Cursor} {b : Bookmark data}

/-- A cursor evaluates a call to what `run` gives for it. -/
theorem evaluates_iff (h : Standing c b) (call : Call) {outcome : Except Error call.Answer} :
    call.script.Evaluates c outcome c' ↔ (outcome, c') = c.run call.script := by
  have hrun : call.script.Evaluates c (c.run call.script).1 (c.run call.script).2 :=
    evaluates_run (fun _ _ => Phrase.evaluates_perform) fun _ => h.cause_ne_tooDeep call
  constructor
  · exact fun hcall => hcall.unique hrun
  · intro heq
    rwa [← heq] at hrun

/-- Between the two places where a phrase is entered, and entered again inside itself, a token is
taken. -/
theorem exists_taken_of_enters (h : Standing c b) {α : Type} {x : Script α} {p : Phrase}
    {c₁ c₂ : Cursor} (houter : x.Enters c p c₁) (hinner : p.script.Enters c₁ p c₂) :
    ∃ taken, taken ≠ [] ∧ c₁.toStream.Takes taken c₂.toStream := by
  obtain ⟨-, hlast⟩ := Cursor.simulation.enters houter h.endLast
  exact Phrase.exists_taken_of_enters (Cursor.simulation.enters hinner hlast).1

end Standing

end TypeNotes.Signature
