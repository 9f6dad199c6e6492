import TypeNotes.Proofs.Signature.Margin
import TypeNotes.Proofs.Signature.Material

/-!
# What may follow a phrase

What a script reads does not depend on what follows the tokens that it takes, as long as that cannot
be taken for more of it. Which tokens may follow is left open; `ends` tells them by their kinds.

**Two streams.** `Stream.Alongside ends i j k s s'` says that the next `k` tokens of two streams are
the same, those of `s` standing `i` bytes and those of `s'` standing `j` bytes further on, and that a
token follows in `s'` whose kind may follow.

**Looking and taking.** A test that succeeds on `s` succeeds on `s'` if the tokens it looked at are
taken later. A test that fails on `s` fails on `s'` if no token that may follow passes it, or if a
token is taken later in any case. `Script.Sealed` keeps account of this. Some phrases look at tokens
that whoever called them takes; they have a *leeway* of that many tokens.
-/

namespace TypeNotes.Signature

open Script Grammar

variable {α β : Type}

/-! ### Runs with a property of all calls -/

/-- A property of phrases that were read: the stream, the answer, and the stream afterwards. -/
abbrev Phrase.Property : Type := (p : Phrase) → Stream → p.Answer → Stream → Prop

/-- The script gives the answer, and every call on the way has the property. -/
def Script.Runs (Q : Phrase.Property) : Script α → Stream → α → Stream → Prop
  | done b, s, a, t => a = b ∧ s = t
  | fail _, _, _, _ => False
  | peekAt ahead next, s, a, t => ∃ u, s.tokenAt ahead = .ok u ∧ (next u).Runs Q s a t
  | take next, s, a, t => ∃ u, s.tokenAt 0 = .ok u ∧ (next u).Runs Q s.rest a t
  | askEnd next, s, a, t => (next s.lastEnd).Runs Q s a t
  | cutFrom start next, s, a, t => (next (s.textSince start)).Runs Q s a t
  | read p next, s, a, t =>
    ∃ b s₁, p.script.Gives s b s₁ ∧ Q p s b s₁ ∧ (next b).Runs Q s₁ a t

namespace Script

variable {Q : Phrase.Property} {s t : Stream}

/-- A script followed by others runs through both (`Script.Runs`). -/
theorem runs_bind {x : Script α} {f : α → Script β} {b : β} :
    (x.bind f).Runs Q s b t ↔ ∃ a s₁, x.Runs Q s a s₁ ∧ (f a).Runs Q s₁ b t := by
  induction x generalizing s with
  | done a =>
    constructor
    · exact fun h => ⟨a, s, ⟨rfl, rfl⟩, h⟩
    · rintro ⟨_, _, ⟨rfl, rfl⟩, h⟩
      exact h
  | fail e => simp [Script.bind, Runs]
  | peekAt ahead next ih | take next ih =>
    simp only [Script.bind, Runs, ih]
    constructor
    · rintro ⟨u, hu, a, s₁, hx, hf⟩
      exact ⟨a, s₁, ⟨u, hu, hx⟩, hf⟩
    · rintro ⟨a, s₁, ⟨u, hu, hx⟩, hf⟩
      exact ⟨u, hu, a, s₁, hx, hf⟩
  | askEnd next ih | cutFrom start next ih => exact ih _
  | read p next ih =>
    simp only [Script.bind, Runs, ih]
    constructor
    · rintro ⟨b, s₂, hb, hQ, a, s₁, hx, hf⟩
      exact ⟨a, s₁, ⟨b, s₂, hb, hQ, hx⟩, hf⟩
    · rintro ⟨a, s₁, ⟨b, s₂, hb, hQ, hx⟩, hf⟩
      exact ⟨b, s₂, hb, hQ, a, s₁, hx, hf⟩

/-- A run with a property of all calls is a run. -/
theorem Runs.gives {x : Script α} {a : α} (h : x.Runs Q s a t) : x.Gives s a t := by
  induction x generalizing s with
  | done b => exact gives_done.2 h
  | fail e => exact h.elim
  | peekAt ahead next ih =>
    obtain ⟨u, hu, h⟩ := h
    exact gives_peekAt.2 ⟨u, hu, ih u h⟩
  | take next ih =>
    obtain ⟨u, hu, h⟩ := h
    exact gives_take.2 ⟨u, hu, ih u h⟩
  | askEnd next ih | cutFrom start next ih => exact ih _ h
  | read p next ih =>
    obtain ⟨b, s₁, hb, -, h⟩ := h
    exact gives_bind (x := call p).2 ⟨b, s₁, gives_call.2 hb, ih b h⟩

/-- A script runs through phrases with every property that reading a phrase has. -/
theorem runs_of_run {f : Performer}
    (hf : ∀ p s a t, f p s = (.ok a, t) → p.script.Gives s a t ∧ Q p s a t) {x : Script α} {a : α}
    (h : x.run f s = (.ok a, t)) : x.Runs Q s a t := by
  induction x generalizing s with
  | done b =>
    cases h
    exact ⟨rfl, rfl⟩
  | fail e => cases h
  | peekAt ahead next ih =>
    obtain ⟨u, _, hu, h⟩ := gives_andThen.1 h
    obtain ⟨htoken, rfl⟩ := Prod.mk.inj hu
    exact ⟨u, htoken, ih u h⟩
  | take next ih =>
    obtain ⟨u, _, hu, h⟩ := gives_andThen.1 h
    obtain ⟨htoken, rfl⟩ := Prod.mk.inj hu
    exact ⟨u, htoken, ih u h⟩
  | askEnd next ih | cutFrom start next ih => exact ih _ h
  | read p next ih =>
    obtain ⟨b, s₁, hb, h⟩ := gives_andThen.1 h
    exact ⟨b, s₁, (hf p s b s₁ hb).1, (hf p s b s₁ hb).2, ih b h⟩

/-- If a phrase has the property whenever the phrases that it calls have it, every run is one in
which all calls have it. -/
theorem runs_of_gives (hQ : ∀ p s a t, p.script.Runs Q s a t → Q p s a t) {x : Script α} {a : α}
    (h : x.Gives s a t) : x.Runs Q s a t := by
  refine runs_of_run (fun p s => ?_) h
  refine Phrase.reading_invariant
    (fun p s outcome => ∀ a t, outcome = (.ok a, t) → p.script.Gives s a t ∧ Q p s a t)
    (fun p s => ⟨(.error ⟨.tooDeep, 0, 0⟩, s), fun _ _ h => by cases h⟩)
    (fun f hf p s a t h => ?_) p s
  have hruns := runs_of_run hf h
  exact ⟨hruns.gives, hQ p s a t hruns⟩

end Script

/-! ### Tokens that are taken -/

/-- The script takes so many tokens at least, whenever it gives an answer. -/
def Script.Forces (count : Nat) (x : Script α) : Prop :=
  ∀ s a t, x.Gives s a t → count + t.tokens.length ≤ s.tokens.length

/-- A script that is `Paced` to give no answer before it has taken a token takes one. -/
theorem Script.Paced.length_lt {x : Script α} {known : Option Token}
    (h : x.Paced 3 known fun _ _ => False) {s t : Stream} {a : α} (hknown : s.Knows known)
    (hgives : x.Gives s a t) : t.tokens.length < s.tokens.length := by
  refine Nat.lt_of_not_le fun hle => ?_
  obtain ⟨_, hfalse⟩ := (h.run_spec Phrase.steady_reading hknown (fun _ _ _ => rfl)
    fun _ _ _ _ => rfl).2 a t hgives hle
  exact hfalse

namespace Script

/-- A script that keeps its pace keeps it below every larger limit. -/
theorem Paced.mono {x : Script α} {limit limit' : Nat} {known : Option Token}
    {post : α → Option Token → Prop} (h : x.Paced limit known post) (hle : limit ≤ limit') :
    x.Paced limit' known post := by
  induction x generalizing known with
  | done a => exact h
  | fail e => trivial
  | peekAt ahead next ih =>
    cases ahead with
    | zero => exact fun t ht => ih t (h t ht)
    | succ ahead => exact fun t => ih t (h t)
  | take next ih => exact fun t ht hend => ih t (h t ht hend)
  | askEnd next ih | cutFrom start next ih => exact fun n => ih n (h n)
  | read p next ih => exact ⟨Nat.lt_of_lt_of_le h.1 hle, h.2.imp_right fun h a => ih a (h a)⟩

/-- A script that looks at the next token first is followed from any token. -/
theorem Paced.of_peek {f : Token → Script α} {limit : Nat} {post : α → Option Token → Prop}
    (h : (peek.bind f).Paced limit none post) (t : Token) : (f t).Paced limit (some t) post :=
  h t (fun _ hu => by cases hu)

theorem Paced.forces {x : Script α} (h : x.Paced 3 none fun _ _ => False) : x.Forces 1 := by
  intro s a t hgives
  have := h.length_lt (fun _ hu => by cases hu) hgives
  omega

/-- Two scripts take together what each of them takes at least (`Script.Forces`). -/
theorem forces_bind {x : Script α} {f : α → Script β} {i j : Nat} (hx : x.Forces i)
    (hf : ∀ a, (f a).Forces j) : (x.bind f).Forces (i + j) := by
  intro s b t h
  obtain ⟨a, s₁, hx₁, hf₁⟩ := gives_bind.1 h
  have := hx s a s₁ hx₁
  have := hf a s₁ b t hf₁
  omega

theorem forces_zero (x : Script α) : x.Forces 0 := by
  intro s a t h
  have := h.length_le
  omega

/-- A script takes what is taken at its end. -/
theorem forces_last {x : Script α} {f : α → Script β} {count : Nat}
    (hf : ∀ a, (f a).Forces count) : (x.bind f).Forces count := by
  simpa using forces_bind (forces_zero x) hf

/-- A test takes what both branches take. -/
theorem forces_ite {c : Prop} [Decidable c] {x y : Script α} {count : Nat} (hx : x.Forces count)
    (hy : y.Forces count) : (if c then x else y).Forces count := by
  split
  · exact hx
  · exact hy

/-- The last token that was taken ends at `lastEnd`. -/
theorem Gives.lastEnd_eq {x : Script α} {s r : Stream} {a : α} (h : x.Gives s a r) {m : Nat}
    (hm : s.tokens.length = m + 1 + r.tokens.length) {u : Token} (hu : s.tokens[m]? = some u) :
    r.data = s.data ∧ r.lastEnd = u.stop := by
  obtain ⟨taken, htaken⟩ := h.takes
  have hlength : taken.length = m + 1 := by
    have := htaken.length
    omega
  have hlast : taken.getLast? = some u := by
    rw [htaken.tokens, List.getElem?_append_left (by omega)] at hu
    rw [List.getLast?_eq_getElem?, hlength, Nat.add_sub_cancel, hu]
  exact ⟨htaken.data, by rw [htaken.lastEnd, hlast]; rfl⟩

end Script

/-- Two tokens that were looked at are passed over. -/
theorem length_of_skip_skip {s r : Stream} {t u : Token} {α : Type} {x : Script α} {a : α}
    (ht : s.tokenAt 0 = .ok t) (hu : s.rest.tokenAt 0 = .ok u) (hend : t.isEnd = false)
    (hend' : u.isEnd = false) (h : (skip.bind fun _ => skip.bind fun _ => x).Gives s a r) :
    2 + r.tokens.length ≤ s.tokens.length := by
  simp only [gives_bind, gives_skip] at h
  obtain ⟨_, _, ⟨-, rfl⟩, _, _, ⟨-, rfl⟩, hx⟩ := h
  have := Stream.length_rest_lt ht hend
  have := Stream.length_rest_lt hu hend'
  have := hx.length_le
  omega

/-- `attached` takes a mark if there is no gap in front of it. -/
theorem gives_attached {mark : String} {s s' : Stream} {b : Bool} :
    (attached mark).Gives s b s' ↔ ∃ t, s.tokenAt 0 = .ok t ∧
      (t.kind = .mark mark ∧ t.start = s.lastEnd ∧ b = true ∧ s' = s.rest ∨
        ¬ (t.kind = .mark mark ∧ t.start = s.lastEnd) ∧ b = false ∧ s = s') := by
  simp only [attached, bind_eq, pure_eq, gives_bind, gives_peek, gives_lastEnd]
  constructor
  · rintro ⟨t, _, ⟨ht, rfl⟩, _, _, ⟨rfl, rfl⟩, h⟩
    refine ⟨t, ht, ?_⟩
    split at h
    · rename_i htest
      simp only [gives_bind, gives_skip, gives_done] at h
      obtain ⟨_, _, ⟨-, rfl⟩, rfl, rfl⟩ := h
      simp only [Bool.and_eq_true, beq_iff_eq] at htest
      exact .inl ⟨htest.1, htest.2, rfl, rfl⟩
    · rename_i htest
      simp only [Bool.and_eq_true, beq_iff_eq] at htest
      exact .inr ⟨htest, gives_done.1 h⟩
  · rintro ⟨t, ht, h⟩
    refine ⟨t, s, ⟨ht, rfl⟩, _, s, ⟨rfl, rfl⟩, ?_⟩
    rcases h with ⟨hkind, hstart, rfl, rfl⟩ | ⟨hne, rfl, rfl⟩
    · rw [if_pos (by simp [hkind, hstart])]
      simp only [gives_bind, gives_skip, gives_done]
      exact ⟨(), s.rest, ⟨⟨t, ht⟩, rfl⟩, trivial, rfl⟩
    · rw [if_neg (by simpa using hne), gives_done]
      exact ⟨rfl, rfl⟩

/-! ### Streams side by side -/

/-- The next `k` tokens of the streams are the same, and the second stream goes on with a token that
may follow. The first stream has the tokens `i` bytes further on and the second one `j` bytes, with
the same bytes up to their ends. -/
structure Stream.Alongside (ends : Kind → Bool) (i j k : Nat) (s s' : Stream) : Prop where
  common : ∀ l < k, ∃ u : Token, s.tokens[l]? = some (u.shift i) ∧ s'.tokens[l]? = some (u.shift j) ∧
    (s.data.drop i).take u.stop = (s'.data.drop j).take u.stop
  next : ∃ v, s'.tokenAt k = .ok v ∧ ends v.kind = true

namespace Stream.Alongside

variable {ends : Kind → Bool} {i j k : Nat} {s s' : Stream}

/-- The tokens that are common to both streams are shown by both, at their places. -/
theorem tokenAt_of_lt (h : s.Alongside ends i j k s') {l : Nat} (hl : l < k) :
    ∃ u : Token, u.isEnd = false ∧ s.tokenAt l = .ok (u.shift i) ∧
      s'.tokenAt l = .ok (u.shift j) := by
  obtain ⟨u, hu, hu', -⟩ := h.common l hl
  refine ⟨u, s.thenEnd.isEnd_of_mem (u.shift i) (List.mem_of_getElem? hu), ?_, ?_⟩
  · rw [Stream.tokenAt, hu]
  · rw [Stream.tokenAt, hu']

/-- A token of the second stream is one of the common ones, or the one that follows these. -/
theorem tokenAt (h : s.Alongside ends i j k s') {l : Nat} (hl : l ≤ k) :
    (∃ u : Token, u.isEnd = false ∧ s.tokenAt l = .ok (u.shift i) ∧
      s'.tokenAt l = .ok (u.shift j)) ∨
    l = k ∧ ∃ v, s'.tokenAt l = .ok v ∧ ends v.kind = true := by
  rcases Nat.lt_or_eq_of_le hl with hlt | rfl
  · exact .inl (h.tokenAt_of_lt hlt)
  · exact .inr ⟨rfl, h.next⟩

/-- Streams stay alongside each other (`Alongside`) when a common token is taken from both. -/
theorem rest (h : s.Alongside ends i j (k + 1) s') : s.rest.Alongside ends i j k s'.rest where
  common l hl := by simpa [Stream.rest] using h.common (l + 1) (by omega)
  next := by simpa [tokenAt_succ] using h.next

/-- A token that is taken is taken on both streams. -/
theorem take {t : Token} {r : Stream} {m : Nat} (h : s.Alongside ends i j (m + k) s')
    (ht : s.tokenAt 0 = .ok t) (hend : t.isEnd = false) (hm : s.tokens.length = m + r.tokens.length)
    (hle : r.tokens.length ≤ s.rest.tokens.length) :
    ∃ (u : Token) (m' : Nat), t = u.shift i ∧ s'.tokenAt 0 = .ok (u.shift j) ∧ m = m' + 1 ∧
      s.rest.tokens.length = m' + r.tokens.length ∧ s.rest.Alongside ends i j (m' + k) s'.rest ∧
      s'.tokens.length = s'.rest.tokens.length + 1 := by
  have hlen := congrArg List.length (tokens_of_tokenAt_zero ht hend)
  rw [List.length_cons] at hlen
  obtain ⟨m, rfl⟩ : ∃ m', m = m' + 1 := ⟨m - 1, by omega⟩
  rw [Nat.add_right_comm] at h
  obtain ⟨u, hend', hu, hu'⟩ := h.tokenAt_of_lt (Nat.zero_lt_succ _)
  refine ⟨u, m, by simpa [ht] using hu, hu', rfl, by omega, h.rest, ?_⟩
  rw [tokens_of_tokenAt_zero hu' hend', List.length_cons]

end Stream.Alongside

/-! ### Sealed scripts -/

/-- No token that may follow goes on with a type. -/
def EndsTypes (ends : Kind → Bool) : Prop := ∀ mark ∈ typeMarks, ends (.mark mark) = false

/-- No token that may follow goes on with a list, a head or a member. -/
def EndsMembers (ends : Kind → Bool) : Prop :=
  (∀ mark, mark ≠ "-" → ends (.mark mark) = false) ∧ ends .lowerName = false

/-- What does not go on with a member (`EndsMembers`) does not go on with a type (`EndsTypes`). -/
theorem EndsMembers.endsTypes {ends : Kind → Bool} (h : EndsMembers ends) : EndsTypes ends := by
  refine fun mark hmark => h.1 mark ?_
  rintro rfl
  exact absurd hmark (by decide)

/-- What does not go on with a member is no mark but a dash. -/
theorem EndsMembers.kind_ne {ends : Kind → Bool} (h : EndsMembers ends) {kind : Kind}
    (hkind : ends kind = true) {mark : String} (hmark : mark ≠ "-") : kind ≠ .mark mark := by
  rintro rfl
  rw [h.1 mark hmark] at hkind
  contradiction

/-- How many tokens a phrase may look at that it does not take itself. -/
def Phrase.leeway : Phrase → Nat
  | argumentTail | parameters _ | tags | typeParameterTail _ => 1
  | _ => 0

/-- Tokens that may follow do not go on with the phrase. The end of all declarations is told by the
end of input alone. -/
def Phrase.EndsBefore (ends : Kind → Bool) : Phrase → Prop
  | optional | intersectionTail | unionTail | path _ | argumentTail | recordFields
  | parameters _ => EndsTypes ends
  | declarations => False
  | _ => EndsMembers ends

/-- On every stream beside `s` that has the tokens taken up to `t` in common with it, and `leeway`
tokens after these, the script gives the answer too, and takes the same tokens. -/
def Reproduces (ends : Kind → Bool) (i j leeway : Nat) (y : Script α) (s : Stream) (a : α)
    (t : Stream) : Prop :=
  ∀ m k s', s.tokens.length = m + t.tokens.length → leeway ≤ k → s.Alongside ends i j (m + k) s' →
    ∃ t', y.Gives s' a t' ∧ s'.tokens.length = m + t'.tokens.length ∧ t.Alongside ends i j k t'

/-- What is read as a phrase on a stream is read alike on every stream beside it. -/
def Phrase.Reproduced (ends : Kind → Bool) (i j : Nat) : Phrase.Property := fun p s a t =>
  p.EndsBefore ends → Reproduces ends i j p.leeway p.script s a t

/-- Where this token stands next, the script takes a token whenever it gives an answer. -/
def Script.TakesAt (t : Token) (x : Script α) : Prop :=
  ∀ s a r, s.tokenAt 0 = .ok t → x.Gives s a r → r.tokens.length < s.tokens.length

/-- What the script `x` gives on a stream with these first tokens, `y` gives on every stream beside
it, if phrases are read alike. The two may differ in the places of the tokens that they were
given. -/
def Script.Sealed (ends : Kind → Bool) (i j : Nat) (known : List Token) (leeway : Nat)
    (x y : Script α) : Prop :=
  ∀ s a t, known <+: s.tokens → x.Runs (Phrase.Reproduced ends i j) s a t →
    Reproduces ends i j leeway y s a t

namespace Script

/-- A script that is `Paced` to give no answer before it has taken the token it knows takes this
token. -/
theorem Paced.takesAt {x : Script α} {t : Token} (h : x.Paced 3 (some t) fun _ _ => False) :
    x.TakesAt t :=
  fun _ _ _ ht hgives => h.length_lt (Stream.knows_some ht) hgives

/-- A script that takes a token anywhere (`Forces`) takes it at every token. -/
theorem Forces.takesAt {x : Script α} (h : x.Forces 1) (t : Token) : x.TakesAt t := by
  intro s a r _ hgives
  have := h s a r hgives
  omega

variable {ends : Kind → Bool} {i j e d : Nat} {known : List Token}

@[simp]
theorem sealed_done (a : α) : Sealed ends i j known e (done a) (done a) := by
  rintro s _ _ - ⟨rfl, rfl⟩ m k s' hm - hs
  obtain rfl : m = 0 := by omega
  rw [Nat.zero_add] at hs
  exact ⟨s', gives_done.2 ⟨rfl, rfl⟩, by omega, hs⟩

@[simp]
theorem sealed_fail (error : Error) (y : Script α) : Sealed ends i j known e (fail error) y :=
  fun _ _ _ _ h => h.elim

/-- What is sealed on all streams is sealed on those with certain first tokens. -/
theorem Sealed.of_nil {x y : Script α} (h : Sealed ends i j [] d x y) :
    Sealed ends i j known d x y :=
  fun s a t _ => h s a t List.nil_prefix

/-- Before a script that takes as many tokens as are left to it, the leeway is made up for. -/
theorem sealed_bind_of_forces {x y : Script α} {f g : α → Script β}
    (hx : Sealed ends i j known d x y)
    (hf : ∀ a s s₁, x.Gives s a s₁ → Sealed ends i j [] e (f a) (g a)) {count : Nat}
    (hforces : ∀ a, (f a).Forces count) (hd : d ≤ count + e) :
    Sealed ends i j known e (x.bind f) (y.bind g) := by
  intro s b t hknown h m k s' hm hk hs
  obtain ⟨a, s₁, hx₁, hf₁⟩ := runs_bind.1 h
  obtain ⟨m₁, hm₁⟩ := Nat.exists_eq_add_of_le' hx₁.gives.length_le
  obtain ⟨m₂, hm₂⟩ := Nat.exists_eq_add_of_le' hf₁.gives.length_le
  have hcount := hforces a s₁ b t hf₁.gives
  obtain rfl : m = m₁ + m₂ := by omega
  rw [Nat.add_assoc] at hs
  obtain ⟨s₁', hgives, hlen, hs₁⟩ := hx s a s₁ hknown hx₁ m₁ (m₂ + k) s' hm₁ (by omega) hs
  obtain ⟨t', hgives', hlen', ht⟩ :=
    hf a s s₁ hx₁.gives s₁ b t List.nil_prefix hf₁ m₂ k s₁' hm₂ hk hs₁
  exact ⟨t', gives_bind.2 ⟨a, s₁', hgives, hgives'⟩, by omega, ht⟩

/-- Scripts in sequence are sealed (`Script.Sealed`), if each of them is. -/
theorem sealed_bind {x y : Script α} {f g : α → Script β} (hx : Sealed ends i j known e x y)
    (hf : ∀ a, Sealed ends i j [] e (f a) (g a)) :
    Sealed ends i j known e (x.bind f) (y.bind g) :=
  sealed_bind_of_forces hx (fun a _ _ _ => hf a) (fun a => forces_zero (f a))
    (Nat.le_of_eq (Nat.zero_add e).symm)

/-- Calling a phrase is sealed where no token that may follow goes on with it. -/
theorem sealed_call {p : Phrase} (hp : p.EndsBefore ends) (hleeway : p.leeway ≤ e) :
    Sealed ends i j known e (call p) (call p) := by
  rintro s a t - ⟨b, s₁, -, hreproduced, rfl, rfl⟩ m k s' hm hk hs
  obtain ⟨t', hgives, hlen, ht⟩ := hreproduced hp m k s' hm (Nat.le_trans hleeway hk) hs
  exact ⟨t', gives_call.2 hgives, hlen, ht⟩

/-- A test is sealed, if both branches are. -/
theorem sealed_ite {c : Prop} [Decidable c] {x x' y y' : Script α}
    (h : c → Sealed ends i j known e x y) (h' : ¬ c → Sealed ends i j known e x' y') :
    Sealed ends i j known e (if c then x else x') (if c then y else y') := by
  split
  · exact h ‹c›
  · exact h' ‹¬ c›

/-- `take` takes a known token on both streams. -/
theorem sealed_take {t : Token} {f g : Token → Script α}
    (h : ∀ u : Token, t = u.shift i → Sealed ends i j known e (f t) (g (u.shift j))) :
    Sealed ends i j (t :: known) e (take f) (take g) := by
  rintro s a r ⟨more, hmore⟩ ⟨t', ht', hf⟩ m k s' hm hk hs
  have hend : t.isEnd = false := s.thenEnd.isEnd_of_mem t (by simp [← hmore])
  obtain rfl : t = t' := by simpa [Stream.tokenAt, ← hmore] using ht'
  obtain ⟨u, m, rfl, hu', rfl, hm', hrest, hlen⟩ := hs.take ht' hend hm hf.gives.length_le
  have hknown : known <+: s.rest.tokens := ⟨more, by simp [Stream.rest, ← hmore]⟩
  obtain ⟨r', hgives, hlen', hr⟩ := h u rfl s.rest a r hknown hf m k s'.rest hm' hk hrest
  exact ⟨r', gives_take.2 ⟨_, hu', hgives⟩, by omega, hr⟩

/-- `advance` takes a known token from both streams. -/
theorem sealed_advance {t : Token} {f g : Token → Script α}
    (h : ∀ u : Token, t = u.shift i → Sealed ends i j known e (f t) (g (u.shift j))) :
    Sealed ends i j (t :: known) e (advance.bind f) (advance.bind g) := sealed_take h

theorem sealed_skip {t : Token} {f : Unit → Script α}
    (h : Sealed ends i j known e (f ()) (f ())) :
    Sealed ends i j (t :: known) e (skip.bind f) (skip.bind f) := sealed_take fun _ _ => h

/-- `expectAny` takes a token that was expected on both streams. -/
theorem sealed_expectAny {kinds : List Kind} (hkinds : .endOfInput ∉ kinds) {expected : String}
    {f g : Token → Script α}
    (h : ∀ u : Token, u.kind ∈ kinds → Sealed ends i j [] e (f (u.shift i)) (g (u.shift j))) :
    Sealed ends i j known e ((expectAny kinds expected).bind f)
      ((expectAny kinds expected).bind g) := by
  intro s a r _ hruns m k s' hm hk hs
  obtain ⟨t, s₁, hexpect, hf⟩ := runs_bind.1 hruns
  obtain ⟨ht, hmem, rfl⟩ := gives_expectAny.1 hexpect.gives
  have hend : t.isEnd = false := beq_eq_false_iff_ne.2 fun heq => hkinds (heq ▸ hmem)
  obtain ⟨u, m, rfl, hu', rfl, hm', hrest, hlen⟩ := hs.take ht hend hm hf.gives.length_le
  obtain ⟨r', hgives, hlen', hr⟩ :=
    h u hmem s.rest a r List.nil_prefix hf m k s'.rest hm' hk hrest
  exact ⟨r', gives_bind.2 ⟨_, s'.rest, gives_expectAny.2 ⟨hu', hmem, rfl⟩, hgives⟩, by omega, hr⟩

/-- `expect` is sealed, as the mark is taken. -/
@[simp]
theorem sealed_expect (mark : String) : Sealed ends i j known e (expect mark) (expect mark) :=
  sealed_expectAny (by simp) fun _ _ => sealed_done ()

/-- `skip` passes over a token that is not the last one to be taken. -/
theorem sealed_skip_of_forces {f : Unit → Script α} (h : Sealed ends i j [] e (f ()) (f ()))
    (hforces : (f ()).Forces 1) : Sealed ends i j known e (skip.bind f) (skip.bind f) := by
  rintro s a r - ⟨t, ht, hf⟩ m k s' hm hk hs
  have hlen := hforces _ _ _ hf.gives
  have hend : t.isEnd = false := by
    refine Bool.eq_false_iff.2 fun hend => ?_
    have hnil : s.rest.tokens = [] := by simp [Stream.rest, Stream.tokens_of_isEnd ht hend]
    rw [hnil, List.length_nil] at hlen
    omega
  obtain ⟨u, m, rfl, hu', rfl, hm', hrest, hlen⟩ := hs.take ht hend hm hf.gives.length_le
  obtain ⟨r', hgives, hlen', hr⟩ := h s.rest a r List.nil_prefix hf m k s'.rest hm' hk hrest
  exact ⟨r', gives_take.2 ⟨_, hu', hgives⟩, by omega, hr⟩

/-- `peekAt` looks at a token further on, which is taken later. -/
theorem sealed_peekAt {ahead : Nat} {f g : Token → Script α}
    (hsame : ∀ u : Token, Sealed ends i j known e (f (u.shift i)) (g (u.shift j)))
    (htakes : ∀ t s a r, known <+: s.tokens → (f t).Gives s a r →
      ahead + 1 + r.tokens.length ≤ s.tokens.length) :
    Sealed ends i j known e (peekAt ahead f) (peekAt ahead g) := by
  rintro s a r hknown ⟨t, ht, hf⟩ m k s' hm hk hs
  have hlen := htakes t s a r hknown hf.gives
  obtain ⟨u, -, hu, hu'⟩ := hs.tokenAt_of_lt (show ahead < m + k by omega)
  obtain rfl := Except.ok.inj (ht.symm.trans hu)
  obtain ⟨r', hgives, h⟩ := hsame u s a r hknown hf m k s' hm hk hs
  exact ⟨r', gives_peekAt.2 ⟨_, hu', hgives⟩, h⟩

/-- `peek` looks at the next token. It is the same on both streams, or one that may follow stands
next on the second one, and then the first script has to rest as the second does. -/
theorem sealed_peek {f g : Token → Script α}
    (hsame : ∀ u : Token, u.isEnd = false →
      Sealed ends i j [u.shift i] e (f (u.shift i)) (g (u.shift j)))
    (hnext : ∀ t v : Token, ends v.kind = true →
      1 ≤ e ∨ (f t).TakesAt t ∨ Sealed ends i j [] e (f t) (g v)) :
    Sealed ends i j known e (peek.bind f) (peek.bind g) := by
  rintro s a r - ⟨t, ht, hf⟩ m k s' hm hk hs
  rcases hs.tokenAt (Nat.zero_le _) with ⟨u, hend, hu, hu'⟩ | ⟨hzero, v, hv', hv⟩
  · obtain rfl := Except.ok.inj (ht.symm.trans hu)
    have hprefix : [u.shift i] <+: s.tokens := by
      rw [Stream.tokens_of_tokenAt_zero ht hend]
      exact ⟨_, rfl⟩
    obtain ⟨r', hgives, h⟩ := hsame u hend s a r hprefix hf m k s' hm hk hs
    exact ⟨r', gives_bind.2 ⟨_, s', gives_peek.2 ⟨hu', rfl⟩, hgives⟩, h⟩
  · rcases hnext t v hv with hleeway | htakes | hrests
    · omega
    · have := htakes s a r ht hf.gives
      omega
    · obtain ⟨r', hgives, h⟩ := hrests s a r List.nil_prefix hf m k s' hm hk hs
      exact ⟨r', gives_bind.2 ⟨v, s', gives_peek.2 ⟨hv', rfl⟩, hgives⟩, h⟩

/-- `nextIs` tests the next token. If it passes, it is taken. If not, no token that may follow
passes, or some token is taken. -/
theorem sealed_nextIs {kind : Kind} {f : Bool → Script α}
    (htrue : ∀ t, t.kind = kind → Sealed ends i j [t] e (f true) (f true))
    (htakes : 1 ≤ e ∨ ∀ t, t.kind = kind → (f true).TakesAt t)
    (hmiss : ends kind = false ∨ 1 ≤ e ∨ (f false).Forces 1)
    (hfalse : Sealed ends i j [] e (f false) (f false)) :
    Sealed ends i j known e ((nextIs kind).bind f) ((nextIs kind).bind f) := by
  refine sealed_peek (f := fun t => f (t.kind == kind)) (g := fun t => f (t.kind == kind))
    (fun u _ => ?_) (fun t v hv => ?_)
  · show Sealed ends i j _ e (f (u.kind == kind)) (f (u.kind == kind))
    cases hu : u.kind == kind with
    | true => exact htrue _ (beq_iff_eq.1 hu)
    | false => exact hfalse.of_nil
  · cases ht : t.kind == kind with
    | true => exact htakes.imp_right fun h => .inl (h t (beq_iff_eq.1 ht))
    | false =>
      rcases hmiss with hmiss | hmiss | hmiss
      · have hne : v.kind ≠ kind := by
          rintro rfl
          rw [hmiss] at hv
          contradiction
        rw [beq_eq_false_iff_ne.2 hne]
        exact .inr (.inr hfalse)
      · exact .inl hmiss
      · exact .inr (.inl (hmiss.takesAt t))

/-- `acceptKind` takes a token if it is of the kind. If it is not, no token that may follow is of
that kind, or some token is taken. -/
theorem sealed_acceptKind_bind {kind : Kind} (hkind : kind ≠ .endOfInput) {f : Bool → Script α}
    (hmiss : ends kind = false ∨ 1 ≤ e ∨ (f false).Forces 1)
    (htrue : Sealed ends i j [] e (f true) (f true))
    (hfalse : Sealed ends i j [] e (f false) (f false)) :
    Sealed ends i j known e ((acceptKind kind).bind f) ((acceptKind kind).bind f) := by
  intro s a r _ hruns m k s' hm hk hs
  obtain ⟨b, s₁, haccept, hf⟩ := runs_bind.1 hruns
  obtain ⟨t, ht, ⟨rfl, rfl, rfl⟩ | ⟨hne, rfl, rfl⟩⟩ := gives_acceptKind.1 haccept.gives
  · have hend : t.isEnd = false := beq_eq_false_iff_ne.2 hkind
    obtain ⟨u, m, rfl, hu', rfl, hm', hrest, hlen⟩ := hs.take ht hend hm hf.gives.length_le
    obtain ⟨r', hgives, hlen', hr⟩ := htrue s.rest a r List.nil_prefix hf m k s'.rest hm' hk hrest
    have haccept' := gives_acceptKind.2 ⟨_, hu', .inl ⟨rfl, rfl, rfl⟩⟩
    exact ⟨r', gives_bind.2 ⟨true, s'.rest, haccept', hgives⟩, by omega, hr⟩
  · obtain ⟨u, hu', hu⟩ : ∃ u, s'.tokenAt 0 = .ok u ∧ u.kind ≠ kind := by
      rcases hs.tokenAt (Nat.zero_le _) with ⟨u, -, hu, hu'⟩ | ⟨hzero, v, hv', hv⟩
      · obtain rfl := Except.ok.inj (ht.symm.trans hu)
        exact ⟨_, hu', hne⟩
      · refine ⟨v, hv', fun heq => ?_⟩
        rcases hmiss with hmiss | hmiss | hmiss
        · rw [heq, hmiss] at hv
          contradiction
        · omega
        · have := hmiss s a r hf.gives
          omega
    obtain ⟨r', hgives, h⟩ := hfalse s a r List.nil_prefix hf m k s' hm hk hs
    exact ⟨r', gives_bind.2 ⟨false, s', gives_acceptKind.2 ⟨u, hu', .inr ⟨hu, rfl, rfl⟩⟩, hgives⟩, h⟩

/-- `accept` is sealed, if its mark cannot follow, or if a token is taken later in any case. -/
theorem sealed_accept_bind {mark : String} {f : Bool → Script α}
    (hmiss : ends (.mark mark) = false ∨ 1 ≤ e ∨ (f false).Forces 1)
    (htrue : Sealed ends i j [] e (f true) (f true))
    (hfalse : Sealed ends i j [] e (f false) (f false)) :
    Sealed ends i j known e ((accept mark).bind f) ((accept mark).bind f) :=
  sealed_acceptKind_bind (by simp) hmiss htrue hfalse

/-- What is read next does not depend on whether the token was taken. -/
theorem sealed_acceptKind_then {kind : Kind} (hkind : kind ≠ .endOfInput) {x : Script α}
    (hmiss : ends kind = false ∨ 1 ≤ e ∨ x.Forces 1) (hx : Sealed ends i j [] e x x) :
    Sealed ends i j known e ((acceptKind kind).bind fun _ => x)
      ((acceptKind kind).bind fun _ => x) :=
  sealed_acceptKind_bind hkind hmiss hx hx

theorem sealed_accept_then {mark : String} {x : Script α}
    (hmiss : ends (.mark mark) = false ∨ 1 ≤ e ∨ x.Forces 1) (hx : Sealed ends i j [] e x x) :
    Sealed ends i j known e ((accept mark).bind fun _ => x) ((accept mark).bind fun _ => x) :=
  sealed_acceptKind_then (by simp) hmiss hx

/-- What is read depends on whether a mark was taken. -/
theorem sealed_accept_ite {mark : String} {x y : Script α}
    (hmiss : ends (.mark mark) = false ∨ 1 ≤ e ∨ y.Forces 1) (hx : Sealed ends i j [] e x x)
    (hy : Sealed ends i j [] e y y) :
    Sealed ends i j known e ((accept mark).bind fun b => if b then x else y)
      ((accept mark).bind fun b => if b then x else y) :=
  sealed_accept_bind hmiss hx hy

/-- `nextThen` looks at two tokens. If the first is the mark, both are taken, or left to the leeway.
-/
theorem sealed_nextThen {mark : String} {fits : Token → Bool} {f g : Bool → Script α}
    (hfits : ∀ (u : Token) n, fits (u.shift n) = fits u)
    (htrue : ∀ t u, t.kind = .mark mark → fits u = true → Sealed ends i j [t, u] e (f true) (g true))
    (htakes : ∀ b s a r t u, known <+: s.tokens → s.tokenAt 0 = .ok t → s.rest.tokenAt 0 = .ok u →
      t.kind = .mark mark → fits u = b → (f b).Gives s a r →
      2 + r.tokens.length ≤ s.tokens.length + e)
    (hmiss : ends (.mark mark) = false ∨ 1 ≤ e ∨ (f false).Forces 1)
    (hfalse : Sealed ends i j known e (f false) (g false)) :
    Sealed ends i j known e ((nextThen mark fits).bind f) ((nextThen mark fits).bind g) := by
  intro s a r hknown hruns m k s' hm hk hs
  obtain ⟨b, s₁, hnext, hf⟩ := runs_bind.1 hruns
  obtain ⟨rfl, t, ht, ⟨hkind, u, hu, rfl⟩ | ⟨hkind, rfl⟩⟩ := gives_nextThen.1 hnext.gives
  · -- Both tokens are common to the streams.
    have hlen := htakes _ s a r t u hknown ht hu hkind rfl hf.gives
    obtain ⟨t', -, ht₁, ht'⟩ := hs.tokenAt_of_lt (show 0 < m + k by omega)
    obtain ⟨u', hend, hu₁, hu'⟩ := hs.tokenAt_of_lt (show 1 < m + k by omega)
    obtain rfl := Except.ok.inj (ht.symm.trans ht₁)
    rw [Stream.tokenAt_succ] at hu₁ hu'
    obtain rfl := Except.ok.inj (hu.symm.trans hu₁)
    have hgives : (nextThen mark fits).Gives s' (fits (u'.shift i)) s' := by
      refine gives_nextThen.2 ⟨rfl, _, ht', .inl ⟨hkind, _, hu', ?_⟩⟩
      rw [hfits, hfits]
    have hsealed : Reproduces ends i j e (g (fits (u'.shift i))) s a r := by
      cases hb : fits (u'.shift i) with
      | true =>
        rw [hb] at hf
        refine htrue _ _ hkind hb s a r ?_ hf
        rw [Stream.tokens_of_kind ht (by simp [hkind]), Stream.tokens_of_tokenAt_zero hu hend]
        exact ⟨_, rfl⟩
      | false =>
        rw [hb] at hf
        exact hfalse s a r hknown hf
    obtain ⟨r', hgives', h⟩ := hsealed m k s' hm hk hs
    exact ⟨r', gives_bind.2 ⟨_, s', hgives, hgives'⟩, h⟩
  · obtain ⟨t', ht', hkind'⟩ : ∃ t', s'.tokenAt 0 = .ok t' ∧ t'.kind ≠ .mark mark := by
      rcases hs.tokenAt (Nat.zero_le _) with ⟨u, -, hu, hu'⟩ | ⟨hzero, v, hv', hv⟩
      · obtain rfl := Except.ok.inj (ht.symm.trans hu)
        exact ⟨_, hu', hkind⟩
      · refine ⟨v, hv', fun heq => ?_⟩
        rcases hmiss with hmiss | hmiss | hmiss
        · rw [heq, hmiss] at hv
          contradiction
        · omega
        · have := hmiss s a r hf.gives
          omega
    obtain ⟨r', hgives', h⟩ := hfalse s a r hknown hf m k s' hm hk hs
    refine ⟨r', gives_bind.2 ⟨false, s', ?_, hgives'⟩, h⟩
    exact gives_nextThen.2 ⟨rfl, t', ht', .inr ⟨hkind', rfl⟩⟩

/-- `spanned` keeps the same text, as what was read has a first and a last token. -/
theorem sealed_spanned {body : Script Unit} (h : Sealed ends i j [] e body body)
    (hforces : body.Forces 1) : Sealed ends i j known e (spanned body) (spanned body) := by
  intro s text r _ hruns m k s' hm hk hs
  simp only [spanned, bind_eq, runs_bind] at hruns
  obtain ⟨t, s₁, hpeek, _, r₁, hbody, htext⟩ := hruns
  obtain ⟨ht, rfl⟩ := gives_peek.1 hpeek.gives
  obtain ⟨rfl, rfl⟩ := gives_textSince.1 htext.gives
  have hlen := hforces s () r₁ hbody.gives
  obtain ⟨r', hgives, hlen', hr⟩ := h s () r₁ List.nil_prefix hbody m k s' hm hk hs
  obtain ⟨m, rfl⟩ : ∃ m', m = m' + 1 := ⟨m - 1, by omega⟩
  obtain ⟨u, hu, hu', hbytes⟩ := hs.common m (by omega)
  obtain ⟨hdata, hend⟩ := hbody.gives.lastEnd_eq hm hu
  obtain ⟨hdata', hend'⟩ := hgives.lastEnd_eq hlen' hu'
  obtain ⟨t', -, ht₁, ht'⟩ := hs.tokenAt_of_lt (show 0 < m + 1 + k by omega)
  obtain rfl := Except.ok.inj (ht.symm.trans ht₁)
  have hcut : ∀ (n : Nat) (data : List UInt8), (data.take (u.stop + n)).drop (t'.start + n) =
      ((data.drop n).take u.stop).drop t'.start := by
    intro n data
    rw [List.take_drop, List.drop_drop, Nat.add_comm n, Nat.add_comm n]
  refine ⟨r', gives_spanned.2 ⟨_, ht', hgives, ?_⟩, hlen', hr⟩
  rw [Stream.textSince, Stream.textSince, hdata, hend, hdata', hend']
  simp only [Token.shift, hcut, hbytes]

/-! ### Scripts behind a token

Where the last token taken ended is known only behind a token that was taken on both streams. -/

/-- What the script `x` gives on a stream, `y` gives on every stream beside it, if phrases are read
alike and the last token taken was the same. -/
def SealedBehind (ends : Kind → Bool) (i j leeway : Nat) (x y : Script α) : Prop :=
  ∀ s a t, x.Runs (Phrase.Reproduced ends i j) s a t → ∀ m k s',
    s.tokens.length = m + t.tokens.length → leeway ≤ k → s.Alongside ends i j (m + k) s' →
    (∃ n, s.lastEnd = n + i ∧ s'.lastEnd = n + j) →
    ∃ t', y.Gives s' a t' ∧ s'.tokens.length = m + t'.tokens.length ∧ t.Alongside ends i j k t'

/-- What is sealed everywhere is sealed behind a token that was taken. -/
theorem Sealed.behind {x y : Script α} (h : Sealed ends i j [] e x y) :
    SealedBehind ends i j e x y :=
  fun s a t hruns m k s' hm hk hs _ => h s a t List.nil_prefix hruns m k s' hm hk hs

/-- Behind a script that takes a token, the last token taken was the same (`SealedBehind`). -/
theorem sealed_bind_behind {x y : Script α} {f g : α → Script β}
    (hx : Sealed ends i j known e x y)
    (htakes : ∀ s a s₁, known <+: s.tokens → x.Gives s a s₁ → s₁.tokens.length < s.tokens.length)
    (hf : ∀ a, SealedBehind ends i j e (f a) (g a)) :
    Sealed ends i j known e (x.bind f) (y.bind g) := by
  intro s b t hknown h m k s' hm hk hs
  obtain ⟨a, s₁, hx₁, hf₁⟩ := runs_bind.1 h
  obtain ⟨m₁, hm₁⟩ := Nat.exists_eq_add_of_le' hx₁.gives.length_le
  obtain ⟨m₂, hm₂⟩ := Nat.exists_eq_add_of_le' hf₁.gives.length_le
  have htaken := htakes s a s₁ hknown hx₁.gives
  obtain rfl : m = m₁ + m₂ := by omega
  rw [Nat.add_assoc] at hs
  obtain ⟨s₁', hgives, hlen, hs₁⟩ := hx s a s₁ hknown hx₁ m₁ (m₂ + k) s' hm₁ (by omega) hs
  obtain ⟨m₁, rfl⟩ : ∃ m', m₁ = m' + 1 := ⟨m₁ - 1, by omega⟩
  obtain ⟨u, hu, hu', -⟩ := hs.common m₁ (by omega)
  obtain ⟨t', hgives', hlen', ht⟩ := hf a s₁ b t hf₁ m₂ k s₁' hm₂ hk hs₁
    ⟨u.stop, (hx₁.gives.lastEnd_eq hm₁ hu).2, (hgives.lastEnd_eq hlen hu').2⟩
  exact ⟨t', gives_bind.2 ⟨a, s₁', hgives, hgives'⟩, by omega, ht⟩

theorem sealed_skip_behind {t : Token} {f : Unit → Script α}
    (h : SealedBehind ends i j e (f ()) (f ())) :
    Sealed ends i j (t :: known) e (skip.bind f) (skip.bind f) := by
  refine sealed_bind_behind (sealed_take fun _ _ => sealed_done ()) (fun s a s₁ hknown hgives => ?_)
    fun _ => h
  obtain ⟨more, hmore⟩ := hknown
  obtain ⟨-, rfl⟩ := gives_skip.1 hgives
  simp [Stream.rest, ← hmore]

/-- A mark without a gap is taken on both streams. -/
theorem sealedBehind_attached {mark : String} (hmiss : ends (.mark mark) = false)
    {f : Bool → Script α} (htrue : Sealed ends i j [] e (f true) (f true))
    (hfalse : SealedBehind ends i j e (f false) (f false)) :
    SealedBehind ends i j e ((attached mark).bind f) ((attached mark).bind f) := by
  intro s a r hruns m k s' hm hk hs hlast
  obtain ⟨b, s₁, hattached, hf⟩ := runs_bind.1 hruns
  obtain ⟨t, ht, ⟨hkind, hstart, rfl, rfl⟩ | ⟨hne, rfl, rfl⟩⟩ := gives_attached.1 hattached.gives
  · obtain ⟨u, m, rfl, hu', rfl, hm', hrest, hlen⟩ :=
      hs.take ht (by simp [Token.isEnd, hkind]) hm hf.gives.length_le
    obtain ⟨r', hgives, hlen', hr⟩ := htrue s.rest a r List.nil_prefix hf m k s'.rest hm' hk hrest
    refine ⟨r', gives_bind.2 ⟨true, s'.rest, gives_attached.2 ⟨_, hu', .inl ⟨hkind, ?_, rfl, rfl⟩⟩,
      hgives⟩, by omega, hr⟩
    obtain ⟨n, hn, hn'⟩ := hlast
    simp only [Token.shift] at hstart ⊢
    omega
  · obtain ⟨r', hgives, h⟩ := hfalse s a r hf m k s' hm hk hs hlast
    obtain ⟨u, hu', hu⟩ : ∃ u, s'.tokenAt 0 = .ok u ∧
        ¬ (u.kind = .mark mark ∧ u.start = s'.lastEnd) := by
      rcases hs.tokenAt (Nat.zero_le _) with ⟨u, -, hu, hu'⟩ | ⟨hzero, v, hv', hv⟩
      · obtain rfl := Except.ok.inj (ht.symm.trans hu)
        refine ⟨_, hu', ?_⟩
        rintro ⟨hkind, hstart⟩
        refine hne ⟨hkind, ?_⟩
        obtain ⟨n, hn, hn'⟩ := hlast
        simp only [Token.shift] at hstart ⊢
        omega
      · refine ⟨v, hv', ?_⟩
        rintro ⟨hkind, -⟩
        rw [hkind, hmiss] at hv
        contradiction
    exact ⟨r', gives_bind.2 ⟨false, s', gives_attached.2 ⟨u, hu', .inr ⟨hu, rfl, rfl⟩⟩, hgives⟩, h⟩

end Script

end TypeNotes.Signature
