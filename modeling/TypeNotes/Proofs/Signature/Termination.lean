import TypeNotes.Proofs.Signature.Lookahead

/-!
# Reading comes to an end

The budget for nested phrases is never used up. Between two tokens that are taken, calls can only
follow each other downwards in rank (`Phrase.rank`), so the number of tokens and the rank of the
phrase bound the depth of the calls. Hence the readers that the budgets give settle down, and their
common value `Phrase.reading` satisfies the equation of a reader without a budget:
`reading_eq : p.reading s = p.script.run Phrase.reading s`.

**Pace.** `Script.Paced` is the analysis behind this. It follows a script as long as no token has
been taken, with what is known of the next token, and asks that every call on the way has a rank
below a limit. It is stated in the manner of a weakest precondition, so that a script that starts
with another one is followed step by step (`paced_bind`), and every phrase is seen to keep its pace
in one sweep over the grammar (`Phrase.paced_script`).

**Progress.** Reading only ever takes tokens off the front of a stream (`Stream.Takes`), and a
phrase with `Phrase.takesToken` takes at least one whenever it gives an answer.
-/

namespace TypeNotes.Signature

variable {α β : Type}

/-! ### Taking tokens off a stream -/

/-- The second stream is the first one after these tokens have been taken. -/
structure Stream.Takes (s : Stream) (taken : List Token) (s' : Stream) : Prop where
  tokens : s.tokens = taken ++ s'.tokens
  data : s'.data = s.data
  ending : s'.ending = s.ending
  lastEnd : s'.lastEnd = (taken.getLast?.map Token.stop).getD s.lastEnd

namespace Stream

theorem Takes.refl (s : Stream) : s.Takes [] s := ⟨rfl, rfl, rfl, rfl⟩

/-- Tokens taken one after another are taken together (`Takes`). -/
theorem Takes.trans {s₁ s₂ s₃ : Stream} {a b : List Token} (h₁ : s₁.Takes a s₂)
    (h₂ : s₂.Takes b s₃) : s₁.Takes (a ++ b) s₃ where
  tokens := by rw [h₁.tokens, h₂.tokens, List.append_assoc]
  data := h₂.data.trans h₁.data
  ending := h₂.ending.trans h₁.ending
  lastEnd := by
    rw [h₂.lastEnd, h₁.lastEnd, List.getLast?_append]
    cases b.getLast? <;> rfl

/-- What is taken and what is left are all tokens of the stream. -/
theorem Takes.length {s s' : Stream} {taken : List Token} (h : s.Takes taken s') :
    s.tokens.length = taken.length + s'.tokens.length := by
  rw [h.tokens, List.length_append]

/-- Taking the next token takes it, or nothing at the end of the stream. -/
theorem takes_rest (s : Stream) : s.Takes (s.tokens.take 1) s.rest where
  tokens := by cases h : s.tokens <;> simp [rest, h]
  data := rfl
  ending := rfl
  lastEnd := by cases h : s.tokens <;> simp [rest, h]

/-- A token that is not the end of input is the first of the tokens. -/
theorem tokens_of_tokenAt_zero {s : Stream} {t : Token} (h : s.tokenAt 0 = .ok t)
    (ht : t.isEnd = false) : s.tokens = t :: s.rest.tokens := by
  cases htokens : s.tokens with
  | nil =>
    have hend := s.thenEnd.isEnd_ending t (by simpa [tokenAt, htokens] using h)
    rw [ht] at hend
    cases hend
  | cons u tokens =>
    have : u = t := by simpa [tokenAt, htokens] using h
    simp [rest, htokens, this]

/-- Where the end of input stands next, there are no tokens. -/
theorem tokens_of_isEnd {s : Stream} {t : Token} (h : s.tokenAt 0 = .ok t)
    (ht : t.isEnd = true) : s.tokens = [] := by
  cases htokens : s.tokens with
  | nil => rfl
  | cons u tokens =>
    have hu := s.thenEnd.isEnd_of_mem u (by simp [htokens])
    have : u = t := by simpa [tokenAt, htokens] using h
    rw [this, ht] at hu
    cases hu

end Stream

/-! ### Running scripts on streams -/

@[simp]
theorem Script.bind_eq (x : Script α) (f : α → Script β) : x >>= f = x.bind f := rfl

@[simp]
theorem Script.pure_eq (a : α) : (pure a : Script α) = .done a := rfl

/-- Ways to read phrases from streams. -/
abbrev Performer : Type := (p : Phrase) → Reader Stream p.Answer

/-- Reading takes tokens off the front of the stream. -/
def Performer.Forward (f : Performer) : Prop :=
  ∀ (p : Phrase) (s : Stream), ∃ taken, s.Takes taken (f p s).2

/-- A script takes tokens from the front of its stream, if reading phrases does
(`Performer.Forward`). -/
theorem Performer.Forward.run {f : Performer} (hf : f.Forward) (x : Script α) (s : Stream) :
    ∃ taken, s.Takes taken (x.run f s).2 := by
  induction x generalizing s with
  | done a => exact ⟨[], .refl s⟩
  | fail e => exact ⟨[], .refl s⟩
  | peekAt ahead next ih =>
    show ∃ taken, s.Takes taken (Reader.andThen (s.tokenAt ahead, s) _).2
    cases s.tokenAt ahead with
    | ok t => exact ih t s
    | error e => exact ⟨[], .refl s⟩
  | take next ih =>
    show ∃ taken, s.Takes taken (Reader.andThen (s.tokenAt 0, s.rest) _).2
    cases s.tokenAt 0 with
    | ok t =>
      obtain ⟨taken, h⟩ := ih t s.rest
      exact ⟨_, s.takes_rest.trans h⟩
    | error e => exact ⟨_, s.takes_rest⟩
  | askEnd next ih => exact ih _ s
  | cutFrom start next ih => exact ih _ s
  | read p next ih =>
    obtain ⟨taken, h⟩ := hf p s
    rw [Script.run]
    rcases hr : f p s with ⟨outcome, s'⟩
    rw [hr] at h
    cases outcome with
    | ok a =>
      obtain ⟨more, h'⟩ := ih a s'
      exact ⟨_, h.trans h'⟩
    | error e => exact ⟨_, h⟩

/-- `perform` takes tokens off the front of the stream. -/
theorem Performer.forward_perform (budget : Nat) :
    Performer.Forward (Phrase.perform budget) := by
  induction budget with
  | zero => exact fun p s => ⟨[], .refl s⟩
  | succ budget ih => exact fun p s => ih.run p.script s

/-! ### The pace of scripts -/

/-- A bound for the calls that may follow each other, from this phrase on, before a token is
taken. -/
def Phrase.rank : Phrase → Nat
  | parameters _ => 2
  | optional | methodTypes | members | declarations => 1
  | _ => 0

/-- `Phrase.rank` is one of three. -/
theorem Phrase.rank_lt (p : Phrase) : p.rank < 3 := by
  cases p <;> simp [rank]

/-- Whether a phrase takes a token whenever it gives an answer. -/
def Phrase.takesToken : Phrase → Bool
  | optional | path _ | recordFields | parameters _ | methodTypes | usePath | aliasPath
  | constantPath | members => true
  | _ => false

/-- Follows a script as long as no token has been taken, `known` being the next token if it has been
looked at. Every call on the way has a rank below the limit, and if the script ends there, its
answer and what is known then have the property `post`. -/
def Script.Paced (limit : Nat) : Script α → Option Token → (α → Option Token → Prop) → Prop
  | done a, known, post => post a known
  | fail _, _, _ => True
  | peekAt 0 next, known, post =>
    ∀ t, (∀ u ∈ known, t = u) → (next t).Paced limit (some t) post
  | peekAt (_ + 1) next, known, post => ∀ t, (next t).Paced limit known post
  | take next, known, post =>
    ∀ t, (∀ u ∈ known, t = u) → t.isEnd = true → (next t).Paced limit (some t) post
  | askEnd next, known, post => ∀ n, (next n).Paced limit known post
  | cutFrom _ next, known, post => ∀ text, (next text).Paced limit known post
  | read p next, _, post =>
    p.rank < limit ∧ (p.takesToken = true ∨ ∀ a, (next a).Paced limit none post)

namespace Script

variable {limit : Nat} {known : Option Token}

/-- `Paced` follows the first of two scripts, then the second. -/
@[simp]
theorem paced_bind (x : Script α) (f : α → Script β) (post : β → Option Token → Prop) :
    (x.bind f).Paced limit known post ↔
      x.Paced limit known fun a known => (f a).Paced limit known post := by
  induction x generalizing known with
  | done a => rfl
  | fail e => rfl
  | peekAt ahead next ih => cases ahead <;> simp only [Script.bind, Paced, ih]
  | take next ih => simp only [Script.bind, Paced, ih]
  | askEnd next ih => simp only [Script.bind, Paced, ih]
  | cutFrom start next ih => simp only [Script.bind, Paced, ih]
  | read p next ih => simp only [Script.bind, Paced, ih]

@[simp]
theorem paced_done (a : α) (post : α → Option Token → Prop) :
    (done a).Paced limit known post ↔ post a known := Iff.rfl

@[simp]
theorem paced_fail (e : Error) (post : α → Option Token → Prop) :
    (fail e).Paced limit known post ↔ True := Iff.rfl

@[simp]
theorem paced_peek (post : Token → Option Token → Prop) :
    peek.Paced limit known post ↔ ∀ t, (∀ u ∈ known, t = u) → post t (some t) := Iff.rfl

@[simp]
theorem paced_peekSecond (post : Token → Option Token → Prop) :
    peekSecond.Paced limit known post ↔ ∀ t, post t known := Iff.rfl

@[simp]
theorem paced_peekThird (post : Token → Option Token → Prop) :
    peekThird.Paced limit known post ↔ ∀ t, post t known := Iff.rfl

@[simp]
theorem paced_advance (post : Token → Option Token → Prop) :
    advance.Paced limit known post ↔
      ∀ t, (∀ u ∈ known, t = u) → t.isEnd = true → post t (some t) := Iff.rfl

@[simp]
theorem paced_skip (post : Unit → Option Token → Prop) :
    skip.Paced limit known post ↔
      ∀ t, (∀ u ∈ known, t = u) → t.isEnd = true → post () (some t) := Iff.rfl

@[simp]
theorem paced_textSince (start : Nat) (post : String → Option Token → Prop) :
    (textSince start).Paced limit known post ↔ ∀ text, post text known := Iff.rfl

@[simp]
theorem paced_lastEnd (post : Nat → Option Token → Prop) :
    lastEnd.Paced limit known post ↔ ∀ n, post n known := Iff.rfl

/-- A phrase that is called has a rank below the limit; if it may take no token, the script is
followed behind it. -/
@[simp]
theorem paced_read (p : Phrase) (next : p.Answer → Script α) (post : α → Option Token → Prop) :
    (read p next).Paced limit known post ↔
      p.rank < limit ∧ (p.takesToken = true ∨ ∀ a, (next a).Paced limit none post) := Iff.rfl

/-- Both branches of a test are followed. -/
theorem paced_ite {c : Prop} [Decidable c] (x y : Script α) (post : α → Option Token → Prop) :
    (if c then x else y).Paced limit known post ↔
      (c → x.Paced limit known post) ∧ (¬ c → y.Paced limit known post) := by
  split <;> simp_all

/-- A token that `acceptAny` accepts is taken. -/
theorem paced_acceptAny {kinds : List Kind} (hkinds : .endOfInput ∉ kinds)
    (post : Option Token → Option Token → Prop) :
    (acceptAny kinds).Paced limit known post ↔
      ∀ t, (∀ u ∈ known, t = u) → t.kind ∉ kinds → post none (some t) := by
  simp only [acceptAny, bind_eq, pure_eq, paced_bind, paced_peek, paced_ite, paced_advance,
    paced_done, List.contains_eq_mem, decide_eq_true_eq]
  refine forall_congr' fun t => forall_congr' fun _ => ⟨fun h => h.2, fun h => ⟨fun hmem => ?_, h⟩⟩
  rintro u hu hend
  obtain rfl : u = t := hu t rfl
  have hkind : u.kind = .endOfInput := by simpa [Token.isEnd] using hend
  exact absurd (hkind ▸ hmem) hkinds

/-- A token that `acceptKind` asks for ends the analysis if it is there; otherwise it is known to be
another one. -/
@[simp]
theorem paced_acceptKind {kind : Kind} (hkind : kind ≠ .endOfInput)
    (post : Bool → Option Token → Prop) :
    (acceptKind kind).Paced limit known post ↔
      ∀ t, (∀ u ∈ known, t = u) → t.kind ≠ kind → post false (some t) := by
  simp only [acceptKind, bind_eq, pure_eq, paced_bind, paced_done]
  rw [paced_acceptAny (by simpa using hkind.symm)]
  simp only [List.mem_singleton, Option.isSome_none, ne_eq]

@[simp]
theorem paced_accept (mark : String) (post : Bool → Option Token → Prop) :
    (accept mark).Paced limit known post ↔
      ∀ t, (∀ u ∈ known, t = u) → t.kind ≠ .mark mark → post false (some t) :=
  paced_acceptKind (by simp) post

/-- What `expectAny` expects is taken, or the script fails. -/
@[simp]
theorem paced_expectAny {kinds : List Kind} (hkinds : .endOfInput ∉ kinds) (expected : String)
    (post : Token → Option Token → Prop) :
    (expectAny kinds expected).Paced limit known post := by
  simp only [expectAny, bind_eq, pure_eq, paced_bind, paced_acceptAny hkinds, paced_peek,
    paced_fail, implies_true]

/-- A mark that `expect` insists on is taken, which ends the analysis. -/
@[simp]
theorem paced_expect (mark : String) (post : Unit → Option Token → Prop) :
    (expect mark).Paced limit known post := by
  simp only [expect, bind_eq, pure_eq, paced_bind]
  exact paced_expectAny (by simp) _ _

@[simp]
theorem paced_nextIs (kind : Kind) (post : Bool → Option Token → Prop) :
    (nextIs kind).Paced limit known post ↔
      ∀ t, (∀ u ∈ known, t = u) → post (t.kind == kind) (some t) := Iff.rfl

@[simp]
theorem paced_nextIsMark (mark : String) (post : Bool → Option Token → Prop) :
    (nextIsMark mark).Paced limit known post ↔
      ∀ t, (∀ u ∈ known, t = u) → post (t.kind == .mark mark) (some t) := Iff.rfl

/-- `nextThen` tells what the first of two tokens is. -/
@[simp]
theorem paced_nextThen (mark : String) (fits : Token → Bool) (post : Bool → Option Token → Prop) :
    (nextThen mark fits).Paced limit known post ↔ ∀ t, (∀ u ∈ known, t = u) →
      (t.kind = .mark mark → ∀ u, post (fits u) (some t)) ∧
        (t.kind ≠ .mark mark → post false (some t)) := by
  simp only [nextThen, bind_eq, pure_eq, paced_bind, paced_nextIsMark, paced_ite, paced_peekSecond,
    paced_done, beq_iff_eq, ne_eq]

@[simp]
theorem paced_atEnd (post : Bool → Option Token → Prop) :
    atEnd.Paced limit known post ↔
      ∀ t, (∀ u ∈ known, t = u) → post (t.kind == .endOfInput) (some t) := Iff.rfl

end Script

open Script Grammar

/-- `qualified` takes a token in the end, and calls phrases of rank zero only. -/
theorem paced_qualified {limit : Nat} {known : Option Token} (sort : NameSort) (hlimit : 0 < limit)
    (post : Unit → Option Token → Prop) : (qualified sort).Paced limit known post := by
  simp only [qualified, call, bind_eq, paced_bind, paced_accept, paced_read]
  exact fun t _ _ => ⟨hlimit, .inl rfl⟩

/-- A simple type starts with a token of its own, or with the name of a type. -/
theorem paced_simple {known : Option Token} {post : Unit → Option Token → Prop} :
    simple.Paced 1 known post := by
  simp only [simple, bind_eq, paced_bind, paced_peek]
  intro t _
  split <;> simp_all [Token.isEnd, paced_ite, paced_qualified]
  intro h hend
  rw [hend] at h
  simp [Kind.isBaseType, Kind.isLiteral] at h

theorem paced_recordKey {limit : Nat} {known : Option Token} {post : Unit → Option Token → Prop} :
    recordKey.Paced limit known post := by
  simp only [recordKey, bind_eq, paced_bind, paced_peek, paced_ite, paced_skip, paced_fail,
    paced_expect, implies_true, and_true]
  intro t _ hkey u hu hend
  obtain rfl : u = t := hu t rfl
  simp only [Token.isEnd, beq_iff_eq] at hend
  simp [hend, Kind.isKey] at hkey

/-- Before the type of a parameter at most its `parameterHead` is taken. -/
theorem paced_parameterHead {limit : Nat} {known : Option Token} {afterKey : Bool}
    {post : Bool → Option Token → Prop} (h : ∀ t, post false (some t)) :
    (parameterHead afterKey).Paced limit known post := by
  simp only [parameterHead, bind_eq, pure_eq, paced_bind, paced_peek, paced_ite,
    paced_skip, paced_fail, paced_nextThen, paced_done, Token.isEnd]
  simp_all
  intro t _ _ hkey hend
  simp [hend, Kind.isKey] at hkey

theorem paced_methodType {limit : Nat} {known : Option Token}
    {post : String → Option Token → Prop} : methodType.Paced limit known post := by
  simp only [methodType, methodTypeBody, spanned, bind_eq, paced_bind, paced_peek]
  simp [paced_ite, typeParameters?, typeParameters, parametersAndSelf, parameters?, parameters,
    selfBinding, block, blockMark, result]
  exact fun t _ hne _ heq => absurd heq hne

/-- A member starts with a token of its own, or with the name of a constant. -/
theorem paced_member {known : Option Token} {post : Unit → Option Token → Prop} :
    member.Paced 1 known post := by
  simp only [member, bind_eq, paced_bind, paced_peek]
  intro t _
  split <;> simp_all [Token.isEnd, paced_ite, methodMember, attributeMember, aliasDeclaration,
    classDeclaration, call, Phrase.rank, Phrase.takesToken]

/-- Every phrase keeps its pace: before it takes a token it calls only phrases of lower rank, and
it gives no answer without a token if it is one of those that take one. -/
theorem Phrase.paced_script (p : Phrase) :
    p.script.Paced p.rank none fun _ _ => p.takesToken = false := by
  cases p with
  | optional =>
    simp only [Phrase.script, bind_eq, paced_bind]
    exact paced_simple
  | parameters afterKey =>
    simp only [Phrase.script, bind_eq, paced_bind]
    refine paced_parameterHead fun t => ?_
    simp [typeBody, intersection, call, rank, takesToken]
  | recordFields => simp [Phrase.script, paced_recordKey]
  | methodTypes =>
    simp [Phrase.script, call, rank, takesToken, paced_methodType]
  | members =>
    simp only [Phrase.script, call, bind_eq, paced_bind, paced_read]
    refine ⟨by simp [rank], .inr fun _ => ?_⟩
    simp only [paced_done, paced_peek]
    intro t _
    split <;> simp_all [Token.isEnd]
    exact paced_member
  | declarations =>
    simp only [Phrase.script, call, bind_eq, paced_bind, paced_read]
    refine ⟨by simp [rank], .inr fun _ => ?_⟩
    simp only [paced_done, paced_atEnd]
    intro t _
    split
    · rfl
    · rw [paced_bind]
      exact paced_member
  | tags =>
    simp only [Phrase.script, bind_eq, pure_eq, paced_bind, paced_nextIs, paced_ite, paced_advance,
      paced_done]
    refine fun t _ => ⟨fun htag u hu hend => ?_, fun _ => rfl⟩
    obtain rfl : u = t := hu t rfl
    simp_all [Token.isEnd]
  | path sort => cases sort <;> simp [Phrase.script, NameSort.kinds, nameKinds]
  | usePath => simp [Phrase.script, nameKinds]
  | aliasPath => simp [Phrase.script]
  | constantPath =>
    simp only [Phrase.script, bind_eq, paced_bind, paced_nextIs, paced_ite, paced_skip]
    refine fun t _ => ⟨fun hkey u hu hend => ?_, fun _ => paced_expectAny (by simp) _ _⟩
    obtain rfl : u = t := hu t rfl
    simp_all [Token.isEnd]
  | intersectionTail | unionTail | argumentTail | typeTail | typeParameterTail | selfTypeTail
  | useTail => simp [Phrase.script, takesToken]

/-! ### Budgets -/

/-- What is known of the next token holds in this stream. -/
def Stream.Knows (s : Stream) (known : Option Token) : Prop := ∀ u ∈ known, s.tokenAt 0 = .ok u

/-- Reading takes tokens off the front of the stream, and at least one where it must. -/
structure Performer.Steady (f : Performer) : Prop where
  forward : f.Forward
  takes : ∀ (p : Phrase) (s : Stream) {a : p.Answer} {s' : Stream}, p.takesToken = true →
    f p s = (.ok a, s') → s'.tokens.length < s.tokens.length

/-- A script leaves no more tokens than there were. -/
theorem Performer.Forward.length_run_le {f : Performer} (hf : f.Forward) (x : Script α)
    (s : Stream) : (x.run f s).2.tokens.length ≤ s.tokens.length := by
  obtain ⟨taken, h⟩ := hf.run x s
  rw [h.length]
  exact Nat.le_add_left _ _

/-- Taking a token leaves fewer tokens. -/
theorem Stream.length_rest_lt {s : Stream} {t : Token} (h : s.tokenAt 0 = .ok t)
    (ht : t.isEnd = false) : s.rest.tokens.length < s.tokens.length := by
  rw [tokens_of_tokenAt_zero h ht]
  exact Nat.lt_succ_self _

/-- Runs that read phrases alike from streams of so many tokens are alike there. -/
theorem Script.run_congr {f g : Performer} (hf : f.Forward) (x : Script α) {count : Nat}
    (h : ∀ (p : Phrase) (s : Stream), s.tokens.length ≤ count → f p s = g p s) {s : Stream}
    (hs : s.tokens.length ≤ count) : x.run f s = x.run g s := by
  induction x generalizing s with
  | done a => rfl
  | fail e => rfl
  | peekAt ahead next ih =>
    show Reader.andThen (s.tokenAt ahead, s) _ = Reader.andThen (s.tokenAt ahead, s) _
    cases s.tokenAt ahead with
    | ok t => exact ih t hs
    | error e => rfl
  | take next ih =>
    show Reader.andThen (s.tokenAt 0, s.rest) _ = Reader.andThen (s.tokenAt 0, s.rest) _
    cases s.tokenAt 0 with
    | ok t => exact ih t (Nat.le_trans (by simp [Stream.rest]) hs)
    | error e => rfl
  | askEnd next ih => exact ih _ hs
  | cutFrom start next ih => exact ih _ hs
  | read p next ih =>
    obtain ⟨taken, htaken⟩ := hf p s
    rw [Script.run, Script.run, ← h p s hs]
    rcases hr : f p s with ⟨outcome, s'⟩
    rw [hr] at htaken
    have hlen := htaken.length
    cases outcome with
    | ok a => exact ih a (by simp only at hlen; omega)
    | error e => rfl

/-- What is known of the next token is this token. -/
theorem Stream.Knows.eq {s : Stream} {known : Option Token} (h : s.Knows known) {t : Token}
    (ht : s.tokenAt 0 = .ok t) : ∀ u ∈ known, t = u := by
  intro u hu
  have := ht.symm.trans (h u hu)
  cases this
  rfl

/-- A token that was looked at is known. -/
theorem Stream.knows_some {s : Stream} {t : Token} (ht : s.tokenAt 0 = .ok t) :
    s.Knows (some t) := by
  intro u hu
  obtain rfl : t = u := by simpa using hu
  exact ht

/-- A paced script runs alike with readers that agree after a token has been taken, and before on
the phrases of lower rank. If it has taken no token when it ends, its answer is one it may have
then. -/
theorem Script.Paced.run_spec {f g : Performer} (hf : f.Steady) {x : Script α} {limit : Nat}
    {known : Option Token} {post : α → Option Token → Prop} (hx : x.Paced limit known post)
    {s : Stream} (hknown : s.Knows known)
    (hbelow : ∀ (p : Phrase) (s' : Stream), s'.tokens.length < s.tokens.length → f p s' = g p s')
    (hcalls : ∀ (p : Phrase) (s' : Stream), s'.tokens.length = s.tokens.length →
      p.rank < limit → f p s' = g p s') :
    x.run f s = x.run g s ∧ ∀ a s', x.run f s = (.ok a, s') →
      s.tokens.length ≤ s'.tokens.length → ∃ known, post a known := by
  -- Once fewer tokens are left, neither the pace nor the answer matters any more.
  have hfree : ∀ {y : Script α} {s₁ : Stream}, s₁.tokens.length < s.tokens.length →
      y.run f s₁ = y.run g s₁ ∧ ∀ a s', y.run f s₁ = (.ok a, s') →
        s.tokens.length ≤ s'.tokens.length → ∃ known, post a known := by
    intro y s₁ hs₁
    refine ⟨Script.run_congr hf.forward y (fun p s₂ hs₂ => hbelow p s₂ (by omega))
      (Nat.le_refl _), fun a s' h hlen => ?_⟩
    have hle := hf.forward.length_run_le y s₁
    rw [h] at hle
    simp only at hle
    omega
  induction x generalizing s known with
  | done a => exact ⟨rfl, fun b s' h _ => by cases h; exact ⟨known, hx⟩⟩
  | fail e => exact ⟨rfl, fun b s' h => by cases h⟩
  | peekAt ahead next ih =>
    simp only [Script.run, Supply.peek, Stream.peek]
    cases htoken : s.tokenAt ahead with
    | error e => exact ⟨rfl, fun b s' h => by cases h⟩
    | ok t =>
      cases ahead with
      | succ ahead => exact ih t (hx t) hknown hbelow hcalls hfree
      | zero =>
        exact ih t (hx t (hknown.eq htoken)) (Stream.knows_some htoken) hbelow hcalls hfree
  | take next ih =>
    simp only [Script.run, Supply.advance, Stream.advance]
    cases htoken : s.tokenAt 0 with
    | error e => exact ⟨rfl, fun b s' h => by cases h⟩
    | ok t =>
      -- The end of input can be taken over and over; any other token is gone.
      cases hend : t.isEnd with
      | false => exact hfree (Stream.length_rest_lt htoken hend)
      | true =>
        rw [Stream.rest_of_nil (Stream.tokens_of_isEnd htoken hend)]
        exact ih t (hx t (hknown.eq htoken) hend) (Stream.knows_some htoken) hbelow hcalls hfree
  | askEnd next ih => exact ih _ (hx _) hknown hbelow hcalls hfree
  | cutFrom start next ih => exact ih _ (hx _) hknown hbelow hcalls hfree
  | read p next ih =>
    obtain ⟨hrank, htakes⟩ := hx
    obtain ⟨taken, htaken⟩ := hf.forward p s
    simp only [Script.run, ← hcalls p s rfl hrank]
    rcases hr : f p s with ⟨outcome, s₁⟩
    rw [hr] at htaken
    have hlen := htaken.length
    simp only at hlen
    cases outcome with
    | error e => exact ⟨rfl, fun b s' h => by cases h⟩
    | ok a =>
      rcases Nat.lt_or_ge s₁.tokens.length s.tokens.length with hlt | hge
      · exact hfree hlt
      · -- The phrase took no token, so it is none of those that have to.
        have heq : s.tokens.length = s₁.tokens.length := by omega
        rcases htakes with htakes | hnext
        · exact absurd (hf.takes p s htakes hr) (by omega)
        · rw [heq] at hbelow hcalls hfree ⊢
          exact ih a (hnext a) (fun u hu => by cases hu) hbelow hcalls hfree

namespace Phrase

/-- Whatever the budget, `perform` is steady. -/
theorem steady_perform (budget : Nat) : Performer.Steady (perform budget) := by
  induction budget with
  | zero => exact ⟨Performer.forward_perform 0, fun p s a s' _ h => by cases h⟩
  | succ budget ih =>
    refine ⟨Performer.forward_perform _, fun p s a s' htakes h => ?_⟩
    -- If no token were taken, the phrase would have answered without one.
    refine Nat.lt_of_not_le fun hlen => ?_
    obtain ⟨known, hpost⟩ := (p.paced_script.run_spec ih (fun u hu => by cases hu)
      (fun _ _ _ => rfl) fun _ _ _ _ => rfl).2 a s' h hlen
    rw [htakes] at hpost
    cases hpost

/-- Budgets that exceed what the tokens and the rank ask for do not differ. -/
theorem perform_congr {need : Nat} (p : Phrase) (s : Stream)
    (hneed : 3 * s.tokens.length + p.rank < need) {b₁ b₂ : Nat} (h₁ : need ≤ b₁) (h₂ : need ≤ b₂) :
    p.perform b₁ s = p.perform b₂ s := by
  induction need generalizing p s b₁ b₂ with
  | zero => omega
  | succ need ih =>
    obtain ⟨b₁, rfl⟩ : ∃ b, b₁ = b + 1 := ⟨b₁ - 1, by omega⟩
    obtain ⟨b₂, rfl⟩ : ∃ b, b₂ = b + 1 := ⟨b₂ - 1, by omega⟩
    -- A token is worth three calls, and without one taken the rank goes down.
    refine (p.paced_script.run_spec (steady_perform b₁) (fun u hu => by cases hu) ?_ ?_).1
    · intro q s' hs'
      have := q.rank_lt
      exact ih q s' (by omega) (by omega) (by omega)
    · intro q s' hs' hrank
      exact ih q s' (by omega) (by omega) (by omega)

/-- Reads a phrase to its end. -/
def reading (p : Phrase) : Reader Stream p.Answer :=
  fun s => p.perform (3 * (s.tokens.length + 1)) s

/-- With every budget that is large enough for the tokens, `perform` is `reading`. -/
theorem perform_eq_reading {p : Phrase} {s : Stream} {b : Nat}
    (h : 3 * s.tokens.length + p.rank < b) : p.perform b s = p.reading s := by
  have := p.rank_lt
  exact perform_congr p s (Nat.lt_succ_self _) h (by omega)

/-- `reading` follows the scripts of phrases; there is no budget in this equation. -/
theorem reading_eq (p : Phrase) (s : Stream) : p.reading s = p.script.run reading s := by
  have hrank := p.rank_lt
  refine (p.paced_script.run_spec (steady_perform (3 * s.tokens.length + 2))
    (fun u hu => by cases hu) ?_ ?_).1
  · intro q s' hs'
    have := q.rank_lt
    exact perform_eq_reading (by omega)
  · intro q s' hs' hq
    exact perform_eq_reading (by omega)

/-- `reading` is steady. -/
theorem steady_reading : Performer.Steady reading :=
  ⟨fun p s => (steady_perform _).forward p s, fun p s _ _ => (steady_perform _).takes p s⟩

/-- What holds of the outcome of every script, read with any performer of which it holds, holds of
reading. -/
theorem reading_invariant (P : (p : Phrase) → Stream → Except Error p.Answer × Stream → Prop)
    (hP : ∀ p s, ∃ outcome, P p s outcome)
    (hstep : ∀ f : Performer, (∀ p s, P p s (f p s)) → ∀ p s, P p s (p.script.run f s))
    (p : Phrase) (s : Stream) : P p s (p.reading s) := by
  classical
  induction hm : 3 * s.tokens.length + p.rank using Nat.strongRecOn generalizing p s with
  | ind m ih =>
    -- A performer of which the property holds everywhere, and which reads as far as that is known.
    let f : Performer := fun q s' => if P q s' (q.reading s') then q.reading s' else (hP q s').choose
    have hf : ∀ q s', P q s' (f q s') := by
      intro q s'
      simp only [f]
      split
      · assumption
      · exact (hP q s').choose_spec
    have hagree : ∀ (q : Phrase) (s' : Stream), 3 * s'.tokens.length + q.rank < m →
        q.reading s' = f q s' := fun q s' hlt => (if_pos (ih _ hlt q s' rfl)).symm
    rw [p.reading_eq, (p.paced_script.run_spec steady_reading (fun u hu => by cases hu) ?_ ?_).1]
    · exact hstep f hf p s
    · intro q s' hs'
      have := q.rank_lt
      exact hagree q s' (by omega)
    · intro q s' hs' hrank
      exact hagree q s' (by omega)

end Phrase

/-- Runs a script on a stream, reading the phrases that it calls to their ends. -/
def Script.reading (x : Script α) : Reader Stream α := x.run Phrase.reading

/-- A script reads the same with every budget that is large enough. -/
theorem Script.run_perform_eq_reading (x : Script α) {s : Stream} {b : Nat}
    (h : 3 * (s.tokens.length + 1) ≤ b) : x.run (Phrase.perform b) s = x.reading s := by
  refine x.run_congr (Phrase.steady_perform b).forward (fun p s' hs' => ?_) (Nat.le_refl _)
  have := p.rank_lt
  exact Phrase.perform_eq_reading (by omega)

/-- `tokensFrom` gives no more tokens than there are bytes. -/
theorem length_tokensFrom_le (offset : Nat) (s : List UInt8) :
    (tokensFrom offset s).1.length ≤ s.length := by
  fun_induction tokensFrom offset s with
  | case1 => exact Nat.zero_le _
  | case2 => exact Nat.zero_le _
  | case3 offset s t rest hread hend tokens ending heq ih =>
    have := Token.length_rest_lt_of_read hread (by simpa using hend)
    rw [heq] at ih
    simp only [List.length_cons] at ih ⊢
    omega

/-- What a script does on a signature, told from its tokens and without a budget. -/
theorem Cursor.reading_ofBytes (script : Script α) (data : List UInt8) :
    script.reading (Stream.ofBytes data) =
      (((ofBytes data).run script).1, ((ofBytes data).run script).2.toStream) := by
  have hlen : (Stream.ofBytes data).tokens.length ≤ data.length := length_tokensFrom_le 0 data
  rw [← (run_ofBytes script data).1]
  refine (script.run_perform_eq_reading ?_).symm
  simp only [budget]
  omega

end TypeNotes.Signature
