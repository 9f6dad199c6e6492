import TypeNotes.Signature.Stream

/-!
# Reading ahead changes nothing

A cursor reads tokens when they are asked for and buffers those it has looked at; a stream holds
all tokens from the start. `Cursor.toStream` is the stream that a cursor stands for: the buffered
tokens, then those still in the bytes. Every request to a cursor is answered as by its stream, and
leaves the cursor that stands for the stream afterwards, whether the answer is a token or an error.

**Simulation.** `Simulation` says this of any two supplies of tokens. A simulation carries over from
requests to scripts (`Simulation.run`), and from scripts to the phrases read within a budget
(`Simulation.perform`), by one induction each.

**Cursors.** `Cursor.simulation` is the simulation of cursors by streams, on cursors that hold the
end of input nowhere but at the end of their buffer (`Cursor.EndLast`). A fresh cursor is one of
them (`Cursor.toStream_ofBytes`).
-/

namespace TypeNotes.Signature

/-! ### Simulations of supplies -/

section Simulation

variable {σ τ α β : Type}

/-- Two readers agree through a view, on all supplies with a property, and keep the property. -/
def Agree (view : σ → τ) (Valid : σ → Prop) (r₁ : Reader σ α) (r₂ : Reader τ α) : Prop :=
  ∀ s, Valid s → r₂ (view s) = ((r₁ s).1, view (r₁ s).2) ∧ Valid (r₁ s).2

/-- Requests to a supply with the property are answered as by its view. -/
structure Simulation [Supply σ] [Supply τ] (view : σ → τ) (Valid : σ → Prop) : Prop where
  peek : ∀ ahead, Agree view Valid (Supply.peek ahead) (Supply.peek ahead)
  advance : Agree view Valid Supply.advance Supply.advance
  lastEnd : ∀ s, Supply.lastEnd (view s) = Supply.lastEnd s
  textSince : ∀ start s, Supply.textSince start (view s) = Supply.textSince start s

variable {view : σ → τ} {Valid : σ → Prop}

/-- Readers that agree (`Agree`) may be followed by readers that agree. -/
theorem Agree.andThen {r₁ : Reader σ α} {r₂ : Reader τ α} {next₁ : α → Reader σ β}
    {next₂ : α → Reader τ β} (h : Agree view Valid r₁ r₂)
    (hnext : ∀ a, Agree view Valid (next₁ a) (next₂ a)) :
    Agree view Valid (fun s => Reader.andThen (r₁ s) next₁)
      (fun s => Reader.andThen (r₂ s) next₂) := by
  intro s hs
  obtain ⟨heq, hvalid⟩ := h s hs
  rcases hr : r₁ s with ⟨outcome, s'⟩
  rw [hr] at heq hvalid
  simp only [heq, hr]
  cases outcome with
  | ok a => exact hnext a s' hvalid
  | error e => exact ⟨rfl, hvalid⟩

variable [Supply σ] [Supply τ]

/-- A script runs alike on a supply and on its view (`Simulation`) if the phrases it calls do. -/
theorem Simulation.run (h : Simulation view Valid)
    {perform₁ : (p : Phrase) → Reader σ p.Answer} {perform₂ : (p : Phrase) → Reader τ p.Answer}
    (hperform : ∀ p, Agree view Valid (perform₁ p) (perform₂ p)) (script : Script α) :
    Agree view Valid (script.run perform₁) (script.run perform₂) := by
  induction script with
  | done a => exact fun s hs => ⟨rfl, hs⟩
  | fail e => exact fun s hs => ⟨rfl, hs⟩
  | peekAt ahead next ih => exact (h.peek ahead).andThen ih
  | take next ih => exact h.advance.andThen ih
  | askEnd next ih =>
    intro s hs
    simp only [Script.run, h.lastEnd]
    exact ih _ s hs
  | cutFrom start next ih =>
    intro s hs
    simp only [Script.run, h.textSince]
    exact ih _ s hs
  | read p next ih => exact (hperform p).andThen ih

/-- `perform` reads phrases alike from a supply and from its view, whatever the budget. -/
theorem Simulation.perform (h : Simulation view Valid) (budget : Nat) (p : Phrase) :
    Agree view Valid (p.perform budget) (p.perform budget) := by
  induction budget generalizing p with
  | zero =>
    intro s hs
    simp only [Phrase.perform, h.lastEnd]
    exact ⟨trivial, hs⟩
  | succ budget ih => exact h.run ih p.script

end Simulation

/-! ### The tokens a cursor stands for -/

/-- Tokens looked at, and then those that come later; nothing comes after the end of input. -/
def ahead : List Token → List Token × Except Error Token → List Token × Except Error Token
  | [], later => later
  | t :: buffer, later =>
    if t.isEnd then ([], .ok t) else (t :: (ahead buffer later).1, (ahead buffer later).2)

theorem ahead_append (a b : List Token) (later : List Token × Except Error Token) :
    ahead (a ++ b) later = ahead a (ahead b later) := by
  induction a with
  | nil => rfl
  | cons t a ih => simp only [List.cons_append, ahead, ih]

theorem tokensThenEnd_ahead {buffer : List Token} {later : List Token × Except Error Token}
    (h : TokensThenEnd later.1 later.2) :
    TokensThenEnd (ahead buffer later).1 (ahead buffer later).2 := by
  induction buffer with
  | nil => exact h
  | cons t buffer ih =>
    rw [ahead]
    split
    · rename_i hend
      exact ⟨by simp, fun u hu => by cases hu; exact hend⟩
    · rename_i hend
      refine ⟨fun u hu => ?_, ih.isEnd_ending⟩
      rcases List.mem_cons.1 hu with rfl | hu
      · simpa using hend
      · exact ih.isEnd_of_mem u hu

/-- `tokensFrom` reads one token by looking at it before the rest. -/
theorem tokensFrom_eq_ahead {offset : Nat} {s rest : List UInt8} {t : Token}
    (h : Token.read offset s = .ok (t, rest)) :
    tokensFrom offset s = ahead [t] (tokensFrom t.stop rest) := by
  rw [tokensFrom]
  split
  · rename_i heq
    rw [h] at heq
    cases heq
  · rename_i t' rest' heq
    rw [h] at heq
    cases heq
    simp only [ahead]
    split <;> rfl

theorem tokensFrom_of_error {offset : Nat} {s : List UInt8} {e : Error}
    (h : Token.read offset s = .error e) : tokensFrom offset s = ([], .error e) := by
  rw [tokensFrom]
  split
  · rename_i heq
    rw [h] at heq
    cases heq
    rfl
  · rename_i heq
    rw [h] at heq
    cases heq

/-- The token at a place among tokens, or what ends them. -/
def tokenAt (tokens : List Token × Except Error Token) (place : Nat) : Except Error Token :=
  match tokens.1[place]? with
  | some t => .ok t
  | none => tokens.2

/-- Tokens that hold the end of input nowhere but at their end. -/
def EndLast (buffer : List Token) : Prop := ∀ t ∈ buffer.dropLast, t.isEnd = false

theorem EndLast.tail {t : Token} {buffer : List Token} (h : EndLast (t :: buffer)) :
    EndLast buffer := by
  cases buffer with
  | nil => simp [EndLast]
  | cons u buffer => exact fun v hv => h v (by simp [List.dropLast, hv])

/-- A token that has been looked at stands where it was seen. -/
theorem tokenAt_ahead_of_lt {buffer : List Token} {later : List Token × Except Error Token}
    {place : Nat} (hlast : EndLast buffer) (h : place < buffer.length) :
    tokenAt (ahead buffer later) place = .ok buffer[place] := by
  induction buffer generalizing place with
  | nil => simp at h
  | cons t buffer ih =>
    cases hend : t.isEnd with
    | true =>
      -- The end of input is the last token of the buffer.
      have hnil : buffer = [] := by
        cases buffer with
        | nil => rfl
        | cons u buffer =>
          have := hlast t (by simp [List.dropLast])
          rw [hend] at this
          cases this
      subst hnil
      have hplace : place = 0 := by simpa using h
      subst hplace
      simp [ahead, hend, tokenAt]
    | false =>
      cases place with
      | zero => simp [ahead, hend, tokenAt]
      | succ place =>
        have := ih hlast.tail (by simpa using h)
        simpa [ahead, hend, tokenAt] using this

/-- Past the end of input stands the end of input. -/
theorem tokenAt_ahead_of_isEnd {buffer : List Token} {later : List Token × Except Error Token}
    {place : Nat} {t : Token} (hlast : EndLast buffer) (ht : buffer.getLast? = some t)
    (hend : t.isEnd = true) (h : buffer.length ≤ place) :
    tokenAt (ahead buffer later) place = .ok t := by
  induction buffer generalizing place with
  | nil => simp at ht
  | cons u buffer ih =>
    cases buffer with
    | nil =>
      obtain rfl : u = t := by simpa using ht
      simp [ahead, hend, tokenAt]
    | cons v buffer =>
      have hu : u.isEnd = false := hlast u (by simp [List.dropLast])
      obtain ⟨place, rfl⟩ : ∃ n, place = n + 1 := ⟨place - 1, by simp at h; omega⟩
      have := ih hlast.tail (by simpa using ht) (by simpa using h)
      simpa [ahead, hu, tokenAt] using this

/-- Past tokens none of which is the end of input stand the later ones. -/
theorem tokenAt_ahead_add {buffer : List Token} {later : List Token × Except Error Token}
    (hbuffer : ∀ t ∈ buffer, t.isEnd = false) (place : Nat) :
    tokenAt (ahead buffer later) (buffer.length + place) = tokenAt later place := by
  induction buffer with
  | nil => simp [ahead]
  | cons t buffer ih =>
    have ht : t.isEnd = false := hbuffer t List.mem_cons_self
    have := ih fun u hu => hbuffer u (List.mem_cons_of_mem _ hu)
    have hlen : (t :: buffer).length + place = buffer.length + place + 1 := by
      simp only [List.length_cons]; omega
    rw [hlen]
    simpa [ahead, ht, tokenAt] using this

namespace Cursor

/-- The stream that a cursor stands for. -/
def toStream (c : Cursor) : Stream :=
  let tokens := ahead c.buffer (tokensFrom c.offset c.rest)
  ⟨c.data, tokens.1, tokens.2, c.lastEnd,
    tokensThenEnd_ahead (tokensThenEnd_tokensFrom c.offset c.rest)⟩

@[simp]
theorem toStream_ofBytes (data : List UInt8) : (ofBytes data).toStream = Stream.ofBytes data := rfl

theorem peek_toStream (c : Cursor) (place : Nat) :
    Stream.peek place c.toStream =
      (tokenAt (ahead c.buffer (tokensFrom c.offset c.rest)) place, c.toStream) := rfl

/-! ### Filling the buffer -/

/-- What holds after the buffer has been filled: the cursor stands for the same stream, and if no
error stopped the filling, there are enough tokens or the end of input is among them. -/
structure Filled (count : Nat) (c : Cursor) (outcome : Except Error Unit × Cursor) : Prop where
  endLast : EndLast outcome.2.buffer
  grows : c.buffer.length ≤ outcome.2.buffer.length
  toStream : outcome.2.toStream = c.toStream
  enough : outcome.1 = .ok () →
    c.buffer.length + count ≤ outcome.2.buffer.length ∨ outcome.2.sawEnd = true
  stopped : ∀ e, outcome.1 = .error e → outcome.2.sawEnd = false ∧
    outcome.2.buffer.length < c.buffer.length + count ∧
    Token.read outcome.2.offset outcome.2.rest = .error e

theorem forall_isEnd_of_not_sawEnd {c : Cursor} (hlast : EndLast c.buffer)
    (h : c.sawEnd = false) : ∀ t ∈ c.buffer, t.isEnd = false := by
  intro t ht
  rcases List.eq_nil_or_concat c.buffer with hnil | ⟨init, last, hconcat⟩
  · simp [hnil] at ht
  · rw [List.concat_eq_append] at hconcat
    rw [hconcat] at ht
    rcases List.mem_append.1 ht with ht | ht
    · exact hlast t (by simpa [hconcat] using ht)
    · obtain rfl : t = last := by simpa using ht
      simpa [sawEnd, hconcat] using h

theorem filled_fill (count : Nat) (c : Cursor) (hlast : EndLast c.buffer) :
    Filled count c (fill count c) := by
  induction count generalizing c with
  | zero => exact ⟨hlast, Nat.le_refl _, rfl, fun _ => .inl (Nat.le_refl _), fun e he => by cases he⟩
  | succ count ih =>
    rw [fill]
    split
    · rename_i hsaw
      exact ⟨hlast, Nat.le_refl _, rfl, fun _ => .inr hsaw, fun e he => by cases he⟩
    · rename_i hsaw
      have hsaw : c.sawEnd = false := by simpa using hsaw
      split
      · rename_i e hread
        -- The gap in front of the error is passed, and the error shows again behind it.
        have hskip : Token.read c.skipGap.offset c.skipGap.rest = .error e :=
          (Token.read_splitGap c.offset c.rest).trans hread
        have hstream : c.skipGap.toStream = c.toStream := by
          simp only [Cursor.toStream, tokensFrom_of_error hskip, tokensFrom_of_error hread]
          rfl
        refine ⟨hlast, Nat.le_refl _, hstream, fun h => by simp at h, fun e' he' =>
          ⟨hsaw, by simp [skipGap], ?_⟩⟩
        cases he'
        exact hskip
      · -- One token moves from the bytes to the buffer, and the stream stays the same.
        rename_i t rest hread
        have hbuffer := forall_isEnd_of_not_sawEnd hlast hsaw
        have hnext := ih { c with buffer := c.buffer ++ [t], offset := t.stop, rest := rest }
          (fun u hu => hbuffer u (by simpa using hu))
        refine ⟨hnext.endLast, ?_, ?_, fun hok => ?_, fun e he => ?_⟩
        · have hlen := hnext.grows
          simp only [List.length_append, List.length_singleton] at hlen
          omega
        · rw [hnext.toStream]
          simp only [Cursor.toStream, ahead_append, tokensFrom_eq_ahead hread]
        · refine (hnext.enough hok).imp_left fun h => ?_
          simp only [List.length_append, List.length_singleton] at h
          omega
        · obtain ⟨hend, hlen, herror⟩ := hnext.stopped e he
          refine ⟨hend, ?_, herror⟩
          simp only [List.length_append, List.length_singleton] at hlen
          omega

/-! ### Requests -/

/-- `Cursor.peek`: the answer of the stream, and a cursor that stands for the same stream. -/
theorem agree_peek (place : Nat) :
    Agree toStream (fun c => EndLast c.buffer) (Cursor.peek place) (Stream.peek place) := by
  intro c hlast
  have hfilled := filled_fill (place + 1 - c.buffer.length) c hlast
  unfold Cursor.peek
  rcases hfill : fill (place + 1 - c.buffer.length) c with ⟨outcome, c'⟩
  rw [hfill] at hfilled
  have hlast' : EndLast c'.buffer := hfilled.endLast
  have hstream : c'.toStream = c.toStream := hfilled.toStream
  cases outcome with
  | error e =>
    -- The place asked for lies behind all tokens that could be read.
    obtain ⟨hsaw, hlen, hread⟩ := hfilled.stopped e rfl
    refine ⟨?_, hlast'⟩
    rw [← hstream, peek_toStream, tokensFrom_of_error hread]
    have hgrows := hfilled.grows
    simp only at hlen hsaw hgrows
    obtain ⟨extra, hextra⟩ : ∃ k, place = c'.buffer.length + k :=
      ⟨place - c'.buffer.length, by omega⟩
    rw [hextra, tokenAt_ahead_add (forall_isEnd_of_not_sawEnd hlast' hsaw)]
    rfl
  | ok u =>
    refine ⟨?_, hlast'⟩
    rw [← hstream, peek_toStream]
    simp only [Prod.mk.injEq, and_true]
    by_cases hplace : place < c'.buffer.length
    · rw [tokenAt_ahead_of_lt hlast' hplace, List.getElem?_eq_getElem hplace]
      rfl
    · -- Too few tokens were read, so the end of input is among them and is the answer.
      have hsaw : c'.sawEnd = true := by
        rcases hfilled.enough rfl with h | h
        · simp only at h
          omega
        · exact h
      obtain ⟨t, ht, hend⟩ := (Option.any_eq_true _ _).1 hsaw
      rw [tokenAt_ahead_of_isEnd hlast' ht hend (by omega), ht,
        List.getElem?_eq_none (by omega)]
      rfl

/-- A token that was looked at is the first one in the buffer. -/
theorem buffer_peek_zero {c c' : Cursor} {t : Token} (hlast : EndLast c.buffer)
    (h : Cursor.peek 0 c = (.ok t, c')) : ∃ buffer, c'.buffer = t :: buffer := by
  have hfilled := filled_fill (0 + 1 - c.buffer.length) c hlast
  unfold Cursor.peek at h
  rcases hfill : fill (0 + 1 - c.buffer.length) c with ⟨outcome, c''⟩
  rw [hfill] at hfilled h
  cases outcome with
  | error e => simp at h
  | ok u =>
    simp only [Prod.mk.injEq, Except.ok.injEq] at h
    obtain ⟨ht, rfl⟩ := h
    cases hbuffer : c''.buffer with
    | cons t' buffer => exact ⟨buffer, by simp [← ht, hbuffer]⟩
    | nil =>
      rcases hfilled.enough rfl with hlen | hsaw
      · simp only [hbuffer, List.length_nil] at hlen
        omega
      · simp [sawEnd, hbuffer] at hsaw

/-- `Cursor.advance`: the answer of the stream, and a cursor that stands for the stream after it. -/
theorem agree_advance :
    Agree toStream (fun c => EndLast c.buffer) Cursor.advance Stream.advance := by
  intro c hlast
  obtain ⟨hanswer, hlast'⟩ := agree_peek 0 c hlast
  unfold Cursor.advance
  rcases hpeek : Cursor.peek 0 c with ⟨outcome, c'⟩
  rw [hpeek] at hanswer hlast'
  have hstream : c.toStream = c'.toStream := congrArg Prod.snd hanswer
  have htoken : c'.toStream.tokenAt 0 = outcome := by
    rw [← hstream]
    exact congrArg Prod.fst hanswer
  rw [hstream, Stream.advance, htoken]
  cases outcome with
  | error e =>
    refine ⟨?_, hlast'⟩
    -- Where the next token cannot be read there are none, so nothing is taken.
    have hnil : c'.toStream.tokens = [] := by
      cases htokens : c'.toStream.tokens with
      | nil => rfl
      | cons t tokens => simp [Stream.tokenAt, htokens] at htoken
    rw [Stream.rest_of_nil hnil]
  | ok t =>
    obtain ⟨buffer, hbuffer⟩ := buffer_peek_zero hlast hpeek
    cases hend : t.isEnd with
    | true =>
      refine ⟨?_, by simpa [hend] using hlast'⟩
      have hnil : c'.toStream.tokens = [] := by simp [Cursor.toStream, hbuffer, ahead, hend]
      rw [Stream.rest_of_nil hnil]
      simp [hend]
    | false =>
      refine ⟨?_, ?_⟩
      · simp [Stream.rest, Cursor.toStream, hbuffer, ahead, hend]
      · have hlast' : EndLast c'.buffer := hlast'
        rw [hbuffer] at hlast'
        simpa [hbuffer, hend] using hlast'.tail

/-- Cursors are simulated by the streams that they stand for. -/
theorem simulation : Simulation toStream fun c => EndLast c.buffer where
  peek := agree_peek
  advance := agree_advance
  lastEnd _ := rfl
  textSince _ _ := rfl

/-- What a script does on a signature, told from its tokens. -/
theorem run_ofBytes {α : Type} (script : Script α) (data : List UInt8) :
    let outcome := (ofBytes data).run script
    script.run (Phrase.perform (budget data.length)) (Stream.ofBytes data) =
      (outcome.1, outcome.2.toStream) ∧ EndLast outcome.2.buffer :=
  simulation.run (simulation.perform (budget data.length)) script (ofBytes data)
    (by simp [EndLast, ofBytes])

end Cursor

end TypeNotes.Signature
