import TypeNotes.Proofs.Signature.Blame
import TypeNotes.Proofs.Signature.Lookahead

/-!
# The buffer of a cursor cannot be seen

A cursor reads tokens as they are asked for, buffers those that were looked at, and passes gaps even
when an error follows. None of this shows. Whatever calls are made to a cursor, one after another
and on after errors, each is answered as by a *bookmark*: a machine that has all tokens of the
signature from the start and remembers no more than how many of them were taken and where the last
one ended.

**Two views of one stream.** A bookmark stands for the tokens that it has not come to, as a cursor
does (`Bookmark.simulation`, `Cursor.simulation`). So a cursor and a bookmark that stand for the
same tokens answer every script alike and stand for the same tokens again (`Standing.run`), and this
carries over to every sequence of calls (`Standing.answers`).
-/

namespace TypeNotes.Signature

/-! ### Places among tokens -/

/-- At the last place and at all places behind it stands what ends the tokens. -/
theorem tokenAt_min (tokens : List Token × Except Error Token) (place : Nat) :
    tokenAt tokens (min place tokens.1.length) = tokenAt tokens place := by
  rcases Nat.lt_or_ge place tokens.1.length with hlt | hge
  · rw [Nat.min_eq_left (Nat.le_of_lt hlt)]
  · rw [Nat.min_eq_right hge, tokenAt, tokenAt, List.getElem?_eq_none (Nat.le_refl _),
      List.getElem?_eq_none hge]

/-- An error is found only where the tokens end. -/
theorem eq_error_of_tokenAt {tokens : List Token × Except Error Token} {place : Nat} {e : Error}
    (h : tokenAt tokens place = .error e) : tokens.2 = .error e := by
  rw [tokenAt] at h
  split at h
  · cases h
  · exact h

/-! ### Bookmarks -/

/-- A place among the tokens of a signature: how many of them were taken, and where the last one
ended. -/
structure Bookmark (data : List UInt8) where
  index : Nat
  lastEnd : Nat

namespace Bookmark

variable {data : List UInt8}

/-- Before the first token. -/
def start (data : List UInt8) : Bookmark data := ⟨0, 0⟩

/-- The token some places ahead, or what ends the tokens. -/
def peek (ahead : Nat) (b : Bookmark data) : Except Error Token × Bookmark data :=
  (tokenAt (tokens data) (b.index + ahead), b)

/-- Takes the next token, if there is one. -/
def advance (b : Bookmark data) : Except Error Token × Bookmark data :=
  match (tokens data).1[b.index]? with
  | some t => (.ok t, ⟨b.index + 1, t.stop⟩)
  | none => ((tokens data).2, b)

/-- The text from a place to the end of the last token taken. -/
def textSince (start : Nat) (b : Bookmark data) : String :=
  Utf8.text ((data.take b.lastEnd).drop start)

instance : Supply (Bookmark data) where
  peek := peek
  advance := advance
  lastEnd := lastEnd
  textSince := textSince

/-- Runs a script from here. -/
def run {α : Type} (script : Script α) (b : Bookmark data) : Except Error α × Bookmark data :=
  script.run (Phrase.perform (budget data.length)) b

/-- The stream of the tokens that a bookmark has not come to. -/
def toStream (b : Bookmark data) : Stream where
  data := data
  tokens := (tokens data).1.drop b.index
  ending := (tokens data).2
  lastEnd := b.lastEnd
  thenEnd :=
    have h := tokensThenEnd_tokensFrom 0 data
    ⟨fun t ht => h.isEnd_of_mem t (List.mem_of_mem_drop ht), h.isEnd_ending⟩

theorem tokenAt_toStream (b : Bookmark data) (ahead : Nat) :
    b.toStream.tokenAt ahead = tokenAt (tokens data) (b.index + ahead) := by
  rw [Stream.tokenAt, toStream, List.getElem?_drop]
  rfl

/-- Bookmarks are simulated by the streams of the tokens that they have not come to. -/
theorem simulation : Simulation (@toStream data) fun _ => True where
  peek ahead := by
    intro b _
    exact ⟨congrArg (·, b.toStream) (b.tokenAt_toStream ahead), trivial⟩
  advance := by
    intro b _
    refine ⟨?_, trivial⟩
    have htoken := b.tokenAt_toStream 0
    change (b.toStream.tokenAt 0, b.toStream.rest) = (b.advance.1, b.advance.2.toStream)
    rw [htoken, advance, tokenAt, Nat.add_zero]
    cases hnext : (tokens data).1[b.index]? with
    | none =>
      have hnil : b.toStream.tokens = [] :=
        List.drop_eq_nil_of_le (List.getElem?_eq_none_iff.1 hnext)
      rw [Stream.rest_of_nil hnil]
    | some t =>
      have hcons : (tokens data).1.drop b.index = t :: (tokens data).1.drop (b.index + 1) := by
        obtain ⟨hlt, rfl⟩ := List.getElem?_eq_some_iff.1 hnext
        exact List.drop_eq_getElem_cons hlt
      simp only [Stream.rest, toStream, hcons, List.tail_cons, List.head?_cons, Option.map_some,
        Option.getD_some]
  lastEnd _ := rfl
  textSince _ _ := rfl

end Bookmark

/-! ### A cursor and a bookmark at the same place -/

/-- A cursor and a bookmark stand for the same tokens. -/
structure Standing {data : List UInt8} (c : Cursor) (b : Bookmark data) : Prop where
  endLast : EndLast c.buffer
  toStream : c.toStream = b.toStream

namespace Standing

variable {data : List UInt8} {c : Cursor} {b : Bookmark data}

theorem start (data : List UInt8) : Standing (Cursor.ofBytes data) (Bookmark.start data) :=
  ⟨by simp [EndLast, Cursor.ofBytes], rfl⟩

theorem lastEnd (h : Standing c b) : c.lastEnd = b.lastEnd := congrArg Stream.lastEnd h.toStream

/-- `peek` finds the token that stands there, or what ends the tokens. -/
theorem fst_peek (h : Standing c b) (ahead : Nat) :
    (c.peek ahead).1 = tokenAt (tokens data) (b.index + ahead) := by
  have hpeek := congrArg Prod.fst (Cursor.agree_peek ahead c h.endLast).1
  rw [h.toStream] at hpeek
  exact hpeek.symm.trans (b.tokenAt_toStream ahead)

theorem fst_advance (h : Standing c b) : c.advance.1 = tokenAt (tokens data) b.index := by
  have hadvance := congrArg Prod.fst (Cursor.agree_advance c h.endLast).1
  rw [h.toStream] at hadvance
  exact hadvance.symm.trans (b.tokenAt_toStream 0)

/-- Every script is answered alike, and leads to the same place. -/
theorem run (h : Standing c b) {α : Type} (script : Script α) :
    (c.run script).1 = (b.run script).1 ∧ Standing (c.run script).2 (b.run script).2 := by
  have hdata : c.data = data := congrArg Stream.data h.toStream
  have hrun : c.run script = script.run (Phrase.perform (budget data.length)) c := by
    rw [Cursor.run, hdata]
  obtain ⟨hcursor, hlast⟩ := Cursor.simulation.run
    (Cursor.simulation.perform (budget data.length)) script c h.endLast
  obtain ⟨hbookmark, -⟩ := Bookmark.simulation.run
    (Bookmark.simulation.perform (budget data.length)) script b trivial
  rw [h.toStream, hbookmark] at hcursor
  obtain ⟨hanswer, hstream⟩ := Prod.mk.inj hcursor
  rw [hrun]
  exact ⟨hanswer.symm, hlast, hstream.symm⟩

end Standing

/-! ### Calls -/

/-- The parts of a signature that can be asked for. -/
inductive Part
  | type
  | typeName
  | className
  | classReference
  | typeList
  | parameters
  | blockSignature
  | methodType
  | methodTypes
  | typeParameter (withVariance : Bool)
  | typeParameters (withVariance : Bool)
  | selfTypes
  | useClauses
  | moduleHead
  | classHead
  | declarations
  deriving DecidableEq, Repr

/-- What is answered when a part has been read. -/
abbrev Part.Answer : Part → Type
  | type | typeName | className | classReference | blockSignature | methodType | moduleHead
  | classHead => String
  | typeList | methodTypes | selfTypes | useClauses => List String
  | typeParameter _ => TypeParameter
  | typeParameters _ => List TypeParameter
  | parameters => Unit
  | declarations => Nat

/-- How a part is read. -/
def Part.script : (p : Part) → Script p.Answer
  | type => Grammar.type
  | typeName => Grammar.typeName
  | className => Grammar.className
  | classReference => Grammar.classReference
  | typeList => Grammar.typeList
  | parameters => Grammar.parameters
  | blockSignature => Grammar.blockSignature
  | methodType => Grammar.methodType
  | methodTypes => Script.call .methodTypes
  | typeParameter withVariance => Grammar.typeParameter withVariance
  | typeParameters withVariance => Grammar.typeParameters withVariance
  | selfTypes => Grammar.selfTypes
  | useClauses => Grammar.useClauses
  | moduleHead => Grammar.moduleHead
  | classHead => Grammar.classHead
  | declarations => Grammar.declarations

/-- The calls that can be made while a signature is read. -/
inductive Call
  | peek (ahead : Nat)
  | advance
  | accept (kinds : List Kind)
  | expect (kinds : List Kind) (expected : String)
  | atEnd
  | expectEnd
  | tags
  | textSince (start : Nat)
  | parse (p : Part)
  deriving DecidableEq, Repr

namespace Call

/-- What a call answers with. -/
abbrev Answer : Call → Type
  | peek _ | advance | expect _ _ => Token
  | accept _ => Option Token
  | atEnd => Bool
  | expectEnd => Unit
  | tags => List String
  | textSince _ => String
  | parse p => p.Answer

/-- What a call does. -/
def script : (call : Call) → Script call.Answer
  | peek ahead => .peekAt ahead .done
  | advance => Script.advance
  | accept kinds => Script.acceptAny kinds
  | expect kinds expected => Script.expectAny kinds expected
  | atEnd => Script.atEnd
  | expectEnd => Script.expectEnd
  | tags => Script.call .tags
  | textSince start => Script.textSince start
  | parse p => p.script

/-- What a call answered, or its error, and where the last token taken ends after it. -/
structure Record where
  call : Call
  outcome : Except Error call.Answer
  lastEnd : Nat

section Sequence

variable {σ : Type} (run : {α : Type} → Script α → Reader σ α)

/-- Where a sequence of calls leads. It goes on after errors. -/
def after (calls : List Call) (s : σ) : σ := calls.foldl (fun s call => (run call.script s).2) s

/-- What the calls of a sequence answer, one after another. -/
def answers (lastEnd : σ → Nat) : List Call → σ → List Record
  | [], _ => []
  | call :: calls, s =>
    ⟨call, (run call.script s).1, lastEnd (run call.script s).2⟩ ::
      answers lastEnd calls (run call.script s).2

end Sequence

/-- Whether a call, by its outcome, has taken no token: it looked ahead, or tested or expected
something else, or found no token where it was. -/
def Idle : (call : Call) → Except Error call.Answer → Prop
  | peek _, _ | atEnd, _ | expectEnd, _ | textSince _, _ => True
  | accept _, outcome => ∀ t, outcome ≠ .ok (some t)
  | advance, outcome | expect _ _, outcome => ∃ e, outcome = .error e
  | tags, _ | parse _, _ => False

end Call

namespace Standing

open Call

variable {data : List UInt8} {c : Cursor} {b : Bookmark data}

theorem after (h : Standing c b) (calls : List Call) :
    Standing (Call.after Cursor.run calls c) (Call.after Bookmark.run calls b) := by
  induction calls generalizing c b with
  | nil => exact h
  | cons call calls ih => exact ih (h.run call.script).2

/-- Calls are answered alike, however many and in whatever order they are made. -/
theorem answers (h : Standing c b) (calls : List Call) :
    Call.answers Cursor.run Cursor.lastEnd calls c =
      Call.answers Bookmark.run Bookmark.lastEnd calls b := by
  induction calls generalizing c b with
  | nil => rfl
  | cons call calls ih =>
    obtain ⟨hanswer, hnext⟩ := h.run call.script
    rw [Call.answers, Call.answers, hanswer, hnext.lastEnd, ih hnext]

end Standing

/-! ### Calls that take no token -/

/-- A script that calls no phrase and takes a token in its last request only, if at all; its answer
then has the property. -/
def Script.TakesLast {α : Type} (taken : α → Prop) : Script α → Prop
  | done _ | fail _ => True
  | peekAt _ next => ∀ t, (next t).TakesLast taken
  | take next => ∀ t, ∃ a, next t = done a ∧ taken a
  | askEnd next => ∀ n, (next n).TakesLast taken
  | cutFrom _ next => ∀ s, (next s).TakesLast taken
  | read _ _ => False

theorem Script.takesLast_acceptAny (kinds : List Kind) :
    (acceptAny kinds).TakesLast fun a => a.isSome := by
  intro t
  change TakesLast _ (if kinds.contains t.kind = true then _ else _)
  split
  · exact fun u => ⟨some u, rfl, rfl⟩
  · trivial

theorem Script.takesLast_expectAny (kinds : List Kind) (expected : String) :
    (expectAny kinds expected).TakesLast fun _ => True := by
  intro t
  change TakesLast _ (Script.bind (if kinds.contains t.kind = true then _ else _) _)
  split
  · exact fun u => ⟨u, rfl, trivial⟩
  · exact fun _ => trivial

theorem Script.takesLast_expectEnd : expectEnd.TakesLast fun _ => False := by
  intro t
  change TakesLast _ (if (t.kind == .endOfInput) = true then _ else _)
  split
  · trivial
  · exact fun _ => trivial

namespace Bookmark

variable {data : List UInt8}

/-- Such a script takes its token, or leaves the bookmark where it is. -/
theorem run_of_takesLast {α : Type} {taken : α → Prop} {x : Script α} (h : x.TakesLast taken)
    (b : Bookmark data) : (∃ a, (b.run x).1 = .ok a ∧ taken a) ∨ (b.run x).2 = b := by
  induction x with
  | done a => exact .inr rfl
  | fail e => exact .inr rfl
  | peekAt ahead next ih =>
    have hrun : b.run (.peekAt ahead next) =
        Reader.andThen (b.peek ahead) fun t => run (next t) := rfl
    rw [hrun, peek]
    cases tokenAt (tokens data) (b.index + ahead) with
    | ok t => exact ih t (h t)
    | error e => exact .inr rfl
  | take next ih =>
    have hrun : b.run (.take next) = Reader.andThen b.advance fun t => run (next t) := rfl
    rw [hrun, advance]
    cases hnext : (tokens data).1[b.index]? with
    | some t =>
      obtain ⟨a, ha, htaken⟩ := h t
      refine .inl ⟨a, ?_, htaken⟩
      simp only [Reader.andThen, ha]
      rfl
    | none =>
      cases (tokens data).2 with
      | ok t =>
        obtain ⟨a, ha, htaken⟩ := h t
        refine .inl ⟨a, ?_, htaken⟩
        simp only [Reader.andThen, ha]
        rfl
      | error e => exact .inr rfl
  | askEnd next ih => exact ih _ (h _)
  | cutFrom start next ih => exact ih _ (h _)
  | read p next ih => exact h.elim

/-- A call that takes no token (`Call.Idle`) leaves the bookmark where it is. -/
theorem run_of_idle {b : Bookmark data} {call : Call} (h : call.Idle (b.run call.script).1) :
    (b.run call.script).2 = b := by
  cases call with
  | peek ahead =>
    have hlast : (Call.peek ahead).script.TakesLast fun _ => False := fun _ => trivial
    exact (run_of_takesLast hlast b).resolve_left fun ⟨_, _, hfalse⟩ => hfalse
  | advance =>
    have hlast : Call.advance.script.TakesLast fun _ => True := fun t => ⟨t, rfl, trivial⟩
    refine (run_of_takesLast hlast b).resolve_left fun ⟨t, ht, _⟩ => ?_
    obtain ⟨e, he⟩ := h
    rw [ht] at he
    cases he
  | accept kinds =>
    refine (run_of_takesLast (Script.takesLast_acceptAny kinds) b).resolve_left ?_
    rintro ⟨a, ha, hsome⟩
    obtain ⟨t, rfl⟩ := Option.isSome_iff_exists.1 hsome
    exact h t ha
  | expect kinds expected =>
    refine (run_of_takesLast (Script.takesLast_expectAny kinds expected) b).resolve_left ?_
    rintro ⟨t, ht, -⟩
    obtain ⟨e, he⟩ := h
    rw [show (b.run (Call.expect kinds expected).script).1 = .ok t from ht] at he
    cases he
  | atEnd =>
    have hlast : Call.atEnd.script.TakesLast fun _ => False := fun _ => trivial
    exact (run_of_takesLast hlast b).resolve_left fun ⟨_, _, hfalse⟩ => hfalse
  | expectEnd =>
    exact (run_of_takesLast Script.takesLast_expectEnd b).resolve_left
      fun ⟨_, _, hfalse⟩ => hfalse
  | tags => exact h.elim
  | textSince start => rfl
  | parse p => exact h.elim

/-- Taking so many tokens, one after another, leads behind them or behind the last one. -/
theorem index_after_replicate (b : Bookmark data) (hb : b.index ≤ (tokens data).1.length)
    (n : Nat) : (Call.after run (List.replicate n .advance) b).index =
      min (b.index + n) (tokens data).1.length := by
  induction n generalizing b with
  | zero => exact (Nat.min_eq_left hb).symm
  | succ n ih =>
    have hrun : (b.run Call.advance.script).2 = b.advance.2 := by
      change (Reader.andThen b.advance fun t b => (Except.ok t, b)).2 = b.advance.2
      rcases b.advance with ⟨e | t, b'⟩
      · rfl
      · rfl
    rw [List.replicate_succ, Call.after, List.foldl_cons, ← Call.after, hrun]
    cases hnext : (tokens data).1[b.index]? with
    | some t =>
      have hlt : b.index < (tokens data).1.length := (List.getElem?_eq_some_iff.1 hnext).1
      have hindex : b.advance.2.index = b.index + 1 := by rw [advance, hnext]
      rw [ih _ (by omega), hindex]
      omega
    | none =>
      have hle : (tokens data).1.length ≤ b.index := List.getElem?_eq_none_iff.1 hnext
      have hstay : b.advance.2 = b := by rw [advance, hnext]
      rw [hstay, ih b hb]
      omega

end Bookmark

/-! ### The budget -/

open Script Grammar in
/-- The errors that a call raises itself are made by tokens that it was given (`Script.Honest`). -/
theorem Call.honest (call : Call) : call.script.Honest := by
  intro ok Fault h
  cases call with
  | peek ahead => exact fun _ _ => trivial
  | advance => exact fun _ _ => trivial
  | accept kinds => exact blames_acceptAny kinds
  | expect kinds expected => exact blames_expectAny h kinds expected
  | atEnd => exact blames_atEnd
  | expectEnd =>
    refine fun t ht => (blames_ite _ _ _).2 ⟨fun _ => trivial, fun _ => ?_⟩
    exact fun u hu => h u _ hu
  | tags => exact fun _ => trivial
  | textSince start => exact fun _ => trivial
  | parse p =>
    cases p with
    | type => exact blames_type
    | typeName => exact blames_spanned (blames_qualified _)
    | className => exact blames_spanned (blames_qualified _)
    | classReference => exact blames_classReference h
    | typeList => exact blames_typeList h
    | parameters => simp [script, Part.script, parameters, Script.call, h]
    | blockSignature => exact blames_blockSignature h
    | methodType => exact blames_methodType h
    | methodTypes => exact fun _ => trivial
    | typeParameter withVariance => exact blames_typeParameter h withVariance
    | typeParameters withVariance => simp [script, Part.script, typeParameters, Script.call, h]
    | selfTypes => exact blames_selfTypes h
    | useClauses => exact blames_useClauses h
    | moduleHead => exact blames_moduleHead h
    | classHead => exact blames_classHead h
    | declarations => exact fun _ => trivial

/-- What cannot be read as a token has nothing to do with the budget. -/
theorem cause_ne_tooDeep_of_tokensFrom {offset : Nat} {s : List UInt8} {e : Error}
    (h : (tokensFrom offset s).2 = .error e) : e.cause ≠ .tooDeep := by
  fun_induction tokensFrom offset s with
  | case1 offset s e' hread =>
    obtain rfl : e' = e := by simpa using h
    unfold Token.read at hread
    split at hread
    split at hread
    · cases hread
    split at hread
    · cases hread
    split at hread
    · cases hread
      exact Cause.noConfusion
    · cases hread
      exact Cause.noConfusion
  | case2 => cases h
  | case3 offset s t rest hread hend tokens ending heq ih =>
    rw [heq] at ih
    exact ih h

/-- No call uses up the budget. -/
theorem Standing.cause_ne_tooDeep {data : List UInt8} {c : Cursor} {b : Bookmark data}
    (h : Standing c b) (call : Call) {e : Error} (he : (c.run call.script).1 = .error e) :
    e.cause ≠ .tooDeep := by
  have hsound : b.toStream.Sound (fun _ => True) fun e => e.cause ≠ .tooDeep :=
    ⟨fun _ _ => trivial, fun _ _ => trivial, fun _ he => cause_ne_tooDeep_of_tokensFrom he⟩
  have hblaming : Blaming (fun _ => True) fun e => e.cause ≠ .tooDeep := by
    intro t expected _
    unfold Token.unexpected
    split
    · exact Cause.noConfusion
    · exact Cause.noConfusion
  -- There are enough bytes for the tokens that are left, so the budget makes no difference.
  have hlength : b.toStream.tokens.length ≤ data.length :=
    Nat.le_trans (List.drop_sublist _ _).length_le (length_tokensFrom_le 0 data)
  have hreading := call.script.run_perform_eq_reading (s := b.toStream) (b := budget data.length)
    (by simp only [budget]; omega)
  have hfair := (call.honest hblaming).fair hblaming b.toStream hsound
  have hbookmark := congrArg Prod.fst (Bookmark.simulation.run
    (Bookmark.simulation.perform (budget data.length)) call.script b trivial).1
  refine hfair.2 e ?_
  rw [← hreading, hbookmark]
  exact (h.run call.script).1.symm.trans he

theorem Standing.cause_of_mem_answers {data : List UInt8} {c : Cursor} {b : Bookmark data}
    (h : Standing c b) {calls : List Call} {r : Call.Record}
    (hr : r ∈ Call.answers Cursor.run Cursor.lastEnd calls c) {e : Error}
    (he : r.outcome = .error e) : e.cause ≠ .tooDeep := by
  induction calls generalizing c b with
  | nil => cases hr
  | cons call calls ih =>
    rcases List.mem_cons.1 hr with rfl | hr
    · exact h.cause_ne_tooDeep call he
    · exact ih (h.run call.script).2 hr

/-- **Transparency.** A cursor that is advanced again and again delivers the tokens of the signature
and then, every time, what ends them. Whatever calls are made, one after another and on after
errors, each answer, each error and each end of the last token is that of a bookmark, which knows
only how many of these tokens were taken and where the last of them ended; and none is an error of
the budget. So a call that takes no token, such as a look ahead or a test that fails, changes no
later answer, and if looking ahead ever fails, it is with the one error that ends the tokens. -/
theorem Cursor.transparent (data : List UInt8) :
    (∀ n, (Call.after Cursor.run (List.replicate n .advance) (ofBytes data)).advance.1 =
        tokenAt (tokens data) n) ∧
      (∀ calls, Call.answers Cursor.run Cursor.lastEnd calls (ofBytes data) =
          Call.answers Bookmark.run Bookmark.lastEnd calls (Bookmark.start data) ∧
        ∀ r ∈ Call.answers Cursor.run Cursor.lastEnd calls (ofBytes data), ∀ e,
          r.outcome = .error e → e.cause ≠ .tooDeep) ∧
      (∀ earlier later, ∀ call : Call,
        let c := Call.after Cursor.run earlier (ofBytes data)
        call.Idle (c.run call.script).1 →
          Call.answers Cursor.run Cursor.lastEnd later (c.run call.script).2 =
            Call.answers Cursor.run Cursor.lastEnd later c) ∧
      ∀ earlier n e, ((Call.after Cursor.run earlier (ofBytes data)).peek n).1 = .error e →
        (tokens data).2 = .error e := by
  have hstart := Standing.start data
  refine ⟨fun n => ?_, fun calls => ⟨hstart.answers calls, fun r hr e => ?_⟩,
    fun earlier later call => ?_, fun earlier n e he => ?_⟩
  · have hindex := (Bookmark.start data).index_after_replicate (Nat.zero_le _) n
    rw [show (Bookmark.start data).index + n = n from Nat.zero_add n] at hindex
    rw [(hstart.after _).fst_advance, hindex]
    exact tokenAt_min (tokens data) n
  · exact hstart.cause_of_mem_answers hr
  · intro c hidle
    have h : Standing c _ := hstart.after earlier
    obtain ⟨hanswer, hnext⟩ := h.run call.script
    rw [hanswer] at hidle
    rw [Bookmark.run_of_idle hidle] at hnext
    rw [hnext.answers, h.answers]
  · rw [(hstart.after earlier).fst_peek] at he
    exact eq_error_of_tokenAt he

end TypeNotes.Signature
