import TypeNotes.Note.Basic
import TypeNotes.Proofs.Signature.Lexing
import TypeNotes.Proofs.Signature.Termination

/-!
# What errors are about

Every error that reading a signature ends in shows at a token of the signature, at its end, or at
what could not be read as a token. `Script.Blames` is the analysis behind this: every error that a
script raises itself is one that a token it was given makes. Every phrase passes it in one sweep
over the grammar (`Phrase.blames_script`), and with it all runs are told (`Script.Blames.fault`).
-/

namespace TypeNotes.Signature

variable {α β : Type} {ok : Token → Prop} {Fault : Error → Prop}

/-- If the tokens that the script is given are of one class, the errors that it raises are of
another, and its answer has the property `post`. -/
def Script.Blames (ok : Token → Prop) (Fault : Error → Prop) : Script α → (α → Prop) → Prop
  | done a, post => post a
  | fail e, _ => Fault e
  | peekAt _ next, post => ∀ t, ok t → (next t).Blames ok Fault post
  | take next, post => ∀ t, ok t → (next t).Blames ok Fault post
  | askEnd next, post => ∀ n, (next n).Blames ok Fault post
  | cutFrom _ next, post => ∀ text, (next text).Blames ok Fault post
  | read _ next, post => ∀ a, (next a).Blames ok Fault post

namespace Script

/-- `Script.Blames` goes through one script and then through what follows it. -/
@[simp]
theorem blames_bind (x : Script α) (f : α → Script β) (post : β → Prop) :
    (x.bind f).Blames ok Fault post ↔ x.Blames ok Fault fun a => (f a).Blames ok Fault post := by
  induction x with
  | done a => rfl
  | fail e => rfl
  | peekAt ahead next ih => simp only [Script.bind, Blames, ih]
  | take next ih => simp only [Script.bind, Blames, ih]
  | askEnd next ih => simp only [Script.bind, Blames, ih]
  | cutFrom start next ih => simp only [Script.bind, Blames, ih]
  | read p next ih => simp only [Script.bind, Blames, ih]

@[simp]
theorem blames_done (a : α) (post : α → Prop) : (done a).Blames ok Fault post ↔ post a := Iff.rfl

@[simp]
theorem blames_fail (e : Error) (post : α → Prop) : (fail e).Blames ok Fault post ↔ Fault e :=
  Iff.rfl

@[simp]
theorem blames_peek (post : Token → Prop) :
    peek.Blames ok Fault post ↔ ∀ t, ok t → post t := Iff.rfl

@[simp]
theorem blames_peekSecond (post : Token → Prop) :
    peekSecond.Blames ok Fault post ↔ ∀ t, ok t → post t := Iff.rfl

@[simp]
theorem blames_peekThird (post : Token → Prop) :
    peekThird.Blames ok Fault post ↔ ∀ t, ok t → post t := Iff.rfl

@[simp]
theorem blames_advance (post : Token → Prop) :
    advance.Blames ok Fault post ↔ ∀ t, ok t → post t := Iff.rfl

@[simp]
theorem blames_skip (post : Unit → Prop) :
    skip.Blames ok Fault post ↔ ∀ t, ok t → post () := Iff.rfl

@[simp]
theorem blames_lastEnd (post : Nat → Prop) :
    lastEnd.Blames ok Fault post ↔ ∀ n, post n := Iff.rfl

@[simp]
theorem blames_textSince (start : Nat) (post : String → Prop) :
    (textSince start).Blames ok Fault post ↔ ∀ text, post text := Iff.rfl

@[simp]
theorem blames_read (p : Phrase) (next : p.Answer → Script α) (post : α → Prop) :
    (read p next).Blames ok Fault post ↔ ∀ a, (next a).Blames ok Fault post := Iff.rfl

/-- Both branches of a test are followed. -/
@[simp]
theorem blames_ite {c : Prop} [Decidable c] (x y : Script α) (post : α → Prop) :
    (if c then x else y).Blames ok Fault post ↔
      (c → x.Blames ok Fault post) ∧ (¬ c → y.Blames ok Fault post) := by
  split <;> simp_all

/-- A weaker property of answers is enough. -/
theorem Blames.imp {x : Script α} {post post' : α → Prop} (h : x.Blames ok Fault post)
    (himp : ∀ a, post a → post' a) : x.Blames ok Fault post' := by
  induction x with
  | done a => exact himp a h
  | fail e => exact h
  | peekAt ahead next ih => exact fun t ht => ih t (h t ht)
  | take next ih => exact fun t ht => ih t (h t ht)
  | askEnd next ih => exact fun n => ih n (h n)
  | cutFrom start next ih => exact fun text => ih text (h text)
  | read p next ih => exact fun a => ih a (h a)

/-- `acceptAny` raises nothing, as a token is only asked for. -/
@[simp]
theorem blames_acceptAny (kinds : List Kind) :
    (acceptAny kinds).Blames ok Fault fun _ => True := by
  simp [acceptAny]

@[simp]
theorem blames_acceptKind (kind : Kind) : (acceptKind kind).Blames ok Fault fun _ => True := by
  simp [acceptKind]

@[simp]
theorem blames_accept (mark : String) : (accept mark).Blames ok Fault fun _ => True := by
  simp [accept]

@[simp]
theorem blames_nextIs (kind : Kind) : (nextIs kind).Blames ok Fault fun _ => True := by
  simp [nextIs]

@[simp]
theorem blames_nextIsMark (mark : String) : (nextIsMark mark).Blames ok Fault fun _ => True := by
  simp [nextIsMark]

/-- `nextThen` raises nothing, as two tokens are only looked at. -/
@[simp]
theorem blames_nextThen (mark : String) (fits : Token → Bool) :
    (nextThen mark fits).Blames ok Fault fun _ => True := by
  simp [nextThen]

@[simp]
theorem blames_atEnd : atEnd.Blames ok Fault fun _ => True := by
  simp [atEnd]

/-- `spanned` raises nothing besides what its script raises. -/
@[simp]
theorem blames_spanned {body : Script Unit} (h : body.Blames ok Fault fun _ => True) :
    (spanned body).Blames ok Fault fun _ => True := by
  simp [spanned, h]

end Script

/-! ### One sweep over the grammar -/

/-- Every error that a token of the class makes is a fault. -/
def Blaming (ok : Token → Prop) (Fault : Error → Prop) : Prop :=
  ∀ t expected, ok t → Fault (Token.unexpected t expected)

open Script Grammar

section Sweep

variable (h : Blaming ok Fault)

include h

/-- The error of `expectAny`, where a token is missing, is one that the token in its place makes. -/
@[simp]
theorem blames_expectAny (kinds : List Kind) (expected : String) :
    (expectAny kinds expected).Blames ok Fault fun _ => True := by
  simp only [expectAny, bind_eq, blames_bind]
  refine (blames_acceptAny kinds).imp ?_
  rintro (_ | t) -
  · exact fun t ht => h t expected ht
  · trivial

@[simp]
theorem blames_expect (mark : String) : (expect mark).Blames ok Fault fun _ => True := by
  simp [expect, h]

omit h in
/-- Errors in names are about tokens that were shown; and so for each script below, which is made of
such parts. -/
@[simp]
theorem blames_qualified (sort : NameSort) : (qualified sort).Blames ok Fault fun _ => True := by
  simp [qualified, call]

omit h in
@[simp]
theorem blames_intersection : intersection.Blames ok Fault fun _ => True := by
  simp only [intersection, call, bind_eq, blames_bind, blames_read, blames_done, implies_true]

omit h in
@[simp]
theorem blames_typeBody : typeBody.Blames ok Fault fun _ => True := by
  simp only [typeBody, call, bind_eq, blames_bind, blames_read, blames_done, implies_true,
    blames_intersection]

omit h in
@[simp]
theorem blames_type : type.Blames ok Fault fun _ => True := by
  simp [type]

@[simp]
theorem blames_arguments : arguments.Blames ok Fault fun _ => True := by
  simp [arguments, call, h]

@[simp]
theorem blames_parametersAndSelf : parametersAndSelf.Blames ok Fault fun _ => True := by
  simp [parametersAndSelf, parameters?, parameters, selfBinding, call, h]

@[simp]
theorem blames_result : result.Blames ok Fault fun _ => True := by
  simp [result, call, h]

@[simp]
theorem blames_block : block.Blames ok Fault fun _ => True := by
  simp [block, blockMark, h]

@[simp]
theorem blames_simple : simple.Blames ok Fault fun _ => True := by
  simp only [simple, bind_eq, blames_bind, blames_peek]
  intro t ht
  have hfault := h t "a type" ht
  split <;> simp [procedure, call, h, hfault]

@[simp]
theorem blames_recordKey : recordKey.Blames ok Fault fun _ => True := by
  simp only [recordKey, bind_eq, blames_bind, blames_peek]
  intro t ht
  simp [h, h t "a record key" ht]

/-- Whatever key or sign a parameter starts with, errors in `parameterHead` are about tokens that
were shown. -/
@[simp]
theorem blames_parameterHead (afterKey : Bool) :
    (parameterHead afterKey).Blames ok Fault fun _ => True := by
  simp only [parameterHead, bind_eq, blames_bind, blames_peek]
  intro t ht
  simp [h t "a keyword parameter" ht]

@[simp]
theorem blames_classReferenceBody : classReferenceBody.Blames ok Fault fun _ => True := by
  simp [classReferenceBody, h]

@[simp]
theorem blames_classReference : classReference.Blames ok Fault fun _ => True := by
  simp [classReference, h]

@[simp]
theorem blames_typeParameter (withVariance : Bool) :
    (typeParameter withVariance).Blames ok Fault fun _ => True := by
  simp [typeParameter, variance?, typeAfter, h]

@[simp]
theorem blames_typeParameters? (withVariance : Bool) :
    (typeParameters? withVariance).Blames ok Fault fun _ => True := by
  simp [typeParameters?, typeParameters, call, h]

@[simp]
theorem blames_methodType : methodType.Blames ok Fault fun _ => True := by
  simp [methodType, methodTypeBody, h]

@[simp]
theorem blames_blockSignature : blockSignature.Blames ok Fault fun _ => True := by
  simp [blockSignature, h]

@[simp]
theorem blames_typeList : typeList.Blames ok Fault fun _ => True := by
  simp [typeList, call, h]

@[simp]
theorem blames_selfTypes : selfTypes.Blames ok Fault fun _ => True := by
  simp [selfTypes, call, h]

@[simp]
theorem blames_useClause : useClause.Blames ok Fault fun _ => True := by
  refine blames_spanned ?_
  simp only [bind_eq, blames_bind, call, blames_read, blames_done]
  refine (blames_accept "::").imp fun _ _ => ?_
  rintro (_ | kind)
  · trivial
  · simp [h]

@[simp]
theorem blames_useClauses : useClauses.Blames ok Fault fun _ => True := by
  simp [useClauses, call, h]

@[simp]
theorem blames_moduleHead : moduleHead.Blames ok Fault fun _ => True := by
  simp [moduleHead, h]

@[simp]
theorem blames_classHead : classHead.Blames ok Fault fun _ => True := by
  simp [classHead, h]

omit h in
@[simp]
theorem blames_attached (mark : String) : (attached mark).Blames ok Fault fun _ => True := by
  simp [attached]

omit h in
@[simp]
theorem blames_singletonMarker : singletonMarker.Blames ok Fault fun _ => True := by
  simp only [singletonMarker, bind_eq, blames_bind]
  refine (blames_nextIs _).imp fun b _ => ?_
  rw [blames_ite]
  refine ⟨fun _ => ?_, fun _ => trivial⟩
  rw [blames_bind, blames_peekSecond]
  intro t _
  split <;> simp

@[simp]
theorem blames_methodName : methodName.Blames ok Fault fun _ => True := by
  simp only [methodName, bind_eq, blames_bind, blames_peek]
  intro t ht
  simp [h, h t "a method name" ht]

@[simp]
theorem blames_methodMember : methodMember.Blames ok Fault fun _ => True := by
  simp [methodMember, call, h]

@[simp]
theorem blames_attributeMember : attributeMember.Blames ok Fault fun _ => True := by
  simp [attributeMember, h]

/-- Errors in `classDeclaration` are about tokens that were shown, if those in its heritage are. -/
@[simp]
theorem blames_classDeclaration {heritage : Script Unit}
    (hheritage : heritage.Blames ok Fault fun _ => True) :
    (classDeclaration heritage).Blames ok Fault fun _ => True := by
  simp [classDeclaration, call, h, hheritage]

@[simp]
theorem blames_aliasDeclaration : aliasDeclaration.Blames ok Fault fun _ => True := by
  simp [aliasDeclaration, call, h]

/-- All sorts of members of a class together. -/
@[simp]
theorem blames_member : member.Blames ok Fault fun _ => True := by
  simp only [member, bind_eq, blames_bind, blames_peek]
  intro t ht
  have hfault := h t "a declaration or member" ht
  split <;> simp [typed, aliasTarget, call, h, hfault]

/-- `Phrase.script` raises only errors that its tokens make. -/
theorem Phrase.blames_script (p : Phrase) : p.script.Blames ok Fault fun _ => True := by
  cases p with
  | members =>
    simp only [Phrase.script, call, bind_eq, blames_bind, blames_read, blames_done, blames_peek]
    intro _ t ht
    have hfault := h t "`end`" ht
    split <;> simp [h, hfault]
  | _ => simp [Phrase.script, call, h]

end Sweep

/-! ### Runs -/

/-- The tokens of the stream are of the class, and what ends it is a token of the class or a
fault. -/
structure Stream.Sound (ok : Token → Prop) (Fault : Error → Prop) (s : Stream) : Prop where
  tokens : ∀ t ∈ s.tokens, ok t
  ending : ∀ t, s.ending = .ok t → ok t
  error : ∀ e, s.ending = .error e → Fault e

namespace Stream.Sound

variable {s s' : Stream}

/-- A sound stream (`Sound`) stays sound when tokens are taken from it. -/
theorem of_takes (hs : s.Sound ok Fault) {taken : List Token} (h : s.Takes taken s') :
    s'.Sound ok Fault where
  tokens t ht := hs.tokens t (h.tokens ▸ List.mem_append_right _ ht)
  ending t ht := hs.ending t (h.ending ▸ ht)
  error e he := hs.error e (h.ending ▸ he)

/-- Every token that a sound stream shows is of the class of its tokens. -/
theorem tokenAt (hs : s.Sound ok Fault) {ahead : Nat} {t : Token}
    (h : s.tokenAt ahead = .ok t) : ok t := by
  unfold Stream.tokenAt at h
  split at h
  · rename_i u hu
    cases h
    exact hs.tokens t (List.mem_of_getElem? hu)
  · exact hs.ending t h

/-- Every error that a sound stream shows is of the class of its errors. -/
theorem tokenAt_error (hs : s.Sound ok Fault) {ahead : Nat} {e : Error}
    (h : s.tokenAt ahead = .error e) : Fault e := by
  unfold Stream.tokenAt at h
  split at h
  · cases h
  · exact hs.error e h

end Stream.Sound

/-- The outcome of reading from a sound stream is no error but a fault, and the stream stays
sound. -/
def Fair (ok : Token → Prop) (Fault : Error → Prop) (s : Stream) (outcome : Except Error α × Stream) :
    Prop :=
  s.Sound ok Fault → outcome.2.Sound ok Fault ∧ ∀ e, outcome.1 = .error e → Fault e

/-- A script that blames tokens has a fair outcome, if reading phrases has. -/
theorem Script.Blames.run {f : Performer} (hf : ∀ p s, Fair ok Fault s (f p s)) {x : Script α}
    {post : α → Prop} (hx : x.Blames ok Fault post) (s : Stream) :
    Fair ok Fault s (x.run f s) := by
  induction x generalizing s with
  | done a => exact fun hs => ⟨hs, fun e he => by cases he⟩
  | fail e =>
    refine fun hs => ⟨hs, fun e' he' => ?_⟩
    cases he'
    exact hx
  | peekAt ahead next ih =>
    intro hs
    simp only [Script.run, Supply.peek, Stream.peek]
    cases htoken : s.tokenAt ahead with
    | ok t => exact ih t (hx t (hs.tokenAt htoken)) s hs
    | error e =>
      refine ⟨hs, fun e' he' => ?_⟩
      cases he'
      exact hs.tokenAt_error htoken
  | take next ih =>
    intro hs
    have hrest := hs.of_takes s.takes_rest
    simp only [Script.run, Supply.advance, Stream.advance]
    cases htoken : s.tokenAt 0 with
    | ok t => exact ih t (hx t (hs.tokenAt htoken)) s.rest hrest
    | error e =>
      refine ⟨hrest, fun e' he' => ?_⟩
      cases he'
      exact hs.tokenAt_error htoken
  | askEnd next ih => exact ih _ (hx _) s
  | cutFrom start next ih => exact ih _ (hx _) s
  | read p next ih =>
    intro hs
    have hfair := hf p s hs
    rw [Script.run]
    rcases hr : f p s with ⟨outcome, s'⟩
    rw [hr] at hfair
    cases outcome with
    | ok a => exact ih a (hx a) s' hfair.1
    | error e =>
      refine ⟨hfair.1, fun e' he' => ?_⟩
      cases he'
      exact hfair.2 e rfl

/-- Reading a phrase has a fair outcome (`Fair`). In particular its budget is never used up. -/
theorem Phrase.fair_reading (h : Blaming ok Fault) (p : Phrase) (s : Stream) :
    Fair ok Fault s (p.reading s) := by
  refine Phrase.reading_invariant (fun _ s outcome => Fair ok Fault s outcome) (fun p s => ?_)
    (fun f hf p s => ?_) p s
  · cases hending : s.ending with
    | ok t =>
      refine ⟨(.error (t.unexpected ""), s), fun hs => ⟨hs, fun e he => ?_⟩⟩
      cases he
      exact h t "" (hs.ending t hending)
    | error e =>
      refine ⟨(.error e, s), fun hs => ⟨hs, fun e' he' => ?_⟩⟩
      cases he'
      exact hs.error e hending
  · exact (Phrase.blames_script h p).run hf s

/-- A script that passes the analysis raises errors of one class only, on every sound stream. -/
theorem Script.Blames.fair (h : Blaming ok Fault) {x : Script α} {post : α → Prop}
    (hx : x.Blames ok Fault post) (s : Stream) : Fair ok Fault s (x.reading s) :=
  hx.run (Phrase.fair_reading h) s

/-! ### Signatures -/

/-- For tokens and errors of one text: a token that stands in the text (`Token.Stands`) makes errors
that show in it (`Error.Shown`). -/
theorem blaming_shown (text : List Char) : Blaming (Token.Stands text) (Error.Shown text) :=
  fun _ expected ht => ht.shown expected

/-- The stream of a text is made of tokens that stand in it, and of errors that show in it. -/
theorem sound_ofBytes (text : List Char) :
    (Stream.ofBytes (Utf8.encode text)).Sound (Token.Stands text) (Error.Shown text) := by
  obtain ⟨htokens, hending, herror⟩ := stands_tokensFrom [] text
  exact ⟨htokens, hending, herror⟩

/-- Scripts that blame tokens, whatever is taken for their class. -/
def Script.Honest (x : Script α) : Prop :=
  ∀ {ok : Token → Prop} {Fault : Error → Prop}, Blaming ok Fault →
    x.Blames ok Fault fun _ => True

/-- `Cursor.peek` shows next what the stream of the cursor shows. -/
theorem Cursor.peek_zero_of_run (x : Script α) (data : List UInt8) :
    (Cursor.peek 0 ((ofBytes data).run x).2).1 = ((ofBytes data).run x).2.toStream.tokenAt 0 :=
  (congrArg Prod.fst (agree_peek 0 _ (run_ofBytes x data).2).1).symm

/-- An error that `readSignature` raises shows in its text. -/
theorem shown_of_readSignature {x : Script α} (hx : x.Honest) {lenient : Bool} {text : List Char}
    {e : Error} (h : readSignature x lenient text = .error e) : e.Shown text := by
  have hblaming := blaming_shown text
  have hfair := (hx hblaming).fair hblaming _ (sound_ofBytes text)
  have hpeek := Cursor.peek_zero_of_run x (Utf8.encode text)
  rw [Cursor.reading_ofBytes] at hfair
  unfold readSignature at h
  split at h
  · rename_i e' c hrun
    cases h
    exact hfair.2 e (congrArg Prod.fst hrun)
  · rename_i a c hrun
    rw [show (Cursor.ofBytes (Utf8.encode text)).run x = (.ok a, c) from hrun] at hfair hpeek
    simp only at hpeek
    simp only [acceptTrailing, hpeek] at h
    cases htoken : c.toStream.tokenAt 0 with
    | error e' =>
      rw [htoken] at h
      cases h
      exact hfair.1.tokenAt_error htoken
    | ok t =>
      rw [htoken] at h
      simp only at h
      split at h
      · cases h
      split at h
      · cases h
      · cases h
        exact (hfair.1.tokenAt htoken).shown "end of input"

end TypeNotes.Signature
