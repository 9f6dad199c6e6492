import TypeNotes.Proofs.Signature.Reading

/-!
# What signatures are made of

No signature has a dash or a per cent sign among its tokens: a dash opens the remark after a
signature, and a per cent sign may turn into a tag when more text follows it. Only members of
classes can have them, as names of operators.

`Script.Picks` is the analysis behind this. It follows a script with the tokens that it will be
shown, the *window*, and asks that every token it takes is native to signatures. Behind a call the
window is any other one. Every phrase but members and declarations passes in one sweep over the
grammar (`Phrase.picks_script`), and with it all runs are told (`Script.Picks.native_of_gives`).
-/

namespace TypeNotes.Signature

open Script Grammar

variable {α β : Type}

/-! ### Marks and their spelling -/

/-- The text of a mark is the mark. -/
def Token.Spelled (t : Token) : Prop := ∀ text, t.kind = .mark text → t.text = text

/-- Dashes and per cent signs. -/
def Token.isForeign (t : Token) : Bool := t.kind == .mark "-" || t.kind == .mark "%"

/-- The token can stand in a signature. -/
def Token.Native (t : Token) : Prop := t.Spelled → t.isForeign = false

/-- A token of a kind other than the two foreign marks is native (`Token.Native`). -/
theorem Token.native_of_kind {t : Token} (h : t.kind ≠ .mark "-" ∧ t.kind ≠ .mark "%") :
    t.Native := by
  simpa [Native, isForeign] using fun _ => h

/-- A token whose text is not that of a foreign mark is native. -/
theorem Token.native_of_text {t : Token} {text : String} (h : t.text = text)
    (htext : text ≠ "-" ∧ text ≠ "%") : t.Native := by
  intro hspelled
  refine Bool.or_eq_false_iff.2 ⟨beq_eq_false_iff_ne.2 fun hkind => ?_,
    beq_eq_false_iff_ne.2 fun hkind => ?_⟩
  · exact htext.1 (h.symm.trans (hspelled _ hkind))
  · exact htext.2 (h.symm.trans (hspelled _ hkind))

/-- What is read as a mark is the text of this mark. -/
theorem Spelling.kind_eq_mark {spelling : Spelling} (h : spelling ∈ Spelling.all)
    {lexeme text : String} (hkind : spelling.kind lexeme = .mark text) : lexeme = text := by
  have hword : Kind.ofWord lexeme ≠ .mark text := by
    rw [Kind.ofWord]
    split <;> simp
  simp only [Spelling.all, List.mem_cons, List.not_mem_nil, or_false] at h
  rcases h with rfl | rfl | rfl | rfl | rfl | rfl | rfl | rfl | rfl | rfl | rfl | rfl | rfl | rfl |
    rfl | rfl | rfl | rfl
  all_goals simp_all [Spelling.tag, Spelling.operator, Spelling.ofMark, Spelling.lowerKey,
    Spelling.upperKey, Spelling.symbol, Spelling.instanceVariable, Spelling.globalVariable,
    Spelling.interfaceName, Spelling.upperName, Spelling.lowerName, Spelling.integer,
    Spelling.string, Spelling.mark]

/-- A token of `Token.read` is spelled like its mark. -/
theorem Token.spelled_of_read {offset : Nat} {s rest : List UInt8} {t : Token}
    (h : Token.read offset s = .ok (t, rest)) : t.Spelled := by
  unfold Token.read at h
  split at h
  rename_i gap tail _
  split at h
  · cases h
    exact fun text htext => by cases htext
  · split at h
    · rename_i spelling lexeme _ hlexeme
      obtain ⟨_, hmem, hsplit⟩ := List.exists_of_findSome?_eq_some hlexeme
      obtain ⟨_, _, heq⟩ := Option.map_eq_some_iff.1 hsplit
      cases heq
      cases h
      exact fun text htext => Spelling.kind_eq_mark hmem htext
    · split at h <;> cases h

/-- All tokens of `tokensFrom` are spelled like their marks. -/
theorem spelled_of_mem_tokensFrom {offset : Nat} {s : List UInt8} {t : Token}
    (h : t ∈ (tokensFrom offset s).1) : t.Spelled := by
  fun_induction tokensFrom offset s with
  | case1 => cases h
  | case2 => cases h
  | case3 offset s u rest hread hend tokens ending heq ih =>
    rcases List.mem_cons.1 h with rfl | h
    · exact Token.spelled_of_read hread
    · exact ih (heq ▸ h)

/-! ### Windows -/

/-- Whether a phrase holds no members of classes. -/
def Phrase.isMemberless : Phrase → Bool
  | members | declarations => false
  | _ => true

/-- What holds of the answers of a phrase: a path of names to be used ends with a name. -/
def Phrase.Sensible : (p : Phrase) → p.Answer → Prop
  | usePath, a => ∀ kind ∈ (a : Option Kind), kind ∈ nameKinds
  | _, _ => True

/-- Follows a script with the tokens that come next. Every token that is taken is native, no phrase
that is called holds members, and at the end the answer and the tokens that come next then have the
property `post`. -/
def Script.Picks : Script α → (Nat → Token) → (α → (Nat → Token) → Prop) → Prop
  | done a, w, post => post a w
  | fail _, _, _ => True
  | peekAt ahead next, w, post => (next (w ahead)).Picks w post
  | take next, w, post => (w 0).Native ∧ (next (w 0)).Picks (fun i => w (i + 1)) post
  | askEnd next, w, post => ∀ n, (next n).Picks w post
  | cutFrom _ next, w, post => ∀ text, (next text).Picks w post
  | read p next, _, post => p.isMemberless = true ∧ ∀ a w, p.Sensible a → (next a).Picks w post

namespace Script

variable {w : Nat → Token}

/-- `Script.Picks` goes through one script and then through what follows it, with the tokens left in
the window. -/
@[simp]
theorem picks_bind (x : Script α) (f : α → Script β) (post : β → (Nat → Token) → Prop) :
    (x.bind f).Picks w post ↔ x.Picks w fun a w => (f a).Picks w post := by
  induction x generalizing w with
  | done a => rfl
  | fail e => rfl
  | peekAt ahead next ih => simp only [Script.bind, Picks, ih]
  | take next ih => simp only [Script.bind, Picks, ih]
  | askEnd next ih => simp only [Script.bind, Picks, ih]
  | cutFrom start next ih => simp only [Script.bind, Picks, ih]
  | read p next ih => simp only [Script.bind, Picks, ih]

@[simp]
theorem picks_done (a : α) (post : α → (Nat → Token) → Prop) :
    (done a).Picks w post ↔ post a w := Iff.rfl

@[simp]
theorem picks_fail (e : Error) (post : α → (Nat → Token) → Prop) :
    (fail e).Picks w post ↔ True := Iff.rfl

@[simp]
theorem picks_peek (post : Token → (Nat → Token) → Prop) :
    peek.Picks w post ↔ post (w 0) w := Iff.rfl

@[simp]
theorem picks_peekSecond (post : Token → (Nat → Token) → Prop) :
    peekSecond.Picks w post ↔ post (w 1) w := Iff.rfl

@[simp]
theorem picks_peekThird (post : Token → (Nat → Token) → Prop) :
    peekThird.Picks w post ↔ post (w 2) w := Iff.rfl

/-- For `skip`, only the token that is taken has to be native. -/
@[simp]
theorem picks_skip (post : Unit → (Nat → Token) → Prop) :
    skip.Picks w post ↔ (w 0).Native ∧ post () fun i => w (i + 1) := Iff.rfl

@[simp]
theorem picks_advance (post : Token → (Nat → Token) → Prop) :
    advance.Picks w post ↔ (w 0).Native ∧ post (w 0) fun i => w (i + 1) := Iff.rfl

@[simp]
theorem picks_lastEnd (post : Nat → (Nat → Token) → Prop) :
    lastEnd.Picks w post ↔ ∀ n, post n w := Iff.rfl

@[simp]
theorem picks_textSince (start : Nat) (post : String → (Nat → Token) → Prop) :
    (textSince start).Picks w post ↔ ∀ text, post text w := Iff.rfl

/-- Behind a phrase the window may show any tokens. -/
@[simp]
theorem picks_read (p : Phrase) (next : p.Answer → Script α)
    (post : α → (Nat → Token) → Prop) :
    (read p next).Picks w post ↔
      p.isMemberless = true ∧ ∀ a w, p.Sensible a → (next a).Picks w post := Iff.rfl

/-- Both branches of a test are followed. -/
@[simp]
theorem picks_ite {c : Prop} [Decidable c] (x y : Script α) (post : α → (Nat → Token) → Prop) :
    (if c then x else y).Picks w post ↔ (c → x.Picks w post) ∧ (¬ c → y.Picks w post) := by
  split <;> simp_all

@[simp]
theorem picks_nextIs (kind : Kind) (post : Bool → (Nat → Token) → Prop) :
    (nextIs kind).Picks w post ↔ post ((w 0).kind == kind) w := Iff.rfl

@[simp]
theorem picks_nextIsMark (mark : String) (post : Bool → (Nat → Token) → Prop) :
    (nextIsMark mark).Picks w post ↔ post ((w 0).kind == .mark mark) w := Iff.rfl

@[simp]
theorem picks_atEnd (post : Bool → (Nat → Token) → Prop) :
    atEnd.Picks w post ↔ post ((w 0).kind == .endOfInput) w := Iff.rfl

/-- `nextThen` tells what two tokens are and takes none of them. -/
@[simp]
theorem picks_nextThen (mark : String) (fits : Token → Bool)
    (post : Bool → (Nat → Token) → Prop) :
    (nextThen mark fits).Picks w post ↔ post ((w 0).kind == .mark mark && fits (w 1)) w := by
  cases h : (w 0).kind == .mark mark <;> simp [nextThen, h, peekSecond, Picks]

/-- A weaker property of answers and windows is enough. -/
theorem Picks.imp {x : Script α} {post post' : α → (Nat → Token) → Prop} (h : x.Picks w post)
    (himp : ∀ a w, post a w → post' a w) : x.Picks w post' := by
  induction x generalizing w with
  | done a => exact himp a w h
  | fail e => exact h
  | peekAt ahead next ih => exact ih _ h
  | take next ih => exact ⟨h.1, ih _ h.2⟩
  | askEnd next ih => exact fun n => ih n (h n)
  | cutFrom start next ih => exact fun text => ih text (h text)
  | read p next ih => exact ⟨h.1, fun a w ha => ih a (h.2 a w ha)⟩

/-- A token that `acceptAny` takes is of one of the kinds that were asked for, so no dash or per
cent sign is taken if none of them was. -/
theorem picks_acceptAny {kinds : List Kind} (hkinds : .mark "-" ∉ kinds ∧ .mark "%" ∉ kinds) :
    (acceptAny kinds).Picks w fun r _ => ∀ t ∈ r, t.kind ∈ kinds := by
  simp only [acceptAny, bind_eq, pure_eq, picks_bind, picks_peek, picks_ite, picks_advance,
    picks_done, List.contains_eq_mem, decide_eq_true_eq]
  refine ⟨fun hmem => ⟨Token.native_of_kind ⟨fun heq => ?_, fun heq => ?_⟩, ?_⟩, by simp⟩
  · exact hkinds.1 (heq ▸ hmem)
  · exact hkinds.2 (heq ▸ hmem)
  · simpa using hmem

/-- The same for `acceptKind`. -/
@[simp]
theorem picks_acceptKind {kind : Kind} (h : kind ≠ .mark "-" ∧ kind ≠ .mark "%") :
    (acceptKind kind).Picks w fun _ _ => True := by
  simp only [acceptKind, bind_eq, pure_eq, picks_bind, picks_done]
  exact (picks_acceptAny (by simpa [eq_comm] using h)).imp fun _ _ _ => trivial

@[simp]
theorem picks_accept {mark : String} (h : mark ≠ "-" ∧ mark ≠ "%") :
    (accept mark).Picks w fun _ _ => True := picks_acceptKind (by simpa using h)

/-- What `expectAny` takes is of one of the kinds. -/
theorem picks_expectAny_mem {kinds : List Kind} (h : .mark "-" ∉ kinds ∧ .mark "%" ∉ kinds)
    (expected : String) : (expectAny kinds expected).Picks w fun t _ => t.kind ∈ kinds := by
  simp only [expectAny, bind_eq, picks_bind]
  refine (picks_acceptAny h).imp ?_
  rintro (_ | t) w hmem
  · trivial
  · exact hmem t rfl

/-- The same for `expectAny`, where a token is insisted on. -/
@[simp]
theorem picks_expectAny {kinds : List Kind} (h : .mark "-" ∉ kinds ∧ .mark "%" ∉ kinds)
    (expected : String) : (expectAny kinds expected).Picks w fun _ _ => True :=
  (picks_expectAny_mem h expected).imp fun _ _ _ => trivial

@[simp]
theorem picks_expect {mark : String} (h : mark ≠ "-" ∧ mark ≠ "%") :
    (expect mark).Picks w fun _ _ => True := by
  simp only [expect, bind_eq, pure_eq, picks_bind, picks_done]
  exact picks_expectAny (by simpa [eq_comm] using h) _

/-- `spanned` takes no tokens besides those that its script takes. -/
@[simp]
theorem picks_spanned {body : Script Unit} (h : body.Picks w fun _ _ => True) :
    (spanned body).Picks w fun _ _ => True := by
  simp [spanned, h]

end Script

/-! ### One sweep over the grammar -/

section Sweep

variable {w : Nat → Token}

/-- Names are made of native tokens; and so is each script below, which is made of such parts. -/
@[simp]
theorem picks_qualified (sort : NameSort) : (qualified sort).Picks w fun _ _ => True := by
  simp [qualified, call, Phrase.isMemberless]

@[simp]
theorem picks_intersection : intersection.Picks w fun _ _ => True := by
  simp [intersection, call, Phrase.isMemberless]

@[simp]
theorem picks_typeBody : typeBody.Picks w fun _ _ => True := by
  simp [typeBody, call, Phrase.isMemberless]

@[simp]
theorem picks_type : type.Picks w fun _ _ => True := by
  simp [type]

@[simp]
theorem picks_arguments : arguments.Picks w fun _ _ => True := by
  simp [arguments, call, Phrase.isMemberless]

@[simp]
theorem picks_parameters : parameters.Picks w fun _ _ => True := by
  simp only [parameters, bind_eq, pure_eq, picks_bind]
  refine (picks_expect (by decide)).imp fun _ _ _ => (picks_accept (by decide)).imp fun _ w _ => ?_
  simp only [picks_ite, picks_bind, picks_nextThen, picks_done, picks_skip, Bool.and_eq_true,
    beq_iff_eq, implies_true, and_true, true_and]
  refine fun _ => ⟨?_, fun _ => by simp [call, Phrase.isMemberless]⟩
  rintro ⟨hmark, hclose⟩
  refine ⟨?_, ?_⟩
  · exact Token.native_of_kind (by simp [hmark])
  · exact Token.native_of_kind (by simp [hclose])

@[simp]
theorem picks_selfBinding : selfBinding.Picks w fun _ _ => True := by
  simp only [selfBinding, bind_eq, pure_eq, picks_bind, picks_nextThen, picks_ite, picks_done,
    picks_skip, Bool.and_eq_true, beq_iff_eq, implies_true, and_true]
  rintro ⟨hmark, hself⟩
  refine ⟨?_, ?_, by simp⟩
  · exact Token.native_of_kind (by simp [hmark])
  · exact Token.native_of_text hself (by decide)

@[simp]
theorem picks_parametersAndSelf : parametersAndSelf.Picks w fun _ _ => True := by
  simp [parametersAndSelf, parameters?]

@[simp]
theorem picks_result : result.Picks w fun _ _ => True := by
  simp [result, call, Phrase.isMemberless]

@[simp]
theorem picks_block : block.Picks w fun _ _ => True := by
  simp only [block, blockMark, bind_eq, pure_eq, picks_bind, picks_nextThen, picks_ite, picks_skip,
    picks_done, Bool.and_eq_true, beq_iff_eq]
  refine ⟨fun h => ⟨?_, by simp⟩, fun _ => by simp⟩
  exact Token.native_of_kind (by simp [h.1])

/-- Base types and literals are no marks. -/
theorem Kind.ne_mark_of_isLiteral {kind : Kind} (h : kind.isBaseType = true ∨ kind.isLiteral = true)
    (text : String) : kind ≠ .mark text := by
  rintro rfl
  simp [Kind.isBaseType, Kind.isLiteral] at h

@[simp]
theorem picks_simple : simple.Picks w fun _ _ => True := by
  simp only [simple, bind_eq, picks_bind, picks_peek]
  split <;> simp_all [Token.native_of_kind, procedure, call, Phrase.isMemberless]
  exact fun h => Token.native_of_kind ⟨Kind.ne_mark_of_isLiteral h _, Kind.ne_mark_of_isLiteral h _⟩

@[simp]
theorem picks_recordKey : recordKey.Picks w fun _ _ => True := by
  simp only [recordKey, bind_eq, picks_bind, picks_peek, picks_ite, picks_skip, picks_fail]
  refine ⟨fun hkey => ⟨Token.native_of_kind ?_, trivial⟩,
    fun _ => ⟨fun hkind => ⟨Token.native_of_kind ?_, by simp⟩, fun _ => trivial⟩⟩
  · constructor <;> (intro heq; simp [heq, Kind.isKey] at hkey)
  · constructor <;> (intro heq; simp [heq, Kind.isLiteral, Kind.isName] at hkind)

@[simp]
theorem picks_parameterHead (afterKey : Bool) :
    (parameterHead afterKey).Picks w fun _ _ => True := by
  simp only [parameterHead, bind_eq, pure_eq, picks_bind, picks_peek, picks_ite, picks_skip,
    picks_fail, picks_nextThen, picks_done, Bool.and_eq_true, Bool.or_eq_true, beq_iff_eq,
    implies_true, and_true, true_and]
  have hkey : ∀ {t : Token}, t.kind.isKey = true → t.Native := by
    intro t h
    refine Token.native_of_kind ⟨fun heq => ?_, fun heq => ?_⟩ <;> simp [heq, Kind.isKey] at h
  refine ⟨fun h => ⟨Token.native_of_kind (by simp [h.1]), hkey h.2⟩,
    fun _ => ⟨fun h => ?_, fun _ _ h => ?_⟩⟩
  · exact h.elim hkey fun h => Token.native_of_kind (by simp [h])
  · exact Token.native_of_kind (by rcases h with h | h <;> simp [h])

@[simp]
theorem picks_classReferenceBody : classReferenceBody.Picks w fun _ _ => True := by
  simp [classReferenceBody]

@[simp]
theorem picks_classReference : classReference.Picks w fun _ _ => True := by
  simp [classReference]

@[simp]
theorem picks_typeParameter (withVariance : Bool) :
    (typeParameter withVariance).Picks w fun _ _ => True := by
  simp [typeParameter, variance?, typeAfter]

@[simp]
theorem picks_typeParameters? (withVariance : Bool) :
    (typeParameters? withVariance).Picks w fun _ _ => True := by
  simp [typeParameters?, typeParameters, call, Phrase.isMemberless]

@[simp]
theorem picks_methodType : methodType.Picks w fun _ _ => True := by
  simp [methodType, methodTypeBody]

/-- A dash or a per cent sign is none of `nameKinds`. -/
theorem not_mem_nameKinds : .mark "-" ∉ nameKinds ∧ .mark "%" ∉ nameKinds := by decide

@[simp]
theorem picks_useClause : useClause.Picks w fun _ _ => True := by
  refine picks_spanned ?_
  simp only [bind_eq, picks_bind, call, picks_read, picks_done]
  refine (picks_accept (by decide)).imp fun _ _ _ => ⟨rfl, ?_⟩
  rintro (_ | kind) w hkind
  · trivial
  · have hname : kind ∈ nameKinds := hkind kind rfl
    have hne : .mark "-" ∉ [kind] ∧ .mark "%" ∉ [kind] := by
      simp only [List.mem_singleton]
      exact ⟨fun heq => not_mem_nameKinds.1 (heq ▸ hname),
        fun heq => not_mem_nameKinds.2 (heq ▸ hname)⟩
    simp only [picks_bind, picks_peek, picks_ite, picks_skip, pure_eq, picks_done,
      picks_expectAny hne, Bool.and_eq_true, beq_iff_eq, implies_true, and_true]
    exact fun h => Token.native_of_kind (by simp [h.1])

/-- No phrase without members takes a foreign token. -/
theorem Phrase.picks_script {p : Phrase} (h : p.isMemberless = true) :
    p.script.Picks w fun a _ => p.Sensible a := by
  cases p with
  | members | declarations => cases h
  | path sort =>
    cases sort <;>
      simp [Phrase.script, call, isMemberless, NameSort.kinds, nameKinds, Sensible]
  | usePath =>
    simp only [Phrase.script, bind_eq, pure_eq, picks_bind]
    refine (picks_expectAny_mem not_mem_nameKinds _).imp fun t w ht => ?_
    have hlast : ∀ kind ∈ some t.kind, kind ∈ nameKinds := by
      rintro _ ⟨⟩
      exact ht
    rw [picks_ite, picks_bind, picks_done]
    refine ⟨fun _ => (picks_accept (by decide)).imp fun more w _ => ?_, fun _ => hlast⟩
    rw [picks_ite, picks_bind, picks_done]
    refine ⟨fun _ => (picks_accept (by decide)).imp fun all w _ => ?_, fun _ => hlast⟩
    rw [picks_ite]
    exact ⟨fun _ kind hkind => (Option.not_mem_none _ hkind).elim, fun _ => ⟨rfl, fun a w ha => ha⟩⟩
  | tags | constantPath =>
    simp [Phrase.script, call, isMemberless, Sensible]
    exact fun h => Token.native_of_kind (by simp [h])
  | _ => simp [Phrase.script, call, isMemberless, Sensible]

@[simp]
theorem picks_blockSignature : blockSignature.Picks w fun _ _ => True := by
  simp [blockSignature]

@[simp]
theorem picks_typeList : typeList.Picks w fun _ _ => True := by
  simp [typeList, call, Phrase.isMemberless]

@[simp]
theorem picks_selfTypes : selfTypes.Picks w fun _ _ => True := by
  simp [selfTypes, call, Phrase.isMemberless]

@[simp]
theorem picks_useClauses : useClauses.Picks w fun _ _ => True := by
  simp [useClauses, call, Phrase.isMemberless]

@[simp]
theorem picks_moduleHead : moduleHead.Picks w fun _ _ => True := by
  simp [moduleHead]

@[simp]
theorem picks_classHead : classHead.Picks w fun _ _ => True := by
  simp [classHead]

end Sweep

/-! ### Runs -/

/-- The tokens that a stream shows, one after another. -/
def Stream.window (s : Stream) (ahead : Nat) : Token :=
  match s.tokenAt ahead with
  | .ok t => t
  | .error _ => Token.eof 0

namespace Stream

variable {s : Stream}

/-- A token that a stream shows is the one in its window. -/
theorem window_of_tokenAt {ahead : Nat} {t : Token} (h : s.tokenAt ahead = .ok t) :
    s.window ahead = t := by
  rw [window, h]

/-- Taking a token moves the `window` by one. -/
theorem window_rest : s.rest.window = fun ahead => s.window (ahead + 1) := by
  funext ahead
  rw [window, window, tokenAt_succ]

/-- Taking the next token takes it and nothing else, or nothing at the end of input. -/
theorem mem_take_one {t u : Token} (h : s.tokenAt 0 = .ok t) (hu : u ∈ s.tokens.take 1) :
    u = t := by
  cases htokens : s.tokens with
  | nil => simp [htokens] at hu
  | cons v tokens =>
    obtain rfl : v = t := by simpa [tokenAt, htokens] using h
    simpa [htokens] using hu

end Stream

/-- If an answer was given, it has the property, and only native tokens were taken for it. -/
def NativelyTaken (post : α → Prop) (s : Stream) (outcome : Except Error α × Stream) : Prop :=
  ∀ a s', outcome = (.ok a, s') → post a ∧ ∃ taken, s.Takes taken s' ∧ ∀ t ∈ taken, t.Native

/-- A script that picks native tokens takes no others, if reading phrases does not. -/
theorem Script.Picks.run {f : Performer}
    (hf : ∀ p s, p.isMemberless = true → NativelyTaken p.Sensible s (f p s)) {x : Script α}
    {post : α → Prop} {s : Stream} (hx : x.Picks s.window fun a _ => post a) :
    NativelyTaken post s (x.run f s) := by
  induction x generalizing s with
  | done a =>
    rintro _ _ ⟨⟩
    exact ⟨hx, [], .refl s, by simp⟩
  | fail e => exact fun _ _ h => by cases h
  | peekAt ahead next ih =>
    simp only [Script.run, Supply.peek, Stream.peek]
    cases htoken : s.tokenAt ahead with
    | error e => exact fun _ _ h => by cases h
    | ok t =>
      rw [Script.Picks, Stream.window_of_tokenAt htoken] at hx
      exact ih t hx
  | take next ih =>
    simp only [Script.run, Supply.advance, Stream.advance]
    cases htoken : s.tokenAt 0 with
    | error e => exact fun _ _ h => by cases h
    | ok t =>
      rw [Script.Picks, Stream.window_of_tokenAt htoken, ← Stream.window_rest] at hx
      intro a s' h
      obtain ⟨hpost, taken, htaken, hnative⟩ := ih t hx.2 a s' h
      refine ⟨hpost, _, s.takes_rest.trans htaken, fun u hu => ?_⟩
      rcases List.mem_append.1 hu with hu | hu
      · exact Stream.mem_take_one htoken hu ▸ hx.1
      · exact hnative u hu
  | askEnd next ih => exact ih _ (hx _)
  | cutFrom start next ih => exact ih _ (hx _)
  | read p next ih =>
    rw [Script.run]
    rcases hr : f p s with ⟨_ | b, s₁⟩
    · exact fun _ _ h => by cases h
    · obtain ⟨hsensible, first, hfirst, hnative⟩ := hf p s hx.1 b s₁ hr
      intro a s' h
      obtain ⟨hpost, more, hmore, hmore'⟩ := ih b (hx.2 b s₁.window hsensible) a s' h
      refine ⟨hpost, _, hfirst.trans hmore, fun u hu => ?_⟩
      exact (List.mem_append.1 hu).elim (hnative u) (hmore' u)

/-- Reading a phrase without members takes native tokens only. -/
theorem Phrase.nativelyTaken_reading {p : Phrase} (hp : p.isMemberless = true) (s : Stream) :
    NativelyTaken p.Sensible s (p.reading s) := by
  refine Phrase.reading_invariant
    (fun p s outcome => p.isMemberless = true → NativelyTaken p.Sensible s outcome) (fun p s => ?_)
    (fun f hf p s hp => ?_) p s hp
  · exact ⟨(.error ⟨.tooDeep, 0, 0⟩, s), fun _ _ _ h => by cases h⟩
  · exact (Phrase.picks_script hp).run hf

/-- A script that picks native tokens takes no others. -/
theorem Script.Picks.native_of_gives {x : Script α} {post : α → Prop} {s s' : Stream} {a : α}
    (hx : x.Picks s.window fun a _ => post a) (h : x.Gives s a s') :
    ∃ taken, s.Takes taken s' ∧ ∀ t ∈ taken, t.Native :=
  (hx.run (fun _ s hp => Phrase.nativelyTaken_reading hp s) a s' h).2

/-- What is taken from the tokens of a signature has no foreign tokens. -/
theorem Script.Picks.isForeign_of_gives {x : Script α} {data : List UInt8} {s' : Stream} {a : α}
    (hx : ∀ w, x.Picks w fun _ _ => True) (h : x.Gives (Stream.ofBytes data) a s') :
    ∃ taken, (Stream.ofBytes data).Takes taken s' ∧ ∀ t ∈ taken, t.isForeign = false := by
  obtain ⟨taken, htaken, hnative⟩ := (hx _).native_of_gives h
  refine ⟨taken, htaken, fun t ht => hnative t ht ?_⟩
  have hmem : t ∈ (Stream.ofBytes data).tokens := htaken.tokens ▸ List.mem_append_left _ ht
  exact @spelled_of_mem_tokensFrom 0 data t hmem

end TypeNotes.Signature
