import TypeNotes.Proofs.Signature.Recognition
import TypeNotes.Proofs.Signature.Viability

/-!
# Where reading a type stops

A type that cannot be read is wrong at the place that its error names, and not before it: the tokens
in front of that place are the start of some type (`stalls_whole_type`). There is one lemma for each
script, and the form in it is the one that the script reads in `Soundness`.

**Recursion.** The induction is that of `Soundness` too: types and optional types that fail among
fewer tokens are known to stall (`TypesStall`).

**Looking ahead.** A question mark or a bracket may stand in front of the error without having been
taken, if the token behind it could not be read. It is viable all the same: it is completed to what
the script was looking for.
-/

namespace TypeNotes.Signature

open Script Grammar

variable {s s' s₁ : Stream} {e : Error}

/-! ### Small scripts -/

theorem passes_of_expect {mark : String} {u : Unit} (h : (expect mark).Gives s u s') :
    s.Passes (.mark mark) s' := .of_gives h (cut_of_expect h)

/-- A mark that is missing can be completed, if it is one of the `fillers`. -/
theorem stalls_expect {mark : String} (h : (expect mark).Fails s e s')
    (hmark : (.mark mark, mark) ∈ fillers) : Stalls (.mark mark) s e s' :=
  .here (blocked_of_expect h) (.mark hmark)

/-- A mark that `accept` asks for is passed, or the stream stays as it is. -/
theorem passes_of_accept {mark : String} {b : Bool} (h : (accept mark).Gives s b s') :
    b = true ∧ s.Passes (.mark mark) s' ∨ b = false ∧ s = s' :=
  (cut_of_accept h).imp_left (And.imp_right (.of_gives h))

theorem passes_maybe_of_accept {mark : String} {b : Bool} (h : (accept mark).Gives s b s') :
    s.Passes (.maybe (.mark mark)) s' := .of_gives h (cut_maybe_of_accept h)

/-- `nextThen` fails at once, or behind the mark. -/
theorem cases_of_fails_nextThen {mark : String} {fits : Token → Bool}
    (h : (nextThen mark fits).Fails s e s') : s.tokenAt 0 = .error e ∧ s = s' ∨
      s = s' ∧ s.Passes (.mark mark) s.rest ∧ s.rest.tokenAt 0 = .error e := by
  obtain ⟨rfl, herror | ⟨t, ht, hkind, herror⟩⟩ := fails_nextThen.1 h
  · exact .inl ⟨herror, rfl⟩
  · exact .inr ⟨rfl, .rest (cut_rest ht (by simp [hkind]) (by simpa using hkind)), herror⟩

/-! ### Names -/

/-- An error in a path stands behind viable parts of it (`Stalls`). -/
theorem stalls_path (h : (call (.path .type)).Fails s e s') :
    Stalls (.many (.ofKind .upperName >> .mark "::") >> .nameEnd) s e s' := by
  induction hlen : s.tokens.length using Nat.strongRecOn generalizing s with
  | ind n ih =>
    subst hlen
    rw [fails_call] at h
    simp only [Phrase.script, bind_eq, pure_eq, fails_bind, gives_expectAny] at h
    obtain h | ⟨t, _, ⟨ht, hmem, rfl⟩, h⟩ := h
    · exact .here (blocked_of_expectAny h) (.inFront .stop .nameEnd)
    split at h
    · rename_i hupper
      have hkind : t.kind = .upperName := by simpa using hupper
      have hmore : t.kind ≠ .endOfInput := by simp [hkind]
      simp only [fails_bind, fails_accept] at h
      obtain h | ⟨b, s₁, hb, h⟩ := h
      · -- The name may end here.
        have hname : Cut .nameEnd s.tokens s.rest.tokens :=
          cut_rest ht hmore (by simp [hkind, Kind.isName])
        exact .behind .stop (.ended (.rest hname) ⟨.inl h.1, h.2⟩)
      have hcut : Cut (.ofKind .upperName) s.tokens s.rest.tokens := cut_rest ht hmore hupper
      rcases passes_of_accept hb with ⟨rfl, hsep⟩ | ⟨rfl, rfl⟩
      · rw [if_pos rfl] at h
        have hlt := Stream.length_rest_lt ht (by simpa [Token.isEnd] using hmore)
        have := hb.length_le
        exact .again (.andThen (.rest hcut) hsep) (ih _ (by omega) h rfl)
      · simp at h
    · simp at h

/-- An error in a name stands behind a viable start of it. -/
theorem stalls_qualified (h : (qualified .type).Fails s e s') : Stalls (.phrase .name) s e s' := by
  simp only [qualified, bind_eq, fails_bind, fails_accept] at h
  obtain h | ⟨b, s₁, hroot, h⟩ := h
  · exact .of_error h .name
  · exact .phrase (.behind (passes_maybe_of_accept hroot) (stalls_path h))

/-! ### Parts of types -/

/-- Types and optional types that fail among fewer tokens stall. -/
def TypesStall (count : Nat) : Prop :=
  ∀ s e s', s.tokens.length < count →
    ((call .optional).Fails s e s' → Stalls (.phrase .optional) s e s') ∧
    (typeBody.Fails s e s' → Stalls (.phrase .type) s e s')

/-- A type that is read is passed (`Passes`). -/
theorem passes_of_typeBody {u : Unit} (h : typeBody.Gives s u s') : s.Passes (.phrase .type) s' :=
  .of_gives h (cut_typeBody h)

theorem passes_of_optional {u : Unit} (h : (call .optional).Gives s u s') :
    s.Passes (.phrase .optional) s' := .of_gives h (cut_optional (typesSound _) (Nat.le_refl _) h)

theorem passes_of_intersection {u : Unit} (h : intersection.Gives s u s') :
    s.Passes (.phrase .intersection) s' :=
  .of_gives h (cut_intersection (typesSound _) (Nat.le_refl _) h)

/-- Parameters that are read, if any, are passed. -/
theorem passes_of_parameters? {u : Unit} (h : parameters?.Gives s u s') :
    s.Passes (.maybe (.phrase .parameters)) s' := by
  refine .of_gives h ?_
  simp only [parameters?, nextIsMark, bind_eq, pure_eq, gives_bind, gives_nextIs] at h
  obtain ⟨_, _, ⟨-, rfl⟩, h⟩ := h
  split at h
  · exact .some (cut_parameters (typesSound _) (Nat.le_refl _) h)
  · obtain ⟨-, rfl⟩ := gives_done.1 h
    exact .none

theorem passes_of_parametersAndSelf {u : Unit} (h : parametersAndSelf.Gives s u s') :
    s.Passes (.maybe (.phrase .parameters) >> .maybe (.phrase .selfBinding)) s' :=
  .of_gives h (cut_parametersAndSelf (typesSound _) (Nat.le_refl _) h)

/-- A result that is read is passed. -/
theorem passes_of_result {u : Unit} (h : result.Gives s u s') :
    s.Passes (.mark "->" >> .phrase .optional) s' :=
  .of_gives h (cut_result (typesSound _) (Nat.le_refl _) h)

section Parts

variable {count : Nat} (ih : TypesStall count)

include ih

/-- An error in further arguments stands behind a viable list of them. -/
theorem stalls_argumentTail (hs : s.tokens.length < count)
    (h : (call .argumentTail).Fails s e s') :
    Stalls (.many (.mark "," >> .phrase .type) >> .maybe (.mark ",")) s e s' := by
  induction hlen : s.tokens.length using Nat.strongRecOn generalizing s with
  | ind n loop =>
    subst hlen
    rw [fails_call] at h
    simp only [Phrase.script, bind_eq, pure_eq, fails_bind, fails_accept] at h
    obtain h | ⟨b, s₁, hb, h⟩ := h
    · exact .of_error h (.inFront .stop .none)
    rcases passes_of_accept hb with ⟨rfl, hcomma⟩ | ⟨rfl, rfl⟩
    · have hlt := hcomma.cut.length_lt_of_mark
      simp only [if_pos, nextIsMark, fails_bind, fails_nextIs, gives_nextIs] at h
      obtain h | ⟨b, _, ⟨-, rfl⟩, h⟩ := h
      · exact .behind .stop (.some (.ended hcomma ⟨.inl h.1, h.2⟩))
      split at h
      · simp at h
      rw [fails_bind] at h
      refine .separated hcomma ?_
      obtain h | ⟨_, s₂, htype, h⟩ := h
      · exact .inFront ((ih _ _ _ (by omega)).2 h) (.inFront .stop .none)
      · have hle := htype.length_le
        exact .behind (passes_of_typeBody htype) (loop _ (by omega) (by omega) h rfl)
    · simp at h

/-- An error in arguments stands behind a viable list, which its bracket completes. -/
theorem stalls_arguments (hs : s.tokens.length < count) (h : arguments.Fails s e s') :
    Stalls (.phrase .types >> .mark "]") s e s' := by
  simp only [arguments, bind_eq, fails_bind] at h
  obtain h | ⟨_, s₁, htype, h | ⟨_, s₂, htail, h⟩⟩ := h
  · exact .inFront (.phrase (.inFront ((ih _ _ _ hs).2 h) (.inFront .stop .none)))
      (.mark (by decide))
  · have hle := htype.length_le
    have htail := stalls_argumentTail ih (by omega) h
    exact .inFront (.phrase (.behind (passes_of_typeBody htype) htail)) (.mark (by decide))
  · have htail' := Stream.Passes.of_gives htail
      (cut_argumentTail (typesSound _) (Nat.lt_succ_self _) htail)
    exact .behind (.phrase ((passes_of_typeBody htype).andThen htail'))
      (stalls_expect h (by decide))

/-- An error in a result stands behind a viable start of it. -/
theorem stalls_result (hs : s.tokens.length ≤ count) (h : result.Fails s e s') :
    Stalls (.mark "->" >> .phrase .optional) s e s' := by
  simp only [result, bind_eq, fails_bind] at h
  obtain h | ⟨_, s₁, harrow, h⟩ := h
  · exact .inFront (stalls_expect h (by decide)) .optional
  · have harrow := passes_of_expect harrow
    have hlt := harrow.cut.length_lt_of_mark
    exact .behind harrow ((ih _ _ _ (by omega)).1 h)

/-- A bracket stalls as the start of a type of `self`, also where it has only been looked at. -/
theorem stalls_selfBinding (hs : s.tokens.length ≤ count) (h : selfBinding.Fails s e s') :
    Stalls (.maybe (.phrase .selfBinding)) s e s' := by
  have hself : Viable (.spelled "self:" >> .phrase .type >> .mark "]") [] :=
    .inFront .selfKey (.inFront .type (.mark (by decide)))
  simp only [selfBinding, bind_eq, pure_eq, fails_bind] at h
  obtain h | ⟨b, s₁, hnext, h⟩ := h
  · rcases cases_of_fails_nextThen h with h | ⟨rfl, hopen, herror⟩
    · exact .of_error h .none
    · exact .some (.phrase (.beyond hopen herror hself))
  obtain ⟨rfl, t, ht, ⟨hkind, u, hu, rfl⟩ | ⟨-, rfl⟩⟩ := gives_nextThen.1 hnext
  · split at h
    · rename_i hfits
      have hopen : s.Passes (.mark "[") s.rest :=
        .rest (cut_rest ht (by simp [hkind]) (by simpa using hkind))
      have hlt := hopen.cut.length_lt_of_mark
      have hle : s.rest.rest.tokens.length ≤ s.rest.tokens.length := by simp [Stream.rest]
      rw [fails_skip_bind ht, fails_skip_bind hu, fails_bind] at h
      refine .some (.phrase (.behind hopen ?_))
      by_cases hend : u.kind = .endOfInput
      · -- Nothing stands behind the bracket, and the type fails there.
        have hnil := Stream.tokens_of_isEnd hu (by simpa [Token.isEnd] using hend)
        rw [Stream.rest_of_nil hnil] at h
        obtain h | ⟨_, s₁, htype, -⟩ := h
        · exact ((ih _ _ _ (by omega)).2 h).of_nil hnil hself
        · have := length_lt_of_typeBody htype
          simp [hnil] at this
      · refine .behind (.rest (cut_rest hu hend hfits)) ?_
        obtain h | ⟨_, s₁, htype, h⟩ := h
        · exact .inFront ((ih _ _ _ (by omega)).2 h) (.mark (by decide))
        · exact .behind (passes_of_typeBody htype) (stalls_expect h (by decide))
    · simp at h
  · simp at h

omit ih in
/-- `parameterHead` stalls as the start of a key. -/
theorem stalls_parameterHead {afterKey : Bool} (h : (parameterHead afterKey).Fails s e s') :
    Stalls (.maybe (.mark "?") >> .key) s e s' := by
  have hkey : Viable (.maybe (.mark "?") >> .key) [] := .inFront .none .key
  simp only [parameterHead, bind_eq, pure_eq, fails_bind, fails_peek, gives_peek] at h
  obtain h | ⟨t, _, ⟨ht, rfl⟩, h | ⟨optionalKey, s₁, hnext, h⟩⟩ := h
  · exact .of_error h hkey
  · rcases cases_of_fails_nextThen h with h | ⟨rfl, hmark, herror⟩
    · exact .of_error h hkey
    · exact .beyond hmark.some herror .key
  obtain ⟨rfl, u, hu, hcases⟩ := gives_nextThen.1 hnext
  split at h
  · rename_i htrue
    obtain ⟨-, v, hv, -⟩ | ⟨-, hfalse⟩ := hcases
    · rw [fails_skip_bind ht, fails_skip_bind hv] at h
      simp at h
    · simp [hfalse] at htrue
  split at h
  · simp [ht] at h
  split at h
  · obtain ⟨rfl, rfl⟩ := fails_fail.1 h
    exact .here ⟨.inr ⟨t, _, ht, rfl⟩, rfl⟩ hkey
  · split at h <;> simp [ht] at h

/-- One round of the loop over parameters fails in its parameter, behind it, or in the rest of the
loop. -/
theorem stalls_parameter {afterKey : Bool} (hs : s.tokens.length < count)
    (h : (call (.parameters afterKey)).Fails s e s') :
    Stalls (.phrase .keyed) s e s' ∨ afterKey = false ∧ Stalls (.phrase .positional) s e s' ∨
      ∃ (isKeyed : Bool) (s₁ : Stream), s₁.tokens.length < s.tokens.length ∧
        (isKeyed = true ∧ s.Passes (.phrase .keyed) s₁ ∨
          isKeyed = false ∧ afterKey = false ∧ s.Passes (.phrase .positional) s₁) ∧
        (Stalls (.maybe (.mark ",")) s₁ e s' ∨
          ∃ s₂ : Stream, s₁.Passes (.mark ",") s₂ ∧
            (call (.parameters isKeyed)).Fails s₂ e s') := by
  rw [fails_call] at h
  simp only [Phrase.script, nextIsMark, bind_eq, pure_eq, fails_bind, fails_acceptKind,
    fails_accept] at h
  obtain h | ⟨isKeyed, s₀, hhead, h⟩ := h
  · exact .inl (.phrase (.inFront (.left (stalls_parameterHead h)) (.inFront .type .none)))
  have hle := hhead.length_le
  -- The rest of the parameter decides alike for both sorts.
  have hsort : ∀ {P : Prop}, (∀ {a : Form}, s.Passes a s₀ →
        Stalls (a >> .phrase .type >> .maybe (.ofKind .lowerName)) s e s') →
      Stalls (.phrase .keyed) s e s' ∨
        afterKey = false ∧ Stalls (.phrase .positional) s e s' ∨ P := by
    intro P hstalls
    rcases cut_parameterHead hhead with ⟨-, hcut⟩ | ⟨-, hafter, hcut⟩
    · exact .inl (.phrase (hstalls (.of_gives hhead hcut)))
    · exact .inr (.inl ⟨hafter, .phrase (hstalls (.of_gives hhead hcut))⟩)
  obtain h | ⟨_, s₁, htype, h⟩ := h
  · exact hsort fun hhead => .behind hhead (.inFront ((ih _ _ _ (by omega)).2 h) .none)
  have hlt := length_lt_of_typeBody htype
  obtain h | ⟨_, s₂, hname, h⟩ := h
  · exact hsort fun hhead =>
      .behind hhead (.behind (passes_of_typeBody htype) (.of_error h .none))
  have hle' := hname.length_le
  have hbody := (passes_of_typeBody htype).andThen
    (.of_gives hname (cut_maybe_of_acceptKind (by simp) hname))
  refine .inr (.inr ⟨isKeyed, s₂, by omega, ?_, ?_⟩)
  · rcases cut_parameterHead hhead with ⟨htrue, hcut⟩ | ⟨hfalse, hafter, hcut⟩
    · exact .inl ⟨htrue, .phrase (.andThen (.of_gives hhead hcut) hbody)⟩
    · exact .inr ⟨hfalse, hafter, .phrase (.andThen (.of_gives hhead hcut) hbody)⟩
  · obtain h | ⟨b, s₃, hb, h⟩ := h
    · exact .inl (.of_error h .none)
    rcases passes_of_accept hb with ⟨rfl, hcomma⟩ | ⟨rfl, rfl⟩
    · simp only [if_pos, fails_bind, fails_nextIs, gives_nextIs] at h
      obtain h | ⟨closes, _, ⟨-, rfl⟩, h⟩ := h
      · exact .inl (.some (.ended hcomma ⟨.inl h.1, h.2⟩))
      split at h
      · simp at h
      · exact .inr ⟨_, hcomma, h⟩
    · simp at h

/-- An error in parameters with keys stands behind a viable list of them. -/
theorem stalls_keyed (hs : s.tokens.length < count)
    (h : (call (.parameters true)).Fails s e s') :
    Stalls (.phrase .keyed >> .many (.mark "," >> .phrase .keyed) >> .maybe (.mark ","))
      s e s' := by
  induction hlen : s.tokens.length using Nat.strongRecOn generalizing s with
  | ind n loop =>
    subst hlen
    obtain h | ⟨hfalse, -⟩ | ⟨_, s₁, hlt, ⟨rfl, hkeyed⟩ | ⟨-, hfalse, -⟩, h | ⟨s₂, hcomma, h⟩⟩ :=
      stalls_parameter ih hs h
    · exact .inFront h (.inFront .stop .none)
    · cases hfalse
    · exact .behind hkeyed (.behind .stop h)
    · have := hcomma.cut.length_lt_of_mark
      exact .behind hkeyed (.separated hcomma (loop _ (by omega) (by omega) h rfl))
    · cases hfalse
    · cases hfalse

/-- An error in parameters stands behind a viable list, in which those with keys come last. -/
theorem stalls_parameterList (hs : s.tokens.length < count)
    (h : (call (.parameters false)).Fails s e s') :
    Stalls (((.phrase .positional >> .many (.mark "," >> .phrase .positional) >>
        .many (.mark "," >> .phrase .keyed)) <|>
      (.phrase .keyed >> .many (.mark "," >> .phrase .keyed))) >> .maybe (.mark ",")) s e s' := by
  induction hlen : s.tokens.length using Nat.strongRecOn generalizing s with
  | ind n loop =>
    subst hlen
    obtain h | ⟨-, h⟩ | ⟨_, s₁, hlt, ⟨rfl, hkeyed⟩ | ⟨rfl, -, hpositional⟩, h | ⟨s₂, hcomma, h⟩⟩ :=
      stalls_parameter ih hs h
    · exact .inFront (.right (.inFront h .stop)) .none
    · exact .inFront (.left (.inFront h (.inFront .stop .stop))) .none
    · exact .behind (.right (hkeyed.andThen .stop)) h
    · have := hcomma.cut.length_lt_of_mark
      exact .after (hkeyed.andThen hcomma) (stalls_keyed ih (by omega) h) Cut.keyed_cons
    · exact .behind (.left (hpositional.andThen (.andThen .stop .stop))) h
    · have := hcomma.cut.length_lt_of_mark
      exact .after (hpositional.andThen hcomma) (loop _ (by omega) (by omega) h rfl)
        Cut.positional_cons

/-- Parameters in parentheses. A question mark behind the parenthesis stalls in front of the closing
one, whatever was to come. -/
theorem stalls_parameters (hs : s.tokens.length ≤ count) (h : parameters.Fails s e s') :
    Stalls (.phrase .parameters) s e s' := by
  have hclose : Viable (.mark ")") [] := .mark (by decide)
  simp only [parameters, bind_eq, pure_eq, fails_bind, fails_accept] at h
  obtain h | ⟨_, s₁, hopen, h⟩ := h
  · exact .phrase (.left (.inFront (stalls_expect h (by decide)) hclose))
  have hopen := passes_of_expect hopen
  have hlt := hopen.cut.length_lt_of_mark
  obtain h | ⟨b, s₂, hb, h⟩ := h
  · exact .phrase (.left (.behind hopen (.of_error h hclose)))
  rcases passes_of_accept hb with ⟨rfl, -⟩ | ⟨rfl, rfl⟩
  · simp at h
  rw [if_neg (by simp), fails_bind] at h
  obtain h | ⟨b, s₂, hnext, h⟩ := h
  · rcases cases_of_fails_nextThen h with h | ⟨rfl, hmark, herror⟩
    · exact .phrase (.left (.behind hopen (.of_error h hclose)))
    · exact .phrase (.right (.left (.behind hopen (.beyond hmark herror hclose))))
  obtain ⟨rfl, t, ht, hcases⟩ := gives_nextThen.1 hnext
  split at h
  · -- The question mark and the parenthesis are passed over.
    rename_i htrue
    obtain ⟨-, u, hu, -⟩ | ⟨-, rfl⟩ := hcases
    · rw [fails_skip_bind ht, fails_skip, hu] at h
      cases h.1
    · cases htrue
  · rw [fails_bind] at h
    refine .phrase (.right (.right (.behind hopen (.assoc ?_))))
    obtain h | ⟨_, s₂, hlist, h⟩ := h
    · exact .inFront (stalls_parameterList ih (by omega) h) hclose
    · have hlist := Stream.Passes.of_gives hlist
        (cut_parameterList (typesSound _) (Nat.lt_succ_self _) hlist)
      exact .behind hlist (stalls_expect h (by decide))

/-- An error in parameters or in the binding of `self` stands behind a viable start of them. -/
theorem stalls_parametersAndSelf (hs : s.tokens.length ≤ count)
    (h : parametersAndSelf.Fails s e s') :
    Stalls (.maybe (.phrase .parameters) >> .maybe (.phrase .selfBinding)) s e s' := by
  simp only [parametersAndSelf, bind_eq, fails_bind] at h
  obtain h | ⟨_, s₁, hparameters, h⟩ := h
  · refine .inFront ?_ .none
    simp only [parameters?, nextIsMark, bind_eq, pure_eq, fails_bind, fails_nextIs,
      gives_nextIs] at h
    obtain h | ⟨_, _, ⟨-, rfl⟩, h⟩ := h
    · exact .of_error h .none
    split at h
    · exact .some (stalls_parameters ih hs h)
    · simp at h
  · have hle := hparameters.length_le
    exact .behind (passes_of_parameters? hparameters) (stalls_selfBinding ih (by omega) h)

/-- A block in braces. A question mark stalls in front of a brace. -/
theorem stalls_block (hs : s.tokens.length ≤ count) (h : block.Fails s e s') :
    Stalls (.maybe (.phrase .block)) s e s' := by
  have hclose : Viable (.mark "\x7d") [] := .mark (by decide)
  have hbody : Viable (.maybe (.phrase .parameters) >> .maybe (.phrase .selfBinding) >>
      .mark "->" >> .phrase .optional >> .mark "\x7d") [] :=
    .inFront .none (.inFront .none (.inFront (.mark (by decide)) (.inFront .optional hclose)))
  simp only [block, bind_eq, pure_eq, fails_bind, fails_accept] at h
  obtain h | ⟨_, s₁, hmark, h⟩ := h
  · simp only [blockMark, bind_eq, pure_eq, fails_bind] at h
    obtain h | ⟨b, s₁, hnext, h⟩ := h
    · rcases cases_of_fails_nextThen h with h | ⟨rfl, hmark, herror⟩
      · exact .of_error h .none
      · exact .some (.phrase (.beyond hmark.some herror (.inFront (.mark (by decide)) hbody)))
    · obtain ⟨rfl, t, ht, -⟩ := gives_nextThen.1 hnext
      split at h <;> simp [ht] at h
  have hle := hmark.length_le
  obtain h | ⟨b, s₂, hb, h⟩ := h
  · -- No question mark was taken, since a brace would stand behind it.
    rcases cut_blockMark hmark with ⟨-, v, hv, -⟩ | rfl
    · rw [hv] at h
      cases h.1
    · exact .of_error h .none
  rcases passes_of_accept hb with ⟨rfl, hopen⟩ | ⟨rfl, rfl⟩
  · have hmark : s.Passes (.maybe (.mark "?")) s₁ := by
      refine .of_gives hmark ?_
      rcases cut_blockMark hmark with ⟨hcut, -⟩ | rfl
      · exact .some hcut
      · exact .none
    have hlt := hopen.cut.length_lt_of_mark
    simp only [if_pos, fails_bind] at h
    refine .some (.phrase (.behind hmark (.behind hopen (.assoc ?_))))
    obtain h | ⟨_, s₃, hparameters, h⟩ := h
    · exact .inFront (stalls_parametersAndSelf ih (by omega) h)
        (.inFront (.mark (by decide)) (.inFront .optional hclose))
    have hle' := hparameters.length_le
    refine .behind (passes_of_parametersAndSelf hparameters) (.assoc ?_)
    obtain h | ⟨_, s₄, hresult, h⟩ := h
    · exact .inFront (stalls_result ih (by omega) h) hclose
    · exact .behind (passes_of_result hresult) (stalls_expect h (by decide))
  · simp at h

/-- A procedure type after its caret. -/
theorem stalls_procedure (hs : s.tokens.length < count) (h : procedure.Fails s e s') :
    Stalls (.maybe (.phrase .parameters) >> .maybe (.phrase .selfBinding) >>
      .maybe (.phrase .block) >> .mark "->" >> .phrase .optional) s e s' := by
  simp only [procedure, bind_eq, fails_bind] at h
  refine .assoc ?_
  obtain h | ⟨_, s₁, hparameters, h⟩ := h
  · exact .inFront (stalls_parametersAndSelf ih (by omega) h) (.inFront .none .result)
  have hle := hparameters.length_le
  refine .behind (passes_of_parametersAndSelf hparameters) ?_
  obtain h | ⟨_, s₂, hblock, h⟩ := h
  · exact .inFront (stalls_block ih (by omega) h) .result
  · have hle' := hblock.length_le
    exact .behind (.of_gives hblock (cut_block (typesSound _) (Nat.le_refl _) hblock))
      (stalls_result ih (by omega) h)

omit ih in
/-- The key of a field stalls as a key, or in front of its arrow. -/
theorem stalls_recordKey (h : recordKey.Fails s e s') :
    Stalls .key s e s' ∨ Stalls ((.literal <|> .nameEnd) >> .mark "=>") s e s' := by
  simp only [recordKey, bind_eq, fails_bind, fails_peek, gives_peek] at h
  obtain h | ⟨t, _, ⟨ht, rfl⟩, h⟩ := h
  · exact .inl (.of_error h .key)
  split at h
  · simp [ht] at h
  split at h
  · rename_i hkind
    rw [fails_skip_bind ht] at h
    have hmore : t.kind ≠ .endOfInput := by
      intro hend
      simp [hend, Kind.isLiteral, Kind.isName] at hkind
    refine .inr (.behind (.rest ?_) (stalls_expect h (by decide)))
    rcases Bool.or_eq_true_iff.1 hkind with hliteral | hname
    · exact .left (cut_rest ht hmore hliteral)
    · exact .right (cut_rest ht hmore hname)
  · obtain ⟨rfl, rfl⟩ := fails_fail.1 h
    exact .inl (.here ⟨.inr ⟨t, _, ht, rfl⟩, rfl⟩ .key)

/-- The fields of a record and the brace after them. -/
theorem stalls_recordFields (hs : s.tokens.length < count)
    (h : (call .recordFields).Fails s e s') :
    Stalls (.phrase .field >> .many (.mark "," >> .phrase .field) >> .maybe (.mark ",") >>
      .mark "\x7d") s e s' := by
  have hend : Viable (.maybe (.mark ",") >> .mark "\x7d") [] := .inFront .none (.mark (by decide))
  induction hlen : s.tokens.length using Nat.strongRecOn generalizing s with
  | ind n loop =>
    subst hlen
    rw [fails_call] at h
    simp only [Phrase.script, bind_eq, pure_eq, fails_bind, fails_accept] at h
    obtain h | ⟨_, s₁, hmark, h⟩ := h
    · exact .of_error h (.inFront .field (.inFront .stop hend))
    have hle₁ := hmark.length_le
    have hmark := passes_maybe_of_accept hmark
    obtain h | ⟨_, s₂, hkey, h⟩ := h
    · refine .inFront (.phrase ?_) (.inFront .stop hend)
      rcases stalls_recordKey h with h | h
      · exact .left (.behind hmark (.inFront h .type))
      · exact .right (.behind hmark (.assoc (.inFront h .type)))
    have hle₂ := hkey.length_le
    -- Both sorts of keys are followed by a type.
    obtain h | ⟨_, s₃, htype, h⟩ := h
    · have h := (ih _ _ _ (by omega)).2 h
      refine .inFront (.phrase ?_) (.inFront .stop hend)
      rcases cut_recordKey hkey with hcut | hcut
      · exact .left (.behind hmark (.behind (.of_gives hkey hcut) h))
      · exact .right (.behind hmark (.assoc (.behind (.of_gives hkey hcut) h)))
    have hlt := length_lt_of_typeBody htype
    have htype := passes_of_typeBody htype
    have hfield : s.Passes (.phrase .field) s₃ := by
      rcases cut_recordKey hkey with hcut | hcut
      · exact .phrase (.left (hmark.andThen (.andThen (.of_gives hkey hcut) htype)))
      · exact .phrase (.right (hmark.andThen (.assoc (.andThen (.of_gives hkey hcut) htype))))
    refine .behind hfield ?_
    obtain h | ⟨b, s₄, hb, h⟩ := h
    · exact .of_error h (.inFront .stop hend)
    rcases passes_of_accept hb with ⟨rfl, hcomma⟩ | ⟨rfl, rfl⟩
    · have hlt' := hcomma.cut.length_lt_of_mark
      simp only [if_pos, fails_bind, fails_accept] at h
      obtain h | ⟨b, s₅, hb, h⟩ := h
      · exact .behind .stop (.behind hcomma.some (.of_error h (.mark (by decide))))
      rcases passes_of_accept hb with ⟨rfl, -⟩ | ⟨rfl, rfl⟩
      · simp at h
      · rw [if_neg (by simp)] at h
        exact .separated hcomma (loop _ (by omega) (by omega) h rfl)
    · rw [if_neg (by simp)] at h
      exact .behind .stop (.behind .none (stalls_expect h (by decide)))

/-- The first token decides which form a simple type has. -/
theorem stalls_simple (hs : s.tokens.length ≤ count) (h : simple.Fails s e s') :
    Stalls (.phrase .simple) s e s' := by
  simp only [simple, bind_eq, pure_eq, fails_bind, fails_peek, gives_peek] at h
  obtain h | ⟨t, _, ⟨ht, rfl⟩, h⟩ := h
  · exact .of_error h .simple
  have hpass : ∀ {kind : Kind}, t.kind = kind → kind ≠ .endOfInput →
      s.Passes (.ofKind kind) s.rest ∧ s.rest.tokens.length < count := by
    intro kind hkind hne
    refine ⟨.rest (cut_rest ht (hkind ▸ hne) (by simpa using hkind)), ?_⟩
    have := Stream.length_rest_lt ht (by simpa [Token.isEnd, hkind] using hne)
    omega
  refine .phrase ?_
  -- The cases are those of the script: parentheses, caret, bracket, brace, `singleton`, other words.
  split at h
  · rename_i hkind
    obtain ⟨hopen, hlt⟩ := hpass hkind (by simp)
    rw [fails_skip_bind ht, fails_bind] at h
    refine .left (.behind hopen ?_)
    obtain h | ⟨_, s₁, htype, h⟩ := h
    · exact .inFront ((ih _ _ _ hlt).2 h) (.mark (by decide))
    · exact .behind (passes_of_typeBody htype) (stalls_expect h (by decide))
  · rename_i hkind
    obtain ⟨hopen, hlt⟩ := hpass hkind (by simp)
    rw [fails_skip_bind ht] at h
    exact .right (.left (.behind hopen (stalls_procedure ih hlt h)))
  · rename_i hkind
    obtain ⟨hopen, hlt⟩ := hpass hkind (by simp)
    simp only [fails_skip_bind ht, fails_bind, fails_accept] at h
    obtain h | ⟨b, s₁, hb, h⟩ := h
    · exact .right (.right (.left (.behind hopen (.of_error h (.mark (by decide))))))
    rcases passes_of_accept hb with ⟨rfl, -⟩ | ⟨rfl, rfl⟩
    · simp at h
    · rw [if_neg (by simp)] at h
      exact .right (.right (.right (.left (.behind hopen (stalls_arguments ih hlt h)))))
  · rename_i hkind
    obtain ⟨hopen, hlt⟩ := hpass hkind (by simp)
    simp only [fails_skip_bind ht, fails_bind, fails_accept] at h
    obtain h | ⟨b, s₁, hb, h⟩ := h
    · exact .right (.right (.right (.right (.left
        (.behind hopen (.of_error h (.mark (by decide))))))))
    rcases passes_of_accept hb with ⟨rfl, -⟩ | ⟨rfl, rfl⟩
    · simp at h
    · rw [if_neg (by simp)] at h
      exact .right (.right (.right (.right (.right (.left
        (.behind hopen (stalls_recordFields ih hlt h)))))))
  · rename_i hkind
    obtain ⟨hword, -⟩ := hpass hkind (by simp)
    have hclose : Viable (.mark ")") [] := .mark (by decide)
    simp only [fails_skip_bind ht, fails_bind] at h
    refine .right (.right (.right (.right (.right (.right (.left (.behind hword ?_)))))))
    obtain h | ⟨_, s₁, hopen, h⟩ := h
    · exact .inFront (stalls_expect h (by decide)) (.inFront .name hclose)
    refine .behind (passes_of_expect hopen) ?_
    obtain h | ⟨_, s₂, hname, h⟩ := h
    · exact .inFront (stalls_qualified h) hclose
    · exact .behind (.of_gives hname (cut_qualified hname)) (stalls_expect h (by decide))
  · split at h
    · simp [ht] at h
    split at h
    · simp only [fails_bind, fails_accept] at h
      refine .right (.right (.right (.right (.right (.right (.right (.right (.right ?_))))))))
      obtain h | ⟨_, s₁, hname, h⟩ := h
      · exact .inFront (stalls_qualified h) .none
      have hle := hname.length_le
      refine .behind (.of_gives hname (cut_qualified hname)) ?_
      obtain h | ⟨b, s₂, hb, h⟩ := h
      · exact .of_error h .none
      rcases passes_of_accept hb with ⟨rfl, hopen⟩ | ⟨rfl, rfl⟩
      · have hlt := hopen.cut.length_lt_of_mark
        rw [if_pos rfl] at h
        exact .some (.behind hopen (stalls_arguments ih (by omega) h))
      · simp at h
    · obtain ⟨rfl, rfl⟩ := fails_fail.1 h
      exact .here ⟨.inr ⟨t, _, ht, rfl⟩, rfl⟩ (Viable.simple.imp derives_phrase.1)

/-- An error in an optional type stands behind a viable start of it. -/
theorem stalls_optional (hs : s.tokens.length ≤ count) (h : (call .optional).Fails s e s') :
    Stalls (.phrase .optional) s e s' := by
  rw [fails_call] at h
  simp only [Phrase.script, bind_eq, pure_eq, fails_bind, fails_accept] at h
  obtain h | ⟨_, s₁, hsimple, h | ⟨_, s₂, -, h⟩⟩ := h
  · exact .phrase (.inFront (stalls_simple ih hs h) .none)
  · exact .phrase (.behind (.of_gives hsimple (cut_simple (typesSound _) (Nat.le_refl _) hsimple))
      (.of_error h .none))
  · simp at h

theorem stalls_intersectionTail (hs : s.tokens.length ≤ count)
    (h : (call .intersectionTail).Fails s e s') :
    Stalls (.many (.mark "&" >> .phrase .optional)) s e s' := by
  induction hlen : s.tokens.length using Nat.strongRecOn generalizing s with
  | ind n loop =>
    subst hlen
    rw [fails_call] at h
    simp only [Phrase.script, bind_eq, pure_eq, fails_bind, fails_accept] at h
    obtain h | ⟨b, s₁, hb, h⟩ := h
    · exact .of_error h .stop
    rcases passes_of_accept hb with ⟨rfl, hmark⟩ | ⟨rfl, rfl⟩
    · have hlt := hmark.cut.length_lt_of_mark
      simp only [if_pos, fails_bind] at h
      obtain h | ⟨_, s₂, hfirst, h⟩ := h
      · exact .one (.behind hmark ((ih _ _ _ (by omega)).1 h))
      · have hle := hfirst.length_le
        exact .more (hmark.andThen (passes_of_optional hfirst))
          (loop _ (by omega) (by omega) h rfl)
    · simp at h

/-- An error in an intersection stands behind a viable start of it. -/
theorem stalls_intersection (hs : s.tokens.length ≤ count) (h : intersection.Fails s e s') :
    Stalls (.phrase .intersection) s e s' := by
  simp only [intersection, bind_eq, fails_bind] at h
  obtain h | ⟨_, s₁, hfirst, h⟩ := h
  · exact .phrase (.inFront (stalls_optional ih hs h) .stop)
  · have hle := hfirst.length_le
    exact .phrase (.behind (passes_of_optional hfirst) (stalls_intersectionTail ih (by omega) h))

theorem stalls_unionTail (hs : s.tokens.length ≤ count) (h : (call .unionTail).Fails s e s') :
    Stalls (.many (.mark "|" >> .phrase .intersection)) s e s' := by
  induction hlen : s.tokens.length using Nat.strongRecOn generalizing s with
  | ind n loop =>
    subst hlen
    rw [fails_call] at h
    simp only [Phrase.script, bind_eq, pure_eq, fails_bind, fails_accept] at h
    obtain h | ⟨b, s₁, hb, h⟩ := h
    · exact .of_error h .stop
    rcases passes_of_accept hb with ⟨rfl, hmark⟩ | ⟨rfl, rfl⟩
    · have hlt := hmark.cut.length_lt_of_mark
      simp only [if_pos, fails_bind] at h
      obtain h | ⟨_, s₂, hfirst, h⟩ := h
      · exact .one (.behind hmark (stalls_intersection ih (by omega) h))
      · have hle := hfirst.length_le
        exact .more (hmark.andThen (passes_of_intersection hfirst))
          (loop _ (by omega) (by omega) h rfl)
    · simp at h

end Parts

/-! ### Types -/

/-- Types and optional types stall where they fail, however many tokens there are (`TypesStall`). -/
theorem typesStall (count : Nat) : TypesStall count := by
  induction count with
  | zero => exact fun s e s' hs => absurd hs (Nat.not_lt_zero _)
  | succ count ih =>
    intro s e s' hs
    have hs : s.tokens.length ≤ count := Nat.le_of_lt_succ hs
    refine ⟨stalls_optional ih hs, fun h => ?_⟩
    simp only [typeBody, bind_eq, fails_bind] at h
    obtain h | ⟨_, s₁, hfirst, h⟩ := h
    · exact .phrase (.inFront (stalls_intersection ih hs h) .stop)
    · have hle := hfirst.length_le
      exact .phrase (.behind (passes_of_intersection hfirst) (stalls_unionTail ih (by omega) h))

/-- A type that has to reach to the end of input stalls where it fails. -/
theorem stalls_whole_type (h : type.whole.Fails s e s') : Stalls (.phrase .type) s e s' := by
  simp only [Script.whole, bind_eq, pure_eq, fails_bind] at h
  obtain h | ⟨text, s₁, htype, h | ⟨_, s₂, -, h⟩⟩ := h
  · rcases fails_spanned h with h | h
    · exact .of_error h .type
    · exact (typesStall _ s e s' (Nat.lt_succ_self _)).2 h
  · exact .ended (.of_gives htype (cut_type htype)) (blocked_of_expectEnd h)
  · simp at h

end TypeNotes.Signature
