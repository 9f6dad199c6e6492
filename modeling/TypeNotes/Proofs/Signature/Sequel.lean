import TypeNotes.Proofs.Signature.Follow

/-!
# Signatures end where they end

One sweep over the grammar shows that its scripts are sealed (`Phrase.sealed_script`). A type goes on
only with one of the marks of `typeMarks`, so it is read alike in front of any other token. Lists,
heads and members may go on with other marks and with `as`; they are read alike in front of any other
token, and in front of a dash.
-/

namespace TypeNotes.Signature

open Script Grammar

variable {α β : Type}

/-! ### Tokens that phrases take at least -/

/-- `qualified` takes a token at least. -/
theorem forces_qualified (sort : NameSort) : (qualified sort).Forces 1 :=
  (paced_qualified sort (by decide) _).forces

theorem forces_typeBody : typeBody.Forces 1 :=
  Paced.forces (by simp [typeBody, intersection, call, Phrase.rank, Phrase.takesToken])

/-- `expect` takes the token that it insists on. -/
theorem forces_expect (mark : String) : (expect mark).Forces 1 := Paced.forces (paced_expect mark _)

/-- A script that starts with a name takes a token at least. -/
theorem forces_of_qualified {sort : NameSort} {f : Unit → Script Unit} :
    ((qualified sort).bind f).Forces 1 :=
  forces_bind (j := 0) (forces_qualified sort) fun a => forces_zero (f a)

theorem forces_result : result.Forces 1 :=
  forces_bind (j := 0) (forces_expect "->") fun _ => forces_zero _

theorem forces_methodTypeBody : methodTypeBody.Forces 1 :=
  forces_last fun _ => forces_last fun _ => forces_last fun _ => forces_result

theorem forces_methodTypes {f : List String → Script α} : ((call .methodTypes).bind f).Forces 1 :=
  forces_bind (j := 0) (Paced.forces (by simp [call, Phrase.rank, Phrase.takesToken]))
    fun a => forces_zero (f a)

/-- A path of names to be used ends with a name. -/
theorem mem_nameKinds_of_usePath {s s' : Stream} {kind : Kind}
    (h : (call .usePath).Gives s (some kind) s') : kind ∈ nameKinds :=
  ((Phrase.nativelyTaken_reading rfl s _ s' ((Phrase.reading_eq _ s).trans (gives_call.1 h))).1
    kind rfl)

/-- Up to three tokens are looked at, and either all of them are taken or none. -/
theorem gives_singletonMarker {s s' : Stream} {a : Unit} :
    singletonMarker.Gives s a s' ↔ ∃ t, s.tokenAt 0 = .ok t ∧
      (t.kind ≠ .keyword "self" ∧ s = s' ∨ t.kind = .keyword "self" ∧
        ∃ u, s.rest.tokenAt 0 = .ok u ∧ (u.kind = .mark "." ∧ s' = s.rest.rest ∨
          u.kind = .mark "?" ∧ (∃ v, s.rest.rest.tokenAt 0 = .ok v ∧
            (v.kind = .mark "." ∧ s' = s.rest.rest.rest ∨ v.kind ≠ .mark "." ∧ s = s')) ∨
          u.kind ≠ .mark "." ∧ u.kind ≠ .mark "?" ∧ s = s')) := by
  have hsecond : s.tokenAt 1 = s.rest.tokenAt 0 := Stream.tokenAt_succ ..
  have hthird : s.tokenAt 2 = s.rest.rest.tokenAt 0 := by
    rw [Stream.tokenAt_succ, Stream.tokenAt_succ]
  simp only [singletonMarker, bind_eq, pure_eq, gives_bind, gives_nextIs]
  constructor
  · rintro ⟨_, _, ⟨⟨t, ht, rfl⟩, rfl⟩, h⟩
    refine ⟨t, ht, ?_⟩
    split at h
    · rename_i hself
      rw [beq_iff_eq] at hself
      refine .inr ⟨hself, ?_⟩
      simp only [gives_bind, gives_peekSecond, hsecond] at h
      obtain ⟨u, _, ⟨hu, rfl⟩, h⟩ := h
      refine ⟨u, hu, ?_⟩
      split at h
      · rename_i hdot
        simp only [gives_bind, gives_skip] at h
        obtain ⟨_, _, ⟨-, rfl⟩, -, rfl⟩ := h
        exact .inl ⟨hdot, rfl⟩
      · rename_i hquery
        simp only [gives_bind, gives_peekThird, hthird] at h
        obtain ⟨v, _, ⟨hv, rfl⟩, h⟩ := h
        refine .inr (.inl ⟨hquery, v, hv, ?_⟩)
        split at h
        · rename_i hdot
          simp only [gives_bind, gives_skip] at h
          obtain ⟨_, _, ⟨-, rfl⟩, _, _, ⟨-, rfl⟩, -, rfl⟩ := h
          exact .inl ⟨by simpa using hdot, rfl⟩
        · rename_i hdot
          exact .inr ⟨by simpa using hdot, (gives_done.1 h).2⟩
      · rename_i hdot hquery
        exact .inr (.inr ⟨hdot, hquery, (gives_done.1 h).2⟩)
    · rename_i hself
      exact .inl ⟨by simpa using hself, (gives_done.1 h).2⟩
  · rintro ⟨t, ht, h⟩
    refine ⟨_, s, ⟨⟨t, ht, rfl⟩, rfl⟩, ?_⟩
    rcases h with ⟨hself, rfl⟩ | ⟨hself, u, hu, h⟩
    · simp [hself]
    simp only [hself, beq_self_eq_true, if_true, gives_bind, gives_peekSecond, hsecond]
    refine ⟨u, s, ⟨hu, rfl⟩, ?_⟩
    rcases h with ⟨hdot, rfl⟩ | ⟨hquery, v, hv, h⟩ | ⟨hdot, hquery, rfl⟩
    · simp [hdot, ht, hu]
    · simp only [hquery, gives_bind, gives_peekThird, hthird]
      refine ⟨v, s, ⟨hv, rfl⟩, ?_⟩
      rcases h with ⟨hdot, rfl⟩ | ⟨hdot, rfl⟩
      · simp [hdot, ht, hu, hv]
      · simp [hdot]
    · split
      · contradiction
      · contradiction
      · simp

/-! ### Types -/

section Types

variable {ends : Kind → Bool} {i j e : Nat} {known : List Token} (h : EndsTypes ends)

include h

/-- Names are sealed whatever follows; and so is each script below, which is made of such parts. -/
theorem sealed_qualified (sort : NameSort) :
    Sealed ends i j known e (qualified sort) (qualified sort) :=
  sealed_accept_then (.inl (h _ (by decide))) (sealed_call h (Nat.zero_le e))

theorem sealed_intersection : Sealed ends i j known e intersection intersection :=
  sealed_bind (sealed_call h (Nat.zero_le e)) fun _ => sealed_call h (Nat.zero_le e)

theorem sealed_typeBody : Sealed ends i j known e typeBody typeBody :=
  sealed_bind (sealed_intersection h) fun _ => sealed_call h (Nat.zero_le e)

theorem sealed_type : Sealed ends i j known e type type :=
  sealed_spanned (sealed_typeBody h) forces_typeBody

omit h in
/-- A list may look at the bracket behind it, which is taken then. -/
theorem sealed_call_expect {p : Phrase} (hp : p.EndsBefore ends) (hleeway : p.leeway ≤ 1)
    (mark : String) : Sealed ends i j known e ((call p).bind fun _ => expect mark)
      ((call p).bind fun _ => expect mark) :=
  sealed_bind_of_forces (sealed_call hp hleeway) (fun _ _ _ _ => sealed_expect mark)
    (fun _ => forces_expect mark) (Nat.le_add_right 1 e)

theorem sealed_arguments : Sealed ends i j known e arguments arguments :=
  sealed_bind (sealed_typeBody h) fun _ => sealed_call_expect (p := .argumentTail) h (by decide) "]"

omit h in
theorem forces_arguments : arguments.Forces 1 :=
  forces_bind (j := 0) forces_typeBody fun _ => forces_zero _

omit h in
/-- Two tokens that were looked at are passed over on both streams. -/
theorem sealed_nextThen_skip {mark : String} {fits : Token → Bool}
    (hfits : ∀ (u : Token) n, fits (u.shift n) = fits u)
    (hend : ∀ u, fits u = true → u.isEnd = false) {x y y' : Script α}
    (hx : Sealed ends i j [] e x x) (hy : Sealed ends i j known e y y')
    (htakes : ∀ s a r t, known <+: s.tokens → s.tokenAt 0 = .ok t → t.kind = .mark mark →
      y.Gives s a r → 2 + r.tokens.length ≤ s.tokens.length + e)
    (hmiss : ends (.mark mark) = false ∨ 1 ≤ e ∨ y.Forces 1) :
    Sealed ends i j known e
      ((nextThen mark fits).bind fun b => if b then skip.bind fun _ => skip.bind fun _ => x else y)
      ((nextThen mark fits).bind fun b =>
        if b then skip.bind fun _ => skip.bind fun _ => x else y') := by
  refine sealed_nextThen hfits (fun _ _ _ _ => sealed_skip (sealed_skip hx)) ?_ hmiss hy
  rintro (_ | _) s a r t u hknown ht hu hkind hfit hgives
  · exact htakes s a r t hknown ht hkind hgives
  · have := length_of_skip_skip ht hu (by simp [Token.isEnd, hkind]) (hend u hfit) hgives
    omega

theorem sealed_parameters : Sealed ends i j known e parameters parameters := by
  have hforces : ((call (.parameters false)).bind fun _ => expect ")").Forces 2 :=
    forces_bind (i := 1) (j := 1) (Paced.forces (by simp [call, Phrase.rank, Phrase.takesToken]))
      fun _ => forces_expect ")"
  have hlist : Sealed ends i j [] e ((call (.parameters false)).bind fun _ => expect ")")
      ((call (.parameters false)).bind fun _ => expect ")") :=
    sealed_call_expect (p := .parameters false) h (by decide) ")"
  refine sealed_bind (sealed_expect "(") fun _ => sealed_accept_bind (.inr (.inr ?_))
    (sealed_done ()) (sealed_nextThen_skip (fun _ _ => rfl) (fun u hu => ?_) (sealed_done ()) hlist
      (fun s a r _ _ _ _ hgives => ?_) (.inr (.inr ?_)))
  · exact Paced.forces
      (by simp +contextual [call, Phrase.rank, Phrase.takesToken, paced_ite, Token.isEnd])
  · simp only [beq_iff_eq] at hu
    simp [Token.isEnd, hu]
  · have := hforces s a r hgives
    omega
  · intro s a r hgives
    have := hforces s a r hgives
    omega

/-- A binding of `self` is sealed, if what comes behind it takes two tokens more. -/
theorem sealed_selfBinding (he : 2 ≤ e) : Sealed ends i j known e selfBinding selfBinding := by
  refine sealed_nextThen (fun _ _ => rfl) (fun _ _ _ _ => ?_) (fun _ s a r _ _ _ _ _ _ _ hgives => ?_)
    (.inr (.inl (by omega))) (sealed_done ())
  · exact sealed_skip (sealed_skip (sealed_bind (sealed_typeBody h) fun _ => sealed_expect "]"))
  · have := hgives.length_le
    omega

theorem sealed_parametersAndSelf (he : 2 ≤ e) :
    Sealed ends i j known e parametersAndSelf parametersAndSelf := by
  refine sealed_bind (sealed_nextIs (fun _ _ => sealed_parameters h) (.inl (by omega))
    (.inr (.inl (by omega))) (sealed_done ())) fun _ => sealed_selfBinding h he

theorem sealed_result : Sealed ends i j known e result result :=
  sealed_bind (sealed_expect "->") fun _ => sealed_call h (Nat.zero_le e)

omit h in
/-- An arrow and the type behind it are two tokens at least. -/
theorem forces_result_two : result.Forces 2 :=
  forces_bind (i := 1) (j := 1) (forces_expect "->") fun _ =>
    Paced.forces (by simp [call, Phrase.rank, Phrase.takesToken])

/-- A `block` is sealed, if what comes behind it takes two tokens more. -/
theorem sealed_block (he : 2 ≤ e) : Sealed ends i j known e block block := by
  refine sealed_bind (sealed_nextThen (fun _ _ => rfl) (fun _ _ _ _ => sealed_take fun _ _ => ?_)
    (fun _ s a r _ _ _ _ _ _ _ hgives => ?_) (.inr (.inl (by omega))) (sealed_done ())) fun _ => ?_
  · exact sealed_done ()
  · have := hgives.length_le
    omega
  · refine sealed_accept_bind (.inr (.inl (by omega))) ?_ (sealed_done ())
    refine sealed_bind_of_forces (sealed_parametersAndSelf h (Nat.le_refl 2)) (fun _ _ _ _ => ?_)
      (fun _ => forces_bind (j := 0) forces_result_two fun _ => forces_zero _) (Nat.le_add_right 2 e)
    exact sealed_bind (sealed_result h) fun _ => sealed_expect "\x7d"

theorem sealed_procedure : Sealed ends i j known e procedure procedure := by
  refine sealed_bind_of_forces (sealed_parametersAndSelf h (Nat.le_refl 2)) (fun _ _ _ _ => ?_)
    (fun _ => forces_last fun _ => forces_result_two) (Nat.le_add_right 2 e)
  exact sealed_bind_of_forces (sealed_block h (Nat.le_refl 2)) (fun _ _ _ _ => sealed_result h)
    (fun _ => forces_result_two) (Nat.le_add_right 2 e)

theorem sealed_simple : Sealed ends i j known e simple simple := by
  refine sealed_peek (fun u _ => ?_) fun t _ _ =>
    .inr (.inl ((paced_simple.mono (by decide)).of_peek t).takesAt)
  rw [show (u.shift i).kind = u.kind from rfl, show (u.shift j).kind = u.kind from rfl]
  split
  · exact sealed_skip (sealed_bind (sealed_typeBody h) fun _ => sealed_expect ")")
  · exact sealed_skip (sealed_procedure h)
  · exact sealed_skip (sealed_accept_bind (.inr (.inr forces_arguments)) (sealed_done ())
      (sealed_arguments h))
  · refine sealed_skip (sealed_accept_bind (.inr (.inr ?_)) (sealed_done ())
      (sealed_call (p := .recordFields) h (Nat.zero_le e)))
    exact Paced.forces (by simp [call, Phrase.rank, Phrase.takesToken])
  · exact sealed_skip (sealed_bind (sealed_expect "(") fun _ =>
      sealed_bind (sealed_qualified h .type) fun _ => sealed_expect ")")
  · refine sealed_ite (fun _ => sealed_take fun _ _ => sealed_done ()) fun _ => ?_
    refine sealed_ite (fun _ => ?_) fun _ => sealed_fail _ _
    exact sealed_bind (sealed_qualified h .type) fun _ =>
      sealed_accept_bind (.inl (h _ (by decide))) (sealed_arguments h) (sealed_done ())

omit h in
theorem sealed_recordKey : Sealed ends i j known e recordKey recordKey := by
  refine sealed_peek (fun u _ => ?_) fun t _ _ => .inr (.inl (paced_recordKey.of_peek t).takesAt)
  rw [show (u.shift i).kind = u.kind from rfl, show (u.shift j).kind = u.kind from rfl]
  refine sealed_ite (fun _ => sealed_take fun _ _ => sealed_done ()) fun _ => ?_
  exact sealed_ite (fun _ => sealed_skip (sealed_expect "=>")) fun _ => sealed_fail _ _

omit h in
/-- The token behind `parameterHead` is one of its type. -/
theorem sealed_parameterHead (afterKey : Bool) :
    Sealed ends i j known 1 (parameterHead afterKey) (parameterHead afterKey) := by
  refine sealed_peek (fun u hend => ?_) fun _ _ _ => .inl (Nat.le_refl 1)
  rw [show (u.shift i).kind = u.kind from rfl, show (u.shift j).kind = u.kind from rfl]
  refine sealed_nextThen_skip (fun _ _ => rfl) (fun v hv => ?_) (sealed_done true) ?_
    (fun s a r t hknown ht hkind hgives => ?_) (.inr (.inl (Nat.le_refl 1)))
  · refine beq_eq_false_iff_ne.2 fun heq => ?_
    rw [heq] at hv
    contradiction
  · refine sealed_ite (fun _ => sealed_skip (sealed_done true)) fun _ => ?_
    refine sealed_ite (fun _ => sealed_fail _ _) fun _ => ?_
    exact sealed_ite (fun _ => sealed_skip (sealed_done false)) fun _ => sealed_done false
  · -- The question mark is passed over, if it stands next.
    obtain ⟨more, hmore⟩ := hknown
    have hu : t = u.shift i := by simpa [Stream.tokenAt, ← hmore, eq_comm] using ht
    obtain rfl : r = s.rest := by
      have hkind' : u.kind = .mark "?" := by rw [hu] at hkind; exact hkind
      cases afterKey <;> simp [hkind', Kind.isKey, pure] at hgives
      exact hgives.1.2
    have := Stream.length_rest_lt ht (by simp [Token.isEnd, hkind])
    omega

theorem sealed_blockSignature : Sealed ends i j known e blockSignature blockSignature := by
  have hforces : (parametersAndSelf.bind fun _ => result).Forces 1 :=
    forces_last fun _ => forces_result
  have hbody : Sealed ends i j [] e (parametersAndSelf.bind fun _ => result)
      (parametersAndSelf.bind fun _ => result) :=
    sealed_bind_of_forces (sealed_parametersAndSelf h (Nat.le_refl 2))
      (fun _ _ _ _ => sealed_result h) (fun _ => forces_result_two) (Nat.le_add_right 2 e)
  exact sealed_spanned (sealed_accept_then (.inr (.inr hforces)) hbody)
    (forces_last fun _ => hforces)

end Types

/-! ### Lists and heads -/

section Members

variable {ends : Kind → Bool} {i j e : Nat} {known : List Token} (h : EndsMembers ends)

include h

theorem sealed_classReferenceBody :
    Sealed ends i j known e classReferenceBody classReferenceBody :=
  sealed_bind (sealed_qualified h.endsTypes .class_) fun _ =>
    sealed_accept_ite (.inl (h.1 _ (by decide))) (sealed_arguments h.endsTypes) (sealed_done ())

theorem sealed_classReference : Sealed ends i j known e classReference classReference :=
  sealed_spanned (sealed_classReferenceBody h) forces_of_qualified

omit h in
/-- The token behind `variance?` is the name of a parameter. -/
theorem sealed_variance? : Sealed ends i j known 1 variance? variance? :=
  sealed_acceptKind_bind (by simp) (.inr (.inl (Nat.le_refl 1))) (sealed_done _)
    (sealed_acceptKind_bind (by simp) (.inr (.inl (Nat.le_refl 1))) (sealed_done _)
      (sealed_done _))

/-- `typeAfter` a mark is sealed, unless the mark is a dash. -/
theorem sealed_typeAfter {mark : String} (hmark : mark ≠ "-") :
    Sealed ends i j known e (typeAfter mark) (typeAfter mark) :=
  sealed_accept_ite (.inl (h.1 _ hmark)) (sealed_bind (sealed_type h.endsTypes) fun _ => sealed_done _)
    (sealed_done none)

theorem sealed_typeParameter (withVariance : Bool) :
    Sealed ends i j known e (typeParameter withVariance) (typeParameter withVariance) := by
  have hname {f : Token → Script TypeParameter} :
      ((expectAny [.upperName] "a type parameter name").bind f).Forces 1 :=
    forces_bind (j := 0) (Paced.forces (paced_expectAny (by decide) _ _)) fun _ => forces_zero _
  refine sealed_acceptKind_bind (by simp) (.inr (.inr ?_)) ?_ ?_
  · split
    · exact forces_last fun _ => hname
    · exact hname
  all_goals
    refine sealed_ite (fun _ => sealed_bind_of_forces sealed_variance? (fun _ _ _ _ =>
      sealed_expectAny (by decide) fun u _ => ?_) (fun _ => hname) (Nat.le_add_right 1 e))
      fun _ => sealed_expectAny (by decide) fun u _ => ?_
    all_goals
      exact sealed_bind (sealed_typeAfter h (by decide)) fun _ =>
        sealed_bind (sealed_typeAfter h (by decide)) fun _ => sealed_done _

theorem sealed_typeParameters (withVariance : Bool) :
    Sealed ends i j known e (typeParameters withVariance) (typeParameters withVariance) :=
  sealed_bind (sealed_expect "[") fun _ => sealed_bind (sealed_typeParameter h withVariance) fun _ =>
    sealed_bind_of_forces (d := 1) (sealed_call (p := .typeParameterTail withVariance) h (Nat.le_refl 1))
      (fun _ _ _ _ => sealed_bind (sealed_expect "]") fun _ => sealed_done _)
      (fun _ => forces_bind (j := 0) (forces_expect "]") fun _ => forces_zero _)
      (Nat.le_add_right 1 e)

theorem sealed_typeParameters? (withVariance : Bool) :
    Sealed ends i j known e (typeParameters? withVariance) (typeParameters? withVariance) :=
  sealed_nextIs
    (fun _ _ => sealed_bind (sealed_typeParameters h withVariance) fun _ => sealed_done ())
    (.inr fun _ _ => Paced.takesAt (by simp [typeParameters])) (.inl (h.1 _ (by decide)))
    (sealed_done ())

theorem sealed_methodTypeBody : Sealed ends i j known e methodTypeBody methodTypeBody := by
  refine sealed_bind (sealed_typeParameters? h false) fun _ => ?_
  exact sealed_procedure h.endsTypes

theorem sealed_methodType : Sealed ends i j known e methodType methodType :=
  sealed_spanned (sealed_methodTypeBody h) forces_methodTypeBody

theorem sealed_typeList : Sealed ends i j known e typeList typeList :=
  sealed_bind (sealed_expect "[") fun _ => sealed_bind (sealed_type h.endsTypes) fun _ =>
    sealed_bind (sealed_call (p := .typeTail) h (Nat.zero_le e)) fun _ =>
      sealed_bind (sealed_expect "]") fun _ => sealed_done _

theorem sealed_selfTypes : Sealed ends i j known e selfTypes selfTypes :=
  sealed_bind (sealed_classReference h) fun _ =>
    sealed_bind (sealed_call (p := .selfTypeTail) h (Nat.zero_le e)) fun _ => sealed_done _

theorem sealed_useClause : Sealed ends i j known e useClause useClause := by
  refine sealed_spanned ?_ (Paced.forces (by simp [call, Phrase.rank, Phrase.takesToken]))
  refine sealed_accept_then (.inl (h.1 _ (by decide))) ?_
  refine sealed_bind_of_forces (sealed_call (p := .usePath) h (Nat.zero_le 0)) ?_
    (fun _ => forces_zero _) (Nat.zero_le _)
  rintro (_ | kind) s s₁ hgives
  · exact sealed_done ()
  have hkind : .endOfInput ∉ [kind] := by
    rw [List.mem_singleton]
    rintro rfl
    exact absurd (mem_nameKinds_of_usePath hgives) (by decide)
  refine sealed_peek (fun u _ => ?_) fun t v hv => ?_
  · refine sealed_ite (fun _ => ?_) fun _ => sealed_done ()
    exact sealed_skip (sealed_expectAny hkind fun _ _ => sealed_done ())
  · by_cases has : (t.kind == .lowerName && t.text == "as") = true
    · rw [if_pos has]
      refine .inr (.inl (Paced.takesAt ?_))
      simp only [bind_eq, paced_bind, paced_skip]
      exact fun _ _ _ => paced_expectAny hkind _ _
    · have hne : v.kind ≠ .lowerName := by
        intro heq
        rw [heq, h.2] at hv
        contradiction
      rw [if_neg has, if_neg (by simp [hne])]
      exact .inr (.inr (sealed_done ()))

theorem sealed_useClauses : Sealed ends i j known e useClauses useClauses :=
  sealed_bind (sealed_useClause h) fun _ =>
    sealed_bind (sealed_call (p := .useTail) h (Nat.zero_le e)) fun _ => sealed_done _

theorem sealed_moduleHead : Sealed ends i j known e moduleHead moduleHead := by
  refine sealed_spanned ?_ forces_of_qualified
  exact sealed_bind (sealed_qualified h.endsTypes .class_) fun _ =>
    sealed_bind (sealed_typeParameters? h true) fun _ =>
      sealed_accept_ite (.inl (h.1 _ (by decide)))
        (sealed_bind (sealed_selfTypes h) fun _ => sealed_done ()) (sealed_done ())

theorem sealed_classHead : Sealed ends i j known e classHead classHead := by
  refine sealed_spanned ?_ forces_of_qualified
  exact sealed_bind (sealed_qualified h.endsTypes .class_) fun _ =>
    sealed_bind (sealed_typeParameters? h true) fun _ =>
      sealed_accept_ite (.inl (h.1 _ (by decide))) (sealed_classReferenceBody h) (sealed_done ())

/-! ### Members -/

omit h in
theorem paced_methodName {limit : Nat} {known : Option Token} {post : Unit → Option Token → Prop} :
    methodName.Paced limit known post := by
  simp only [methodName, bind_eq, paced_bind, paced_peek, paced_ite, paced_skip, paced_fail,
    paced_expect, implies_true, and_true]
  intro t _
  have hend : t.kind.isOperatorName = true ∨ t.kind.isName = true ∨ t.kind.isKeyword = true →
      t.kind ≠ .endOfInput := by
    intro hkind heq
    simp [heq, Kind.isOperatorName, Kind.isName, Kind.isKeyword] at hkind
  simp_all [Token.isEnd]

omit h in
theorem forces_methodName : methodName.Forces 1 := Paced.forces paced_methodName

/-- Tokens behind `self` are looked at that need not be taken. The name of a method follows. -/
theorem sealed_singletonMarker : Sealed ends i j known 1 singletonMarker singletonMarker := by
  intro s a r _ hruns m k s' hm hk hs
  obtain ⟨t, ht, hcases⟩ := gives_singletonMarker.1 hruns.gives
  obtain ⟨t', -, ht₁, ht'⟩ := hs.tokenAt_of_lt (show 0 < m + k by omega)
  obtain rfl := Except.ok.inj (ht.symm.trans ht₁)
  -- If no token is taken on the first stream, none is on the second.
  have hnone (heq : s = r) (h' : singletonMarker.Gives s' () s') : ∃ r', singletonMarker.Gives s' a r' ∧
      s'.tokens.length = m + r'.tokens.length ∧ r.Alongside ends i j k r' := by
    subst heq
    obtain rfl : m = 0 := by omega
    rw [Nat.zero_add] at hs
    exact ⟨s', h', (Nat.zero_add _).symm, hs⟩
  rcases hcases with ⟨hself, heq⟩ | ⟨hself, u, hu, hcases⟩
  · exact hnone heq (gives_singletonMarker.2 ⟨_, ht', .inl ⟨hself, rfl⟩⟩)
  have htake := hs.take ht (by simp [Token.isEnd, hself]) hm
  rcases hcases with ⟨hdot, rfl⟩ | ⟨hquery, v, hv, ⟨hdot, rfl⟩ | ⟨hdot, heq⟩⟩ | ⟨hdot, hquery, heq⟩
  · -- The dot is taken on both streams.
    obtain ⟨_, m, -, -, rfl, hm₁, hs₁, hlen⟩ := htake (by simp [Stream.rest])
    obtain ⟨u', m, rfl, hu', rfl, hm₂, hs₂, hlen'⟩ :=
      hs₁.take hu (by simp [Token.isEnd, hdot]) hm₁ (Nat.le_refl _)
    obtain rfl : m = 0 := by omega
    rw [Nat.zero_add] at hs₂
    exact ⟨_, gives_singletonMarker.2 ⟨_, ht', .inr ⟨hself, _, hu', .inl ⟨hdot, rfl⟩⟩⟩, by omega, hs₂⟩
  · -- So are the question mark and the dot.
    obtain ⟨_, m, -, -, rfl, hm₁, hs₁, hlen⟩ := htake (by simp [Stream.rest]; omega)
    obtain ⟨u', m, rfl, hu', rfl, hm₂, hs₂, hlen'⟩ :=
      hs₁.take hu (by simp [Token.isEnd, hquery]) hm₁ (by simp [Stream.rest])
    obtain ⟨v', m, rfl, hv', rfl, hm₃, hs₃, hlen''⟩ :=
      hs₂.take hv (by simp [Token.isEnd, hdot]) hm₂ (Nat.le_refl _)
    obtain rfl : m = 0 := by omega
    rw [Nat.zero_add] at hs₃
    refine ⟨_, gives_singletonMarker.2 ⟨_, ht', .inr ⟨hself, _, hu', .inr (.inl ⟨hquery, _, hv',
      .inl ⟨hdot, rfl⟩⟩)⟩⟩, by omega, hs₃⟩
  all_goals
    subst heq
    obtain rfl : m = 0 := by omega
  · -- The question mark is the same, and not followed by a dot, or it is another token.
    refine hnone rfl (gives_singletonMarker.2 ⟨_, ht', .inr ⟨hself, ?_⟩⟩)
    rcases Nat.lt_or_ge 1 k with hlt | hge
    · obtain ⟨u', -, hu₁, hu'⟩ := hs.tokenAt_of_lt (show 1 < 0 + k by omega)
      rw [Stream.tokenAt_succ] at hu₁ hu'
      obtain rfl := Except.ok.inj (hu.symm.trans hu₁)
      refine ⟨_, hu', .inr (.inl ⟨hquery, ?_⟩)⟩
      rcases hs.tokenAt (show 2 ≤ 0 + k by omega) with ⟨v', -, hv₁, hv'⟩ | ⟨-, w, hw', hw⟩
      · rw [Stream.tokenAt_succ, Stream.tokenAt_succ] at hv₁ hv'
        obtain rfl := Except.ok.inj (hv.symm.trans hv₁)
        exact ⟨_, hv', .inr ⟨hdot, rfl⟩⟩
      · rw [Stream.tokenAt_succ, Stream.tokenAt_succ] at hw'
        exact ⟨w, hw', .inr ⟨h.kind_ne hw (by decide), rfl⟩⟩
    · obtain rfl : k = 1 := Nat.le_antisymm hge hk
      obtain ⟨w, hw', hw⟩ := hs.next
      rw [Nat.zero_add, Stream.tokenAt_succ] at hw'
      exact ⟨w, hw', .inr (.inr ⟨h.kind_ne hw (by decide), h.kind_ne hw (by decide), rfl⟩)⟩
  · refine hnone rfl (gives_singletonMarker.2 ⟨_, ht', .inr ⟨hself, ?_⟩⟩)
    rcases hs.tokenAt (show 1 ≤ 0 + k by omega) with ⟨u', -, hu₁, hu'⟩ | ⟨-, w, hw', hw⟩
    · rw [Stream.tokenAt_succ] at hu₁ hu'
      obtain rfl := Except.ok.inj (hu.symm.trans hu₁)
      exact ⟨_, hu', .inr (.inr ⟨hdot, hquery, rfl⟩)⟩
    · rw [Stream.tokenAt_succ] at hw'
      exact ⟨w, hw', .inr (.inr ⟨h.kind_ne hw (by decide), h.kind_ne hw (by decide), rfl⟩)⟩

theorem sealed_methodName : Sealed ends i j known e methodName methodName := by
  refine sealed_peek (fun u _ => ?_) fun t _ _ =>
    .inr (.inl (Paced.takesAt (paced_methodName.of_peek t)))
  rw [show (u.shift i).kind = u.kind from rfl, show (u.shift j).kind = u.kind from rfl]
  refine sealed_ite (fun _ => ?_) fun _ => sealed_ite (fun _ => ?_) fun _ =>
    sealed_ite (fun _ => ?_) fun _ => sealed_fail _ _
  · refine sealed_skip (sealed_bind_behind (sealed_expect "]") (fun s a s₁ _ hgives => ?_) fun _ => ?_)
    · have := forces_expect "]" s a s₁ hgives
      omega
    · exact sealedBehind_attached (h.1 _ (by decide)) (sealed_done ()) (sealed_done ()).behind
  · exact sealed_skip (sealed_done ())
  · refine sealed_skip_behind (sealedBehind_attached (h.1 _ (by decide)) (sealed_done ()) ?_)
    refine sealedBehind_attached (h.1 _ (by decide)) (sealed_done ()) ?_
    exact sealedBehind_attached (h.1 _ (by decide)) (sealed_done ()) (sealed_done ()).behind

/-- Members are read behind a token that is known, the word that starts them; so `methodMember` is
sealed. -/
theorem sealed_methodMember {t : Token} :
    Sealed ends i j (t :: known) e methodMember methodMember := by
  have hforces (key : Bool) : (if key then
      skip.bind fun _ => (call .methodTypes).bind fun _ => done () else methodName.bind fun _ =>
        (expect ":").bind fun _ => (call .methodTypes).bind fun _ => done ()).Forces 1 :=
    forces_ite (forces_last fun _ => forces_methodTypes)
      (forces_last fun _ => forces_last fun _ => forces_methodTypes)
  have hcall : Sealed ends i j [] e ((call .methodTypes).bind fun _ => done ())
      ((call .methodTypes).bind fun _ => done ()) :=
    sealed_bind (sealed_call (p := .methodTypes) h (Nat.zero_le e)) fun _ => sealed_done ()
  refine sealed_skip (sealed_bind_of_forces (sealed_singletonMarker h) (fun _ _ _ _ => ?_)
    (fun _ => ?_) (Nat.le_add_right 1 e))
  · refine sealed_peek (fun u _ => ?_) fun t _ _ => .inr (.inl ?_)
    · rw [show (u.shift i).kind = u.kind from rfl, show (u.shift j).kind = u.kind from rfl]
      refine sealed_ite (fun _ => sealed_skip hcall) fun _ => ?_
      exact sealed_bind (sealed_methodName h) fun _ => sealed_bind (sealed_expect ":") fun _ => hcall
    · exact (hforces _).takesAt t
  · exact forces_last fun _ => hforces _

theorem sealed_attributeMember {t : Token} :
    Sealed ends i j (t :: known) e attributeMember attributeMember := by
  have hvariable : ((expect ")").bind fun _ => (expect ":").bind fun _ => typeBody).Forces 1 :=
    forces_last fun _ => forces_last fun _ => forces_typeBody
  have hname : ((expectAny [.lowerName] "an attribute name").bind fun _ => (expect "(").bind fun _ =>
      (acceptKind .instanceVariable).bind fun _ => (expect ")").bind fun _ =>
        (expect ":").bind fun _ => typeBody).Forces 1 :=
    forces_last fun _ => forces_last fun _ => forces_last fun _ => hvariable
  refine sealed_skip (sealed_bind_of_forces (sealed_singletonMarker h) (fun _ _ _ _ => ?_)
    (fun _ => ?_) (Nat.le_add_right 1 e))
  · refine sealed_nextIs (fun t _ => sealed_skip (sealed_typeBody h.endsTypes))
      (.inr fun t ht => Paced.takesAt (by simp [Token.isEnd, ht])) (.inr (.inr hname)) ?_
    refine sealed_expectAny (by decide) fun _ _ => sealed_bind (sealed_expect "(") fun _ => ?_
    refine sealed_acceptKind_then (by simp) (.inr (.inr hvariable)) ?_
    exact sealed_bind (sealed_expect ")") fun _ => sealed_bind (sealed_expect ":") fun _ =>
      sealed_typeBody h.endsTypes
  · exact forces_last fun _ => forces_ite (forces_last fun _ => forces_typeBody) hname

theorem sealed_typed : Sealed ends i j known e typed typed :=
  sealed_bind (sealed_expect ":") fun _ => sealed_typeBody h.endsTypes

theorem sealed_aliasTarget : Sealed ends i j known e aliasTarget aliasTarget :=
  sealed_bind_of_forces (sealed_singletonMarker h) (fun _ _ _ _ => sealed_methodName h)
    (fun _ => forces_methodName) (Nat.le_add_right 1 e)

/-- `classDeclaration` is sealed, if its heritage is. -/
theorem sealed_classDeclaration {t : Token} {heritage : Script Unit}
    (hheritage : Sealed ends i j [] e heritage heritage) :
    Sealed ends i j (t :: known) e (classDeclaration heritage) (classDeclaration heritage) := by
  refine sealed_skip (sealed_bind (sealed_qualified h.endsTypes .class_) fun _ => ?_)
  refine sealed_accept_ite (.inl (h.1 _ (by decide))) (sealed_qualified h.endsTypes .class_) ?_
  exact sealed_bind (sealed_typeParameters? h true) fun _ => sealed_bind hheritage fun _ =>
    sealed_call (p := .members) h (Nat.zero_le e)

theorem sealed_aliasDeclaration {t : Token} :
    Sealed ends i j (t :: known) e aliasDeclaration aliasDeclaration := by
  refine sealed_skip (sealed_accept_then (.inl (h.1 _ (by decide))) ?_)
  refine sealed_bind (sealed_call (p := .aliasPath) h (Nat.zero_le e)) fun _ => ?_
  exact sealed_bind (sealed_typeParameters? h true) fun _ =>
    sealed_bind (sealed_expect "=") fun _ => sealed_typeBody h.endsTypes

/-- A variable of the class itself: the three tokens that are looked at are taken, if it is one. -/
theorem sealed_selfVariable (t : Token) (error error' : Error) :
    Sealed ends i j [t] e
      (peekSecond.bind fun u => if u.kind == .mark "." then peekThird.bind fun v =>
          if v.kind == .instanceVariable then skip.bind fun _ => skip.bind fun _ => skip.bind fun _ =>
            typed else fail error
        else fail error)
      (peekSecond.bind fun u => if u.kind == .mark "." then peekThird.bind fun v =>
          if v.kind == .instanceVariable then skip.bind fun _ => skip.bind fun _ => skip.bind fun _ =>
            typed else fail error'
        else fail error') := by
  have htyped : typed.Forces 2 :=
    forces_bind (i := 1) (j := 1) (forces_expect ":") fun _ => forces_typeBody
  have htakes {s r : Stream} (hknown : [t] <+: s.tokens)
      (hgives : (skip.bind fun _ => skip.bind fun _ => skip.bind fun _ => typed).Gives s () r) :
      3 + r.tokens.length ≤ s.tokens.length := by
    obtain ⟨more, hmore⟩ := hknown
    obtain ⟨_, _, hskip, hrest⟩ := gives_bind.1 hgives
    obtain ⟨-, rfl⟩ := gives_skip.1 hskip
    have := forces_last (fun _ => forces_last fun _ => htyped) _ _ _ hrest
    simp only [Stream.rest, ← hmore, List.singleton_append, List.tail_cons, List.length_cons] at this ⊢
    omega
  have htyped' : typed.Forces 1 := forces_last fun _ => forces_typeBody
  refine sealed_peekAt (fun u => sealed_ite (fun _ => ?_) fun _ => sealed_fail _ _)
    fun u s a r hknown hgives => ?_
  · refine sealed_peekAt (fun v => sealed_ite (fun _ => ?_) fun _ => sealed_fail _ _)
      fun v s a r hknown hgives => ?_
    · exact sealed_skip (sealed_skip_of_forces (sealed_skip_of_forces (sealed_typed h) htyped')
        (forces_last fun _ => htyped'))
    · replace hgives : (if (v.kind == .instanceVariable) = true then _ else fail error).Gives s a r :=
        hgives
      split at hgives
      · exact htakes hknown hgives
      · exact absurd hgives not_gives_fail
  · replace hgives : (if (u.kind == .mark ".") = true then _ else fail error).Gives s a r := hgives
    split at hgives
    · obtain ⟨v, _, hv, hgives⟩ := gives_bind.1 hgives
      obtain ⟨-, rfl⟩ := gives_peekThird.1 hv
      split at hgives
      · have := htakes hknown hgives
        omega
      · exact absurd hgives not_gives_fail
    · exact absurd hgives not_gives_fail

theorem sealed_member : Sealed ends i j known e member member := by
  refine sealed_peek (fun u _ => ?_) fun t _ _ =>
    .inr (.inl (Paced.takesAt ((paced_member.mono (by decide)).of_peek t)))
  rw [show (u.shift i).kind = u.kind from rfl, show (u.shift j).kind = u.kind from rfl]
  split
  · exact sealed_skip (sealed_done ())
  · exact sealed_skip (sealed_done ())
  · exact sealed_methodMember h
  · exact sealed_attributeMember h
  · exact sealed_attributeMember h
  · exact sealed_attributeMember h
  · exact sealed_skip (sealed_classReferenceBody h)
  · exact sealed_skip (sealed_classReferenceBody h)
  · exact sealed_skip (sealed_classReferenceBody h)
  · exact sealed_skip (sealed_typed h)
  · exact sealed_selfVariable h _ _ _
  · exact sealed_skip (sealed_bind (sealed_aliasTarget h) fun _ => sealed_aliasTarget h)
  · exact sealed_aliasDeclaration h
  · exact sealed_classDeclaration h
      (sealed_accept_ite (.inl (h.1 _ (by decide))) (sealed_classReferenceBody h) (sealed_done ()))
  · exact sealed_classDeclaration h (sealed_accept_ite (.inl (h.1 _ (by decide)))
      (sealed_bind (sealed_selfTypes h) fun _ => sealed_done ()) (sealed_done ()))
  · exact sealed_skip (sealed_bind (sealed_qualified h.endsTypes .class_) fun _ =>
      sealed_bind (sealed_typeParameters? h true) fun _ =>
        sealed_call (p := .members) h (Nat.zero_le e))
  · exact sealed_skip (sealed_bind (sealed_useClauses h) fun _ => sealed_done ())
  · exact sealed_skip (sealed_typed h)
  · exact sealed_skip (sealed_typeBody h.endsTypes)
  · exact sealed_call (p := .constantPath) h (Nat.zero_le e)
  · exact sealed_skip (sealed_call (p := .constantPath) h (Nat.zero_le e))
  · exact sealed_fail _ _

end Members

/-! ### Phrases -/

section Phrases

variable {ends : Kind → Bool} {i j : Nat} {known : List Token}

/-- `Phrase.script` is read alike on streams side by side, as far as it ends before what follows. -/
theorem Phrase.sealed_script {p : Phrase} (h : p.EndsBefore ends) :
    Sealed ends i j known p.leeway p.script p.script := by
  cases p with
  | declarations => exact h.elim
  | members =>
    refine have hpaced : (peek.bind _).Paced 3 none fun _ _ => False := ?_
      sealed_bind_of_forces (sealed_call (p := .tags) h (Nat.le_refl 1)) (fun _ _ _ _ =>
        sealed_peek (fun u _ => ?_) fun t _ _ => .inr (.inl (hpaced.of_peek t).takesAt))
      (fun _ => hpaced.forces) (Nat.le_add_right 1 0)
    · simp only [paced_bind, paced_peek]
      intro t _
      split <;> simp_all [Token.isEnd]
      exact paced_member.mono (by decide)
    rw [show (u.shift i).kind = u.kind from rfl, show (u.shift j).kind = u.kind from rfl]
    split
    · exact sealed_skip (sealed_done ())
    · exact sealed_fail _ _
    · exact sealed_bind (sealed_member h) fun _ => sealed_call (p := .members) h (Nat.le_refl 0)
  | optional =>
    exact sealed_bind (sealed_simple h) fun _ =>
      sealed_accept_then (.inl (h _ (by decide))) (sealed_done ())
  | intersectionTail =>
    exact sealed_accept_bind (.inl (h _ (by decide))) (sealed_intersection h) (sealed_done ())
  | unionTail =>
    exact sealed_accept_bind (.inl (h _ (by decide)))
      (sealed_bind (sealed_intersection h) fun _ =>
        sealed_call (p := .unionTail) h (Nat.le_refl 0)) (sealed_done ())
  | path sort =>
    refine sealed_expectAny (by cases sort <;> decide) fun u _ =>
      sealed_ite (fun _ => ?_) fun _ => sealed_done ()
    exact sealed_accept_bind (.inl (h _ (by decide)))
      (sealed_call (p := .path sort) h (Nat.le_refl 0)) (sealed_done ())
  | argumentTail =>
    refine sealed_accept_bind (.inr (.inl (Nat.le_refl 1))) ?_ (sealed_done ())
    exact sealed_nextIs (fun _ _ => sealed_done ()) (.inl (Nat.le_refl 1)) (.inr (.inl (Nat.le_refl 1)))
      (sealed_bind (sealed_typeBody h) fun _ => sealed_call (p := .argumentTail) h (Nat.le_refl 1))
  | recordFields =>
    have hnext : (call .recordFields).Forces 1 :=
      Paced.forces (by simp [call, Phrase.rank, Phrase.takesToken])
    refine sealed_accept_then (.inr (.inr ?_)) ?_
    · exact forces_bind (j := 0) (Paced.forces paced_recordKey) fun _ => forces_zero _
    refine sealed_bind sealed_recordKey fun _ => sealed_bind (sealed_typeBody h) fun _ => ?_
    exact sealed_accept_ite (.inr (.inr (forces_expect "\x7d")))
      (sealed_accept_ite (.inr (.inr hnext)) (sealed_done ())
        (sealed_call (p := .recordFields) h (Nat.le_refl 0))) (sealed_expect "\x7d")
  | parameters afterKey =>
    refine sealed_bind_of_forces (sealed_parameterHead afterKey) (fun afterKey _ _ _ => ?_)
      (fun _ => forces_bind (j := 0) forces_typeBody fun _ => forces_zero _) (Nat.le_add_right 1 1)
    refine sealed_bind (sealed_typeBody h) fun _ => ?_
    refine sealed_acceptKind_then (by simp) (.inr (.inl (Nat.le_refl 1))) ?_
    refine sealed_accept_ite (.inr (.inl (Nat.le_refl 1))) ?_ (sealed_done ())
    exact sealed_nextIs (fun _ _ => sealed_done ()) (.inl (Nat.le_refl 1))
      (.inr (.inl (Nat.le_refl 1))) (sealed_call (p := .parameters afterKey) h (Nat.le_refl 1))
  | tags =>
    refine sealed_nextIs (fun t _ => sealed_advance fun u hu => ?_) (.inl (Nat.le_refl 1))
      (.inr (.inl (Nat.le_refl 1))) (sealed_done [])
    subst hu
    exact sealed_bind (sealed_call (p := .tags) h (Nat.le_refl 1)) fun _ => sealed_done _
  | methodTypes =>
    refine sealed_bind_of_forces (sealed_call (p := .tags) h (Nat.le_refl 1)) (fun _ _ _ _ => ?_)
      (fun _ => ?_) (Nat.le_add_right 1 0)
    · refine sealed_accept_ite (.inl (h.1 _ (by decide))) (sealed_done []) ?_
      refine sealed_bind (sealed_methodType h) fun _ => sealed_accept_ite (.inl (h.1 _ (by decide))) ?_
        (sealed_done _)
      exact sealed_bind (sealed_call (p := .methodTypes) h (Nat.le_refl 0)) fun _ => sealed_done _
    · exact Paced.forces (by simp [paced_methodType])
  | typeTail =>
    refine sealed_accept_ite (.inl (h.1 _ (by decide))) ?_ (sealed_done [])
    exact sealed_bind (sealed_type h.endsTypes) fun _ =>
      sealed_bind (sealed_call (p := .typeTail) h (Nat.le_refl 0)) fun _ => sealed_done _
  | typeParameterTail withVariance =>
    refine sealed_accept_ite (.inl (h.1 _ (by decide))) ?_ (sealed_done [])
    refine sealed_nextIs (fun _ _ => sealed_done []) (.inl (Nat.le_refl 1))
      (.inr (.inl (Nat.le_refl 1))) ?_
    exact sealed_bind (sealed_typeParameter h withVariance) fun _ =>
      sealed_bind (sealed_call (p := .typeParameterTail withVariance) h (Nat.le_refl 1))
        fun _ => sealed_done _
  | selfTypeTail =>
    refine sealed_accept_ite (.inl (h.1 _ (by decide))) ?_ (sealed_done [])
    exact sealed_bind (sealed_classReference h) fun _ =>
      sealed_bind (sealed_call (p := .selfTypeTail) h (Nat.le_refl 0)) fun _ => sealed_done _
  | useTail =>
    refine sealed_accept_ite (.inl (h.1 _ (by decide))) ?_ (sealed_done [])
    exact sealed_bind (sealed_useClause h) fun _ =>
      sealed_bind (sealed_call (p := .useTail) h (Nat.le_refl 0)) fun _ => sealed_done _
  | usePath =>
    refine sealed_expectAny (by decide) fun u _ => sealed_ite (fun _ => ?_) fun _ => sealed_done _
    refine sealed_accept_ite (.inl (h.1 _ (by decide))) ?_ (sealed_done _)
    exact sealed_accept_ite (.inl (h.1 _ (by decide))) (sealed_done none)
      (sealed_call (p := .usePath) h (Nat.le_refl 0))
  | aliasPath =>
    refine sealed_expectAny (by decide) fun u _ => sealed_ite (fun _ => ?_) fun _ => sealed_done ()
    exact sealed_bind (sealed_expect "::") fun _ =>
      sealed_call (p := .aliasPath) h (Nat.le_refl 0)
  | constantPath =>
    refine sealed_nextIs (fun t _ => sealed_skip (sealed_typeBody h.endsTypes))
      (.inr fun t ht => Paced.takesAt (by simp [Token.isEnd, ht])) (.inr (.inr ?_)) ?_
    · exact forces_bind (j := 0) (Paced.forces (paced_expectAny (by decide) _ _)) fun _ =>
        forces_zero _
    · exact sealed_expectAny (by decide) fun _ _ => sealed_bind (sealed_expect "::") fun _ =>
        sealed_call (p := .constantPath) h (Nat.le_refl 0)

end Phrases

/-! ### Runs side by side -/

/-- Tokens that may follow do not go on with what the script reads. -/
def Script.EndsAt (ends : Kind → Bool) (x : Script α) : Prop := ∀ i j, Sealed ends i j [] 0 x x

/-- What a phrase reads on a stream it reads on every stream beside it (`Reproduced`). -/
theorem Phrase.reproduced {ends : Kind → Bool} {i j : Nat} (p : Phrase) (s : Stream) (a : p.Answer)
    (t : Stream) (h : p.script.Runs (Reproduced ends i j) s a t) : Reproduced ends i j p s a t :=
  fun hp => sealed_script hp s a t List.nil_prefix h

/-- What a script gives on a stream it gives on every stream with the same tokens up to one that may
follow, and there it takes these tokens, as far as they are taken on the first stream. -/
theorem Script.gives_of_alongside {ends : Kind → Bool} {i j m k : Nat} {x : Script α}
    {s s' t : Stream} {a : α} (hx : x.EndsAt ends) (h : x.Gives s a t)
    (hm : s.tokens.length = m + t.tokens.length) (hs : s.Alongside ends i j (m + k) s') :
    ∃ t', x.Gives s' a t' ∧ s'.tokens.length = m + t'.tokens.length ∧ t.Alongside ends i j k t' :=
  hx i j s a t List.nil_prefix (runs_of_gives Phrase.reproduced h) m k s' hm (Nat.zero_le k) hs

/-! ### Remarks -/

/-- The kinds of tokens that no signature goes on with: the end of input, and a dash. -/
def Kind.isCalm (kind : Kind) : Bool := kind == .endOfInput || kind == .mark "-"

/-- At the end of input and in front of a dash all phrases end, members as well. -/
theorem endsMembers_isCalm : EndsMembers Kind.isCalm := by
  refine ⟨fun mark hmark => ?_, rfl⟩
  simpa [Kind.isCalm] using hmark

/-- At the end of input and in front of a dash types end. -/
theorem endsTypes_isCalm : EndsTypes Kind.isCalm := endsMembers_isCalm.endsTypes

end TypeNotes.Signature
