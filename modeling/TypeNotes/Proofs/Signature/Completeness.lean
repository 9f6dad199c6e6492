import TypeNotes.Proofs.Signature.Soundness

/-!
# What can be derived is read

Whatever the rules derive as a type, a block signature or a method type, the scripts of the grammar
read. A script never goes back, so at each of its choices the next tokens have to tell how any
derivation goes on there.

**First tokens.** A type starts with a token that none of the marks which may stand in its place
is (`Cut.startsType`). This settles closing brackets, trailing commas and the marks in front of
parameters.

**Last tokens.** A type is read as far as it goes. It is read to the end that a derivation gives it
if what follows could not go on with it: none of the marks of `typeMarks` stands next.

**Question marks.** The result of a procedure type is optional or not, and so is the procedure type
itself, so a question mark behind it may belong to either. It is read as part of the result. A
simple or optional type is therefore read up to the end that a derivation gives it and any number
of question marks after that (`TypesComplete`); the marks are made up for further out.
-/

namespace TypeNotes.Signature

open Script Grammar

variable {ts mid rest : List Token}

/-! ### First tokens -/

/-- None of these marks stands next. -/
def Free (marks : List String) (ts : List Token) : Prop :=
  ∀ text ∈ marks, headKind ts ≠ .mark text

theorem Free.headKind_ne {marks : List String} (h : Free marks ts) {text : String}
    (ht : text ∈ marks) : headKind ts ≠ .mark text := h text ht

/-- A mark that stands next is none of the others. -/
theorem Free.of_mark {marks : List String} {text : String} (h : headKind ts = .mark text)
    (ht : text ∉ marks) : Free marks ts := by
  intro other hother heq
  rw [h] at heq
  cases heq
  exact ht hother

/-- Fewer marks are free where more are (`Free`). -/
theorem Free.mono {marks marks' : List String} (h : Free marks ts) (hsub : marks' ⊆ marks) :
    Free marks' ts := fun text htext => h text (hsub htext)

namespace Cut

/-- A token that is cut off is the first one. -/
theorem exists_token {fits : Token → Bool} (h : Cut (.token fits) ts rest) :
    ∃ t, ts = t :: rest ∧ fits t = true := by
  obtain ⟨_, rfl, h⟩ := h
  obtain ⟨t, rfl, ht⟩ := derives_token.1 h
  exact ⟨t, rfl, ht⟩

theorem exists_ofKind {kind : Kind} (h : Cut (.ofKind kind) ts rest) :
    ∃ t, ts = t :: rest ∧ t.kind = kind := by
  obtain ⟨t, hts, ht⟩ := exists_token h
  exact ⟨t, hts, by simpa using ht⟩

theorem exists_mark {text : String} (h : Cut (.mark text) ts rest) :
    ∃ t, ts = t :: rest ∧ t.kind = .mark text := exists_ofKind h

theorem headKind_mark {text : String} (h : Cut (.mark text) ts rest) :
    headKind ts = .mark text := by
  obtain ⟨t, rfl, ht⟩ := exists_mark h
  exact ht

/-- Where a form starts with a mark, this mark stands next. -/
theorem headKind_mark_andThen {text : String} {b : Form} (h : Cut (.mark text >> b) ts rest) :
    headKind ts = .mark text := by
  obtain ⟨_, h, -⟩ := h.exists_of_andThen
  exact h.headKind_mark

/-- What is cut off as a nonterminal (`Cut`) is cut off by its rule. -/
theorem rule {n : Nonterminal} (h : Cut (.phrase n) ts rest) : Cut n.rule ts rest := by
  obtain ⟨us, hts, h⟩ := h
  exact ⟨us, hts, derives_phrase.1 h⟩

end Cut

/-- Whether a type can start with a token of this kind. -/
def Kind.startsType (kind : Kind) : Bool :=
  kind ∈ [.mark "(", .mark "^", .mark "[", .mark "\x7b", .mark "::", .keyword "singleton"] ||
    kind.isBaseType || kind.isLiteral || kind.isName

/-- A path starts with a name. -/
theorem Cut.isName_of_path
    (h : Cut (.many (.ofKind .upperName >> .mark "::") >> .nameEnd) ts rest) :
    (headKind ts).isName = true := by
  obtain ⟨mid, hmany, hlast⟩ := h.exists_of_andThen
  rcases hmany.cases_of_many with rfl | ⟨_, hfirst, -⟩
  · obtain ⟨t, rfl, ht⟩ := hlast.exists_token
    exact ht
  · obtain ⟨_, hupper, -⟩ := hfirst.exists_of_andThen
    obtain ⟨t, rfl, ht⟩ := hupper.exists_ofKind
    simp [ht, Kind.isName]

/-- A name starts with a name or with two colons. -/
theorem Cut.isName_of_name (h : Cut (.phrase .name) ts rest) :
    (headKind ts).isName = true ∨ headKind ts = .mark "::" := by
  obtain ⟨mid, hroot, hpath⟩ := h.rule.exists_of_andThen
  rcases hroot.cases_of_maybe with rfl | hroot
  · exact .inl hpath.isName_of_path
  · exact .inr hroot.headKind_mark

/-- A simple type starts with a token that `Kind.startsType` tells. -/
theorem Cut.startsType_of_simple (h : Cut (.phrase .simple) ts rest) :
    (headKind ts).startsType = true := by
  -- Six forms start with a mark, and then come words, literals and names.
  rcases h.rule.cases_of_orElse with h | h
  · simp [h.headKind_mark_andThen, Kind.startsType]
  rcases h.cases_of_orElse with h | h
  · simp [h.headKind_mark_andThen, Kind.startsType]
  rcases h.cases_of_orElse with h | h
  · simp [h.headKind_mark_andThen, Kind.startsType]
  rcases h.cases_of_orElse with h | h
  · simp [h.headKind_mark_andThen, Kind.startsType]
  rcases h.cases_of_orElse with h | h
  · simp [h.headKind_mark_andThen, Kind.startsType]
  rcases h.cases_of_orElse with h | h
  · simp [h.headKind_mark_andThen, Kind.startsType]
  rcases h.cases_of_orElse with h | h
  · obtain ⟨_, h, -⟩ := h.exists_of_andThen
    obtain ⟨t, rfl, ht⟩ := h.exists_ofKind
    simp [ht, Kind.startsType]
  rcases h.cases_of_orElse with h | h
  · obtain ⟨t, rfl, ht⟩ := h.exists_token
    simp [ht, Kind.startsType]
  rcases h.cases_of_orElse with h | h
  · obtain ⟨t, rfl, ht⟩ := h.exists_token
    simp [ht, Kind.startsType]
  · obtain ⟨_, h, -⟩ := h.exists_of_andThen
    rcases h.isName_of_name with h | h <;> simp [h, Kind.startsType]

/-- `startsType` holds of the first token of a type. -/
theorem Cut.startsType (h : Cut (.phrase .type) ts rest) : (headKind ts).startsType = true := by
  obtain ⟨_, h, -⟩ := h.rule.exists_of_andThen
  obtain ⟨_, h, -⟩ := h.rule.exists_of_andThen
  obtain ⟨_, h, -⟩ := h.rule.exists_of_andThen
  exact h.startsType_of_simple

/-- A type does not start with any other mark. -/
theorem Cut.headKind_ne_of_type {kind : Kind} (h : Cut (.phrase .type) ts rest)
    (hkind : kind.startsType = false) : headKind ts ≠ kind := by
  rintro rfl
  rw [h.startsType] at hkind
  cases hkind

/-! ### Small scripts -/

/-- `expect` reads a mark that is derived. -/
theorem readsTo_expect {text : String} (h : Cut (.mark text) ts rest) :
    (expect text).ReadsTo ts rest := by
  obtain ⟨t, rfl, ht⟩ := h.exists_mark
  exact .expect ht rfl

/-- `accept` takes a mark that is derived. -/
theorem leaves_accept {text : String} {post : Bool → List Token → Prop}
    (h : Cut (.mark text) ts rest) (hpost : post true rest) : (accept text).Leaves ts post := by
  obtain ⟨t, rfl, ht⟩ := h.exists_mark
  exact .accept_hit ht hpost

/-! ### Names -/

/-- A path is read to its end, where no two colons follow. -/
theorem readsTo_path (h : Cut (.many (.ofKind .upperName >> .mark "::") >> .nameEnd) ts rest)
    (hrest : headKind rest ≠ .mark "::") : (call (.path .type)).ReadsTo ts rest := by
  induction hlen : ts.length using Nat.strongRecOn generalizing ts with
  | ind n ih =>
    subst hlen
    refine .call ?_
    obtain ⟨mid, hpath, hlast⟩ := h.exists_of_andThen
    simp only [Phrase.script, bind_eq, pure_eq]
    rcases hpath.cases_of_many with rfl | ⟨mid', hfirst, hmany⟩
    · -- The last name: the loop stops because no separator follows.
      obtain ⟨t, rfl, ht⟩ := hlast.exists_token
      have hmem : t.kind ∈ NameSort.kinds .type := by
        cases hkind : t.kind <;> simp_all [Kind.isName, NameSort.kinds, nameKinds]
      refine .bind (.expectAny hmem ?_)
      split
      · exact .bind (.accept_miss hrest (.done rfl))
      · exact .done rfl
    · obtain ⟨_, hupper, hsep⟩ := hfirst.exists_of_andThen
      obtain ⟨t, rfl, ht⟩ := hupper.exists_ofKind
      have hmem : t.kind ∈ NameSort.kinds .type := by simp [ht, NameSort.kinds, nameKinds]
      refine .bind (.expectAny hmem ?_)
      rw [if_pos (by simpa using ht)]
      refine .bind (leaves_accept hsep ?_)
      have hlt := hsep.length_lt_of_mark
      exact ih mid'.length (by simp only [List.length_cons]; omega) (hmany.andThen hlast) rfl

/-- `qualified` reads a name to its end if no separator follows. -/
theorem readsTo_qualified (h : Cut (.phrase .name) ts rest) (hrest : headKind rest ≠ .mark "::") :
    (qualified .type).ReadsTo ts rest := by
  obtain ⟨mid, hroot, hpath⟩ := h.rule.exists_of_andThen
  simp only [qualified, bind_eq]
  rcases hroot.cases_of_maybe with rfl | hroot
  · have hhead : headKind ts ≠ .mark "::" := by
      intro hsep
      have hname := hpath.isName_of_path
      simp [hsep, Kind.isName] at hname
    exact .bind (.accept_miss hhead (readsTo_path hpath hrest))
  · exact .bind (leaves_accept hroot (readsTo_path hpath hrest))

/-! ### Parts of types -/

/-- The marks that go on with a name. -/
def nameMarks : List String := ["[", "::"]

/-- The marks that go on with a type. -/
def typeMarks : List String := ["|", "&", "?", "[", "::"]

/-- Optional types and types that can be derived from fewer tokens are read: an optional type
perhaps with more question marks, a type to its end. -/
def TypesComplete (count : Nat) : Prop :=
  ∀ ts rest : List Token, ts.length < count →
    (Cut (.phrase .optional) ts rest → Free nameMarks rest →
      (call .optional).Leaves ts fun _ r => Cut (.many (.mark "?")) rest r) ∧
    (Cut (.phrase .type) ts rest → Free typeMarks rest → typeBody.ReadsTo ts rest)

/-- After an item of a list another one follows its mark, or what follows the list stands next. -/
theorem headKind_of_many {text : String} {a : Form}
    (h : Cut (.many (.mark text >> a)) ts rest) : headKind ts = .mark text ∨ ts = rest := by
  rcases h.cases_of_many with rfl | ⟨_, hfirst, -⟩
  · exact .inr rfl
  · exact .inl hfirst.headKind_mark_andThen

/-- After an item of a list a comma stands next, or what follows the list. -/
theorem headKind_of_commas {a : Form}
    (h : Cut (.many (.mark "," >> a) >> .maybe (.mark ",")) ts rest) :
    headKind ts = .mark "," ∨ ts = rest := by
  obtain ⟨mid, hmany, hend⟩ := h.exists_of_andThen
  rcases headKind_of_many hmany with hcomma | rfl
  · exact .inl hcomma
  · rcases hend.cases_of_maybe with rfl | hcomma
    · exact .inr rfl
    · exact .inl hcomma.headKind_mark

/-- Marks other than that of a list go on after its items only if they go on after the list. -/
theorem free_of_many {text : String} {a : Form} {marks : List String}
    (h : Cut (.many (.mark text >> a)) ts rest) (hmark : text ∉ marks) (hrest : Free marks rest) :
    Free marks ts := by
  rcases headKind_of_many h with hhead | rfl
  · exact .of_mark hhead hmark
  · exact hrest

/-- Further items behind commas start with a comma, so no other marks stand there. -/
theorem free_of_commas {a : Form} {marks : List String}
    (h : Cut (.many (.mark "," >> a) >> .maybe (.mark ",")) ts rest) (hcomma : "," ∉ marks)
    (hrest : Free marks rest) : Free marks ts := by
  rcases headKind_of_commas h with hhead | rfl
  · exact .of_mark hhead hcomma
  · exact hrest

/-- What is left over may begin with further question marks only if the rest does. -/
theorem eq_of_cut_many_mark {text : String} (h : Cut (.many (.mark text)) ts rest)
    (hts : headKind ts ≠ .mark text) : rest = ts := by
  rcases h.cases_of_many with rfl | ⟨_, hfirst, -⟩
  · rfl
  · exact absurd hfirst.headKind_mark hts

section Parts

variable {count : Nat} (ih : TypesComplete count)

include ih

/-- Further arguments are read to the closing bracket, also behind a trailing comma. -/
theorem readsTo_argumentTail (hlen : ts.length < count)
    (h : Cut (.many (.mark "," >> .phrase .type) >> .maybe (.mark ",")) ts rest)
    (hrest : headKind rest = .mark "]") : (call .argumentTail).ReadsTo ts rest := by
  induction hn : ts.length using Nat.strongRecOn generalizing ts with
  | ind n loop =>
    subst hn
    refine .call ?_
    obtain ⟨mid, htypes, hend⟩ := h.exists_of_andThen
    simp only [Phrase.script, nextIsMark, bind_eq, pure_eq]
    rcases htypes.cases_of_many with rfl | ⟨mid', hfirst, hmany⟩
    · -- No type is left; a comma in front of the bracket is read as well.
      rcases hend.cases_of_maybe with rfl | hcomma
      · exact .bind (.accept_miss (by simp [hrest]) (.done rfl))
      · refine .bind (leaves_accept hcomma (.bind (.nextIs ?_)))
        rw [if_pos (by simpa using hrest)]
        exact .done rfl
    · obtain ⟨_, hcomma, htype⟩ := hfirst.exists_of_andThen
      have hlt := hcomma.length_lt_of_mark
      refine .bind (leaves_accept hcomma (.bind (.nextIs ?_)))
      rw [if_neg (by simpa using htype.headKind_ne_of_type rfl)]
      have htail := hmany.andThen hend
      have hmid : Free typeMarks mid' :=
        free_of_commas htail (by decide) (.of_mark hrest (by decide))
      have hle := htype.length_le
      refine ((ih _ mid' (by omega)).2 htype hmid).andThen fun _ => ?_
      exact loop _ (by omega) (by omega) htail rfl

/-- A list of types in brackets, behind the opening bracket. -/
theorem readsTo_arguments (hlen : ts.length < count)
    (h : Cut (.phrase .types >> .mark "]") ts rest) : arguments.ReadsTo ts rest := by
  obtain ⟨mid, htypes, hclose⟩ := h.exists_of_andThen
  obtain ⟨mid', htype, htail⟩ := htypes.rule.exists_of_andThen
  have hmid : Free typeMarks mid' :=
    free_of_commas htail (by decide) (.of_mark hclose.headKind_mark (by decide))
  have hle := htype.length_le
  simp only [arguments, bind_eq]
  refine ((ih ts mid' hlen).2 htype hmid).andThen fun _ => ?_
  refine (readsTo_argumentTail ih (by omega) htail hclose.headKind_mark).andThen fun _ => ?_
  exact readsTo_expect hclose

/-- A result is read with all question marks behind it. -/
theorem leaves_result (hlen : ts.length ≤ count)
    (h : Cut (.mark "->" >> .phrase .optional) ts rest) (hrest : Free nameMarks rest) :
    result.Leaves ts fun _ r => Cut (.many (.mark "?")) rest r := by
  obtain ⟨mid, harrow, hoptional⟩ := h.exists_of_andThen
  have hlt := harrow.length_lt_of_mark
  simp only [result, bind_eq]
  refine (readsTo_expect harrow).andThen fun _ => ?_
  exact (ih mid rest (by omega)).1 hoptional hrest

/-- A result is read to its end if no question mark follows. -/
theorem readsTo_result (hlen : ts.length ≤ count)
    (h : Cut (.mark "->" >> .phrase .optional) ts rest) (hrest : Free nameMarks rest)
    (hmark : headKind rest ≠ .mark "?") : result.ReadsTo ts rest :=
  (leaves_result ih hlen h hrest).imp fun _ _ hr => eq_of_cut_many_mark hr hmark

/-- The type of `self` is read where it stands. -/
theorem readsTo_selfBinding (hlen : ts.length ≤ count)
    (h : Cut (.maybe (.phrase .selfBinding)) ts rest) (hrest : headKind rest ≠ .mark "[") :
    selfBinding.ReadsTo ts rest := by
  simp only [selfBinding, bind_eq, pure_eq]
  rcases h.cases_of_maybe with rfl | h
  · exact .bind (.nextThen_miss hrest (.done rfl))
  · obtain ⟨_, hopen, h⟩ := h.rule.exists_of_andThen
    obtain ⟨mid, hself, h⟩ := h.exists_of_andThen
    obtain ⟨mid', htype, hclose⟩ := h.exists_of_andThen
    have hlt := hopen.length_lt_of_mark
    have hle := hself.length_le
    have hmid : Free typeMarks mid' := .of_mark hclose.headKind_mark (by decide)
    obtain ⟨t, rfl, ht⟩ := hopen.exists_mark
    obtain ⟨u, rfl, hu⟩ := hself.exists_token
    -- Only the bracket together with the key behind it tells that this is no list of types.
    refine .bind (.nextThen_hit ht ?_)
    rw [if_pos hu]
    refine .bind (.skip (.bind (.skip ?_)))
    refine ((ih mid mid' (by omega)).2 htype hmid).andThen fun _ => ?_
    exact readsTo_expect hclose

omit ih in
/-- A key or two asterisks start a parameter with a key. -/
theorem leaves_parameterHead_of_keyed {afterKey : Bool}
    (h : Cut ((.maybe (.mark "?") >> .key) <|> .mark "**") ts rest) :
    (parameterHead afterKey).Leaves ts fun b r => b = true ∧ r = rest := by
  simp only [parameterHead, bind_eq, pure_eq]
  rcases h.cases_of_orElse with h | h
  · obtain ⟨mid, hmark, hkey⟩ := h.exists_of_andThen
    obtain ⟨u, rfl, hu⟩ := hkey.exists_token
    rcases hmark.cases_of_maybe with rfl | hmark
    · have hne : headKind (u :: rest) ≠ .mark "?" := by
        intro heq
        rw [headKind_cons] at heq
        simp [heq, Kind.isKey] at hu
      refine .bind (.peek (.bind (.nextThen_miss hne ?_)))
      rw [if_neg (by simp), if_pos (by simp [hu])]
      exact .bind (.skip (.done ⟨rfl, rfl⟩))
    · obtain ⟨t, rfl, ht⟩ := hmark.exists_mark
      refine .bind (.peek (.bind (.nextThen_hit ht ?_)))
      rw [if_pos hu]
      exact .bind (.skip (.bind (.skip (.done ⟨rfl, rfl⟩))))
  · obtain ⟨t, rfl, ht⟩ := h.exists_mark
    refine .bind (.peek (.bind (.nextThen_miss (by simp [ht]) ?_)))
    rw [if_neg (by simp), if_pos (by simp [ht])]
    exact .bind (.skip (.done ⟨rfl, rfl⟩))

omit ih in
/-- A question mark, an asterisk or nothing in front of a type starts a positional parameter. -/
theorem leaves_parameterHead_of_positional
    (h : Cut (.maybe (.mark "?" <|> .mark "*")) ts rest)
    (hrest : (headKind rest).startsType = true) :
    (parameterHead false).Leaves ts fun b r => b = false ∧ r = rest := by
  obtain ⟨u, us, rfl⟩ : ∃ u us, rest = u :: us := by
    cases rest with
    | nil => cases hrest
    | cons u us => exact ⟨u, us, rfl⟩
  -- No token that a type starts with is a key, so what follows is not taken for a keyword.
  have hkey : u.kind.isKey = false := by
    cases hkind : u.kind <;> simp_all [Kind.startsType, Kind.isKey, Kind.isName, Kind.isLiteral,
      Kind.isBaseType]
  have hne : ∀ {kind : Kind}, kind.startsType = false → u.kind ≠ kind := by
    rintro _ hkind rfl
    rw [headKind_cons, hkind] at hrest
    cases hrest
  simp only [parameterHead, bind_eq, pure_eq]
  rcases h.cases_of_maybe with rfl | h
  · have hopt : u.kind ≠ .mark "?" := hne rfl
    have hmany : u.kind ≠ .mark "*" := hne rfl
    have hmanyKeys : u.kind ≠ .mark "**" := hne rfl
    refine .bind (.peek (.bind (.nextThen_miss hopt ?_)))
    rw [if_neg (by simp), if_neg (by simp [hkey, hmanyKeys]), if_neg (by simp),
      if_neg (by simp [hopt, hmany])]
    exact .done ⟨rfl, rfl⟩
  · have hhead : ∃ t, ts = t :: u :: us ∧ (t.kind = .mark "?" ∨ t.kind = .mark "*") := by
      rcases h.cases_of_orElse with h | h
      · obtain ⟨t, rfl, ht⟩ := h.exists_mark
        exact ⟨t, rfl, .inl ht⟩
      · obtain ⟨t, rfl, ht⟩ := h.exists_mark
        exact ⟨t, rfl, .inr ht⟩
    obtain ⟨t, rfl, ht | ht⟩ := hhead
    · refine .bind (.peek (.bind (.nextThen_hit ht ?_)))
      rw [if_neg (by simp [hkey]), if_neg (by simp [ht, Kind.isKey]), if_neg (by simp),
        if_pos (by simp [ht])]
      exact .bind (.skip (.done ⟨rfl, rfl⟩))
    · refine .bind (.peek (.bind (.nextThen_miss (by simp [ht]) ?_)))
      rw [if_neg (by simp), if_neg (by simp [ht, Kind.isKey]), if_neg (by simp),
        if_pos (by simp [ht])]
      exact .bind (.skip (.done ⟨rfl, rfl⟩))

omit ih in
/-- Two tokens tell a parameter from the end of the parameters and from the lone question mark. -/
theorem Cut.parameter_start
    (h : Cut (.phrase .keyed) ts rest ∨ Cut (.phrase .positional) ts rest) :
    headKind ts ≠ .mark ")" ∧ (headKind ts ≠ .mark "?" ∨
      ∃ t u us, ts = t :: u :: us ∧ t.kind = .mark "?" ∧ u.kind ≠ .mark ")") := by
  rcases h with h | h
  · obtain ⟨mid, hhead, -⟩ := h.rule.exists_of_andThen
    rcases hhead.cases_of_orElse with hhead | hhead
    · obtain ⟨_, hmark, hkey⟩ := hhead.exists_of_andThen
      obtain ⟨u, rfl, hu⟩ := hkey.exists_token
      have hne : ∀ text, u.kind ≠ .mark text := by
        intro text heq
        simp [heq, Kind.isKey] at hu
      rcases hmark.cases_of_maybe with rfl | hmark
      · exact ⟨hne ")", .inl (hne "?")⟩
      · obtain ⟨t, rfl, ht⟩ := hmark.exists_mark
        exact ⟨by simp [ht], .inr ⟨t, u, mid, rfl, ht, hne ")"⟩⟩
    · exact ⟨by simp [hhead.headKind_mark], .inl (by simp [hhead.headKind_mark])⟩
  · obtain ⟨mid, hhead, hbody⟩ := h.rule.exists_of_andThen
    obtain ⟨_, htype, -⟩ := hbody.exists_of_andThen
    rcases hhead.cases_of_maybe with rfl | hhead
    · exact ⟨htype.headKind_ne_of_type rfl, .inl (htype.headKind_ne_of_type rfl)⟩
    rcases hhead.cases_of_orElse with hhead | hhead
    · obtain ⟨t, rfl, ht⟩ := hhead.exists_mark
      refine ⟨by simp [ht], .inr ?_⟩
      have hclose : headKind mid ≠ .mark ")" := htype.headKind_ne_of_type rfl
      have hend : headKind mid ≠ .endOfInput := htype.headKind_ne_of_type rfl
      cases mid with
      | nil => exact absurd rfl hend
      | cons u us => exact ⟨t, u, us, rfl, ht, hclose⟩
    · exact ⟨by simp [hhead.headKind_mark], .inl (by simp [hhead.headKind_mark])⟩

/-- One round of the loop over parameters: a parameter, and then no more than a comma, or a comma
and the rest of the loop. -/
theorem readsTo_parameter {isKeyed afterKey : Bool} (hlen : ts.length < count)
    (hfirst : isKeyed = true ∧ Cut (.phrase .keyed) ts mid ∨
      isKeyed = false ∧ afterKey = false ∧ Cut (.phrase .positional) ts mid)
    (hnext : Cut (.maybe (.mark ",")) mid rest ∧ headKind rest = .mark ")" ∨
      ∃ mid', Cut (.mark ",") mid mid' ∧ headKind mid' ≠ .mark ")" ∧
        (call (.parameters isKeyed)).ReadsTo mid' rest) :
    (call (.parameters afterKey)).ReadsTo ts rest := by
  have hmid : headKind mid = .mark "," ∨ headKind mid = .mark ")" := by
    rcases hnext with ⟨hend, hrest⟩ | ⟨_, hcomma, -⟩
    · rcases hend.cases_of_maybe with rfl | hcomma
      · exact .inr hrest
      · exact .inl hcomma.headKind_mark
    · exact .inl hcomma.headKind_mark
  obtain ⟨mid₁, hhead, hbody⟩ : ∃ mid₁, (parameterHead afterKey).Leaves ts
      (fun b r => b = isKeyed ∧ r = mid₁) ∧
      Cut (.phrase .type >> .maybe (.ofKind .lowerName)) mid₁ mid ∧
      mid₁.length ≤ ts.length := by
    rcases hfirst with ⟨rfl, h⟩ | ⟨rfl, rfl, h⟩
    · obtain ⟨mid₁, hhead, hbody⟩ := h.rule.exists_of_andThen
      exact ⟨mid₁, leaves_parameterHead_of_keyed hhead, hbody, hhead.length_le⟩
    · obtain ⟨mid₁, hhead, hbody⟩ := h.rule.exists_of_andThen
      obtain ⟨_, htype, -⟩ := hbody.exists_of_andThen
      exact ⟨mid₁, leaves_parameterHead_of_positional hhead htype.startsType, hbody,
        hhead.length_le⟩
  obtain ⟨hbody, hle⟩ := hbody
  obtain ⟨mid₂, htype, hname⟩ := hbody.exists_of_andThen
  -- Behind the type stands the name of the parameter, or what follows the parameter.
  have hmid₂ : Free typeMarks mid₂ := by
    rcases hname.cases_of_maybe with rfl | hname
    · rcases hmid with hmid | hmid
      · exact .of_mark hmid (by decide)
      · exact .of_mark hmid (by decide)
    · obtain ⟨t, rfl, ht⟩ := hname.exists_ofKind
      intro text _
      simp [ht]
  refine .call ?_
  simp only [Phrase.script, nextIsMark, bind_eq, pure_eq]
  refine .bind (hhead.imp ?_)
  rintro _ _ ⟨rfl, rfl⟩
  refine ((ih _ mid₂ (by omega)).2 htype hmid₂).andThen fun _ => ?_
  have hname : (acceptKind .lowerName).ReadsTo mid₂ mid := by
    rcases hname.cases_of_maybe with rfl | hname
    · refine .acceptKind_miss ?_ rfl
      rcases hmid with hmid | hmid <;> simp [hmid]
    · obtain ⟨t, rfl, ht⟩ := hname.exists_ofKind
      exact .acceptKind_hit ht rfl
  refine hname.andThen fun _ => ?_
  rcases hnext with ⟨hend, hrest⟩ | ⟨mid', hcomma, hmore, hloop⟩
  · rcases hend.cases_of_maybe with rfl | hcomma
    · exact .bind (.accept_miss (by simp [hrest]) (.done rfl))
    · refine .bind (leaves_accept hcomma (.bind (.nextIs ?_)))
      rw [if_pos (by simpa using hrest)]
      exact .done rfl
  · refine .bind (leaves_accept hcomma (.bind (.nextIs ?_)))
    rw [if_neg (by simpa using hmore)]
    exact hloop

/-- Parameters with keys are read to the closing parenthesis. -/
theorem readsTo_keyed {afterKey : Bool} (hlen : ts.length < count)
    (h : Cut (.phrase .keyed >> .many (.mark "," >> .phrase .keyed) >> .maybe (.mark ","))
      ts rest)
    (hrest : headKind rest = .mark ")") : (call (.parameters afterKey)).ReadsTo ts rest := by
  induction hn : ts.length using Nat.strongRecOn generalizing ts afterKey with
  | ind n loop =>
    subst hn
    obtain ⟨mid, hfirst, htail⟩ := h.exists_of_andThen
    refine readsTo_parameter ih hlen (.inl ⟨rfl, hfirst⟩) ?_
    obtain ⟨mid₁, hkeyed, hend⟩ := htail.exists_of_andThen
    rcases hkeyed.cases_of_many with rfl | ⟨mid₂, hnext, hmany⟩
    · exact .inl ⟨hend, hrest⟩
    · obtain ⟨mid₃, hcomma, hnext⟩ := hnext.exists_of_andThen
      have hle := hfirst.length_le
      have hlt := hcomma.length_lt_of_mark
      refine .inr ⟨mid₃, hcomma, (Cut.parameter_start (.inl hnext)).1, ?_⟩
      exact loop _ (by omega) (by omega) (hnext.andThen (hmany.andThen hend)) rfl

/-- Positional parameters and the keyword parameters after them. -/
theorem readsTo_positional (hlen : ts.length < count)
    (h : Cut (.phrase .positional >> .many (.mark "," >> .phrase .positional) >>
      .many (.mark "," >> .phrase .keyed) >> .maybe (.mark ",")) ts rest)
    (hrest : headKind rest = .mark ")") : (call (.parameters false)).ReadsTo ts rest := by
  induction hn : ts.length using Nat.strongRecOn generalizing ts with
  | ind n loop =>
    subst hn
    obtain ⟨mid, hfirst, htail⟩ := h.exists_of_andThen
    have hle := hfirst.length_le
    refine readsTo_parameter ih hlen (.inr ⟨rfl, rfl, hfirst⟩) ?_
    obtain ⟨mid₁, hpositional, htail⟩ := htail.exists_of_andThen
    obtain ⟨mid₂, hkeyed, hend⟩ := htail.exists_of_andThen
    rcases hpositional.cases_of_many with rfl | ⟨mid₃, hnext, hmany⟩
    · rcases hkeyed.cases_of_many with rfl | ⟨mid₃, hnext, hmany⟩
      · exact .inl ⟨hend, hrest⟩
      · obtain ⟨mid₄, hcomma, hnext⟩ := hnext.exists_of_andThen
        have hlt := hcomma.length_lt_of_mark
        refine .inr ⟨mid₄, hcomma, (Cut.parameter_start (.inl hnext)).1, ?_⟩
        exact readsTo_keyed ih (by omega) (hnext.andThen (hmany.andThen hend)) hrest
    · obtain ⟨mid₄, hcomma, hnext⟩ := hnext.exists_of_andThen
      have hlt := hcomma.length_lt_of_mark
      refine .inr ⟨mid₄, hcomma, (Cut.parameter_start (.inr hnext)).1, ?_⟩
      exact loop _ (by omega) (by omega) (hnext.andThen (hmany.andThen htail)) rfl

/-- Parameters in parentheses are read to the closing one (`ReadsTo`). -/
theorem readsTo_parameters (hlen : ts.length ≤ count) (h : Cut (.phrase .parameters) ts rest) :
    parameters.ReadsTo ts rest := by
  simp only [parameters, bind_eq, pure_eq]
  rcases h.rule.cases_of_orElse with h | h
  · -- No parameters.
    obtain ⟨mid, hopen, hclose⟩ := h.exists_of_andThen
    refine (readsTo_expect hopen).andThen fun _ => ?_
    exact .bind (leaves_accept hclose (.done rfl))
  rcases h.cases_of_orElse with h | h
  · -- A lone question mark, told by the parenthesis behind it.
    obtain ⟨mid, hopen, h⟩ := h.exists_of_andThen
    obtain ⟨mid', hmark, hclose⟩ := h.exists_of_andThen
    obtain ⟨t, rfl, ht⟩ := hmark.exists_mark
    obtain ⟨u, rfl, hu⟩ := hclose.exists_mark
    refine (readsTo_expect hopen).andThen fun _ => ?_
    refine .bind (.accept_miss (by simp [ht]) (.bind (.nextThen_hit ht ?_)))
    rw [if_pos (by simpa using hu)]
    exact .bind (.skip (.skip rfl))
  · obtain ⟨mid, hopen, h⟩ := h.exists_of_andThen
    obtain ⟨mid₁, hlist, h⟩ := h.exists_of_andThen
    obtain ⟨mid₂, hend, hclose⟩ := h.exists_of_andThen
    have hlt := hopen.length_lt_of_mark
    refine (readsTo_expect hopen).andThen fun _ => ?_
    obtain ⟨hfirst, hloop⟩ : (∃ r, Cut (.phrase .keyed) mid r ∨ Cut (.phrase .positional) mid r) ∧
        (call (.parameters false)).ReadsTo mid mid₂ := by
      rcases hlist.cases_of_orElse with hlist | hlist
      · obtain ⟨r, hfirst, hmore⟩ := hlist.exists_of_andThen
        obtain ⟨r', hpositional, hkeyed⟩ := hmore.exists_of_andThen
        exact ⟨⟨r, .inr hfirst⟩, readsTo_positional ih (by omega)
          (hfirst.andThen (hpositional.andThen (hkeyed.andThen hend))) hclose.headKind_mark⟩
      · obtain ⟨r, hfirst, hkeyed⟩ := hlist.exists_of_andThen
        exact ⟨⟨r, .inl hfirst⟩, readsTo_keyed ih (by omega)
          (hfirst.andThen (hkeyed.andThen hend)) hclose.headKind_mark⟩
    obtain ⟨r, hfirst⟩ := hfirst
    -- The first parameter is taken neither for the end nor for a lone question mark.
    obtain ⟨hne, hstart⟩ := Cut.parameter_start hfirst
    refine .bind (.accept_miss hne ?_)
    have hnext : (nextThen "?" (·.kind == .mark ")")).Leaves mid
        fun b r => b = false ∧ r = mid := by
      rcases hstart with hstart | ⟨t, u, us, rfl, ht, hu⟩
      · exact .nextThen_miss hstart ⟨rfl, rfl⟩
      · exact .nextThen_hit ht ⟨by simpa using hu, rfl⟩
    refine .bind (hnext.imp ?_)
    rintro _ _ ⟨rfl, rfl⟩
    exact hloop.andThen fun _ => readsTo_expect hclose

omit ih in
/-- Parameters start with a parenthesis. -/
theorem Cut.headKind_of_parameters (h : Cut (.phrase .parameters) ts rest) :
    headKind ts = .mark "(" := by
  rcases h.rule.cases_of_orElse with h | h
  · exact h.headKind_mark_andThen
  rcases h.cases_of_orElse with h | h
  · exact h.headKind_mark_andThen
  · exact h.headKind_mark_andThen

/-- Parameters and the binding of `self` are read where neither can start again. -/
theorem readsTo_parametersAndSelf (hlen : ts.length ≤ count)
    (h : Cut (.maybe (.phrase .parameters) >> .maybe (.phrase .selfBinding)) ts rest)
    (hrest : Free ["(", "["] rest) : parametersAndSelf.ReadsTo ts rest := by
  obtain ⟨mid, hparameters, hself⟩ := h.exists_of_andThen
  have hle := hparameters.length_le
  have hbinding := readsTo_selfBinding ih (by omega) hself (hrest.headKind_ne (by simp))
  have hfirst : parameters?.ReadsTo ts mid := by
    simp only [parameters?, nextIsMark, bind_eq, pure_eq]
    refine .bind (.nextIs ?_)
    rcases hparameters.cases_of_maybe with rfl | hparameters
    · have hne : headKind ts ≠ .mark "(" := by
        rcases hself.cases_of_maybe with rfl | hself
        · exact hrest.headKind_ne (by simp)
        · simp [hself.rule.headKind_mark_andThen]
      rw [if_neg (by simpa using hne)]
      exact .done rfl
    · rw [if_pos (by simpa using hparameters.headKind_of_parameters)]
      exact readsTo_parameters ih hlen hparameters
  simp only [parametersAndSelf, bind_eq]
  exact hfirst.andThen fun _ => hbinding

/-- A block is read where it stands, which is in front of an arrow. -/
theorem readsTo_block (hlen : ts.length ≤ count) (h : Cut (.maybe (.phrase .block)) ts rest)
    (hrest : headKind rest = .mark "->") : block.ReadsTo ts rest := by
  simp only [block, blockMark, bind_eq, pure_eq]
  rcases h.cases_of_maybe with rfl | h
  · refine .bind (.bind (.nextThen_miss (by simp [hrest]) (.done ?_)))
    exact .bind (.accept_miss (by simp [hrest]) (.done rfl))
  · obtain ⟨mid, hmark, h⟩ := h.rule.exists_of_andThen
    obtain ⟨mid₁, hopen, h⟩ := h.exists_of_andThen
    obtain ⟨mid₂, hparameters, h⟩ := h.exists_of_andThen
    obtain ⟨mid₃, hself, h⟩ := h.exists_of_andThen
    obtain ⟨mid₄, harrow, h⟩ := h.exists_of_andThen
    obtain ⟨mid₅, hoptional, hclose⟩ := h.exists_of_andThen
    have hle := hmark.length_le
    have hlt := hopen.length_lt_of_mark
    have hle₂ := hparameters.length_le
    have hle₃ := hself.length_le
    obtain ⟨u, rfl, hu⟩ := hopen.exists_mark
    -- The question mark is looked at together with the brace, and then taken alone.
    have hfirst : (nextThen "?" (·.kind == .mark "\x7b")).Leaves ts fun b r =>
        (if b then skip else done ()).ReadsTo r (u :: mid₁) := by
      rcases hmark.cases_of_maybe with rfl | hmark
      · exact .nextThen_miss (by simp [hu]) (.done rfl)
      · obtain ⟨t, rfl, ht⟩ := hmark.exists_mark
        refine .nextThen_hit ht ?_
        rw [if_pos (by simpa using hu)]
        exact .skip rfl
    refine ReadsTo.andThen (.bind hfirst) fun _ => ?_
    refine .bind (.accept_hit hu ?_)
    have hhead : Free ["(", "["] mid₃ := .of_mark harrow.headKind_mark (by decide)
    refine (readsTo_parametersAndSelf ih (by omega) (hparameters.andThen hself)
      hhead).andThen fun _ => ?_
    have hbrace : Free nameMarks mid₅ := .of_mark hclose.headKind_mark (by decide)
    refine (readsTo_result ih (by omega) (harrow.andThen hoptional) hbrace
      (by simp [hclose.headKind_mark])).andThen fun _ => ?_
    exact readsTo_expect hclose

omit ih in
/-- A field is a key, which is not a mark, and a type, perhaps behind a question mark. -/
theorem Cut.exists_recordKey (h : Cut (.phrase .field) ts rest) :
    ∃ t mid mid', Cut (.maybe (.mark "?")) ts (t :: mid) ∧ (∀ text, t.kind ≠ .mark text) ∧
      recordKey.ReadsTo (t :: mid) mid' ∧ Cut (.phrase .type) mid' rest ∧
      mid'.length ≤ mid.length := by
  simp only [recordKey, bind_eq]
  rcases h.rule.cases_of_orElse with h | h
  · obtain ⟨_, hmark, h⟩ := h.exists_of_andThen
    obtain ⟨mid, hkey, htype⟩ := h.exists_of_andThen
    obtain ⟨t, rfl, ht⟩ := hkey.exists_token
    refine ⟨t, mid, mid, hmark, fun text heq => ?_, ?_, htype, Nat.le_refl _⟩
    · simp [heq, Kind.isKey] at ht
    · refine .bind (.peek ?_)
      rw [if_pos ht]
      exact .skip rfl
  · obtain ⟨mid₀, hmark, h⟩ := h.exists_of_andThen
    obtain ⟨mid, hkey, h⟩ := h.exists_of_andThen
    obtain ⟨mid', harrow, htype⟩ := h.exists_of_andThen
    have hkey : ∃ t, mid₀ = t :: mid ∧ (t.kind.isLiteral || t.kind.isName) = true := by
      rcases hkey.cases_of_orElse with hkey | hkey
      · obtain ⟨t, rfl, ht⟩ := hkey.exists_token
        exact ⟨t, rfl, by simp [ht]⟩
      · obtain ⟨t, rfl, ht⟩ := hkey.exists_token
        exact ⟨t, rfl, by simp [ht]⟩
    obtain ⟨t, rfl, ht⟩ := hkey
    refine ⟨t, mid, mid', hmark, fun text heq => ?_, ?_, htype, harrow.length_le⟩
    · simp [heq, Kind.isLiteral, Kind.isName] at ht
    · have hne : t.kind.isKey = false := by
        cases hkind : t.kind <;> simp_all [Kind.isLiteral, Kind.isName, Kind.isKey]
      refine .bind (.peek ?_)
      rw [if_neg (by simp [hne]), if_pos ht]
      exact .bind (.skip (readsTo_expect harrow))

omit ih in
/-- A field does not start with the brace that closes a record. -/
theorem Cut.headKind_ne_of_field (h : Cut (.phrase .field) ts rest) :
    headKind ts ≠ .mark "\x7d" := by
  obtain ⟨t, mid, mid', hmark, hkey, -⟩ := h.exists_recordKey
  rcases hmark.cases_of_maybe with rfl | hmark
  · exact hkey _
  · simp [hmark.headKind_mark]

/-- The fields of a record are read with the brace after them. -/
theorem readsTo_recordFields (hlen : ts.length < count)
    (h : Cut (.phrase .field >> .many (.mark "," >> .phrase .field) >> .maybe (.mark ",") >>
      .mark "\x7d") ts rest) : (call .recordFields).ReadsTo ts rest := by
  induction hn : ts.length using Nat.strongRecOn generalizing ts with
  | ind n loop =>
    subst hn
    obtain ⟨mid, hfield, h⟩ := h.exists_of_andThen
    obtain ⟨mid₁, hfields, h⟩ := h.exists_of_andThen
    obtain ⟨mid₂, hend, hclose⟩ := h.exists_of_andThen
    obtain ⟨t, r, r', hmark, ht, hkey, htype, hle⟩ := hfield.exists_recordKey
    have hle₁ := hmark.length_le
    have hle₂ := htype.length_le
    have hmid : Free typeMarks mid :=
      free_of_commas (hfields.andThen hend) (by decide) (.of_mark hclose.headKind_mark (by decide))
    have hmark : (accept "?").ReadsTo ts (t :: r) := by
      rcases hmark.cases_of_maybe with rfl | hmark
      · exact .accept_miss (ht _) rfl
      · exact leaves_accept hmark rfl
    simp only [List.length_cons] at hle₁
    refine .call ?_
    simp only [Phrase.script, bind_eq, pure_eq]
    refine hmark.andThen fun _ => hkey.andThen fun _ => ?_
    refine ((ih r' mid (by omega)).2 htype hmid).andThen fun _ => ?_
    rcases hfields.cases_of_many with rfl | ⟨mid₃, hnext, hmany⟩
    · -- The last field, perhaps with a comma behind it.
      rcases hend.cases_of_maybe with rfl | hcomma
      · refine .bind (.accept_miss (by simp [hclose.headKind_mark]) ?_)
        exact readsTo_expect hclose
      · refine .bind (leaves_accept hcomma ?_)
        exact .bind (leaves_accept hclose (.done rfl))
    · obtain ⟨mid₄, hcomma, hnext⟩ := hnext.exists_of_andThen
      have hlt := hcomma.length_lt_of_mark
      refine .bind (leaves_accept hcomma ?_)
      refine .bind (.accept_miss hnext.headKind_ne_of_field ?_)
      exact loop _ (by omega) (by omega)
        (hnext.andThen (hmany.andThen (hend.andThen hclose))) rfl

omit ih in
/-- Where a block may stand, in front of an arrow, neither parameters nor a type of `self` do. -/
theorem free_block (h : Cut (.maybe (.phrase .block)) ts rest)
    (hrest : headKind rest = .mark "->") : Free ["(", "["] ts := by
  rcases h.cases_of_maybe with rfl | h
  · exact .of_mark hrest (by decide)
  · obtain ⟨_, hmark, hopen⟩ := h.rule.exists_of_andThen
    rcases hmark.cases_of_maybe with rfl | hmark
    · exact .of_mark hopen.headKind_mark_andThen (by decide)
    · exact .of_mark hmark.headKind_mark (by decide)

/-- A procedure type behind its caret. Further question marks count as part of its result. -/
theorem leaves_procedure (hlen : ts.length < count)
    (h : Cut (.maybe (.phrase .parameters) >> .maybe (.phrase .selfBinding) >>
      .maybe (.phrase .block) >> .mark "->" >> .phrase .optional) ts rest)
    (hrest : Free nameMarks rest) :
    procedure.Leaves ts fun _ r => Cut (.many (.mark "?")) rest r := by
  obtain ⟨mid, hparameters, h⟩ := h.exists_of_andThen
  obtain ⟨mid₁, hself, h⟩ := h.exists_of_andThen
  obtain ⟨mid₂, hblock, hresult⟩ := h.exists_of_andThen
  have hle := hparameters.length_le
  have hle₁ := hself.length_le
  have hle₂ := hblock.length_le
  have hhead := free_block hblock hresult.headKind_mark_andThen
  simp only [procedure, bind_eq]
  refine (readsTo_parametersAndSelf ih (by omega) (hparameters.andThen hself)
    hhead).andThen fun _ => ?_
  refine (readsTo_block ih (by omega) hblock hresult.headKind_mark_andThen).andThen fun _ => ?_
  exact leaves_result ih (by omega) hresult hrest

omit ih in
/-- What a simple type does when its first token is a word, a literal or part of a name. -/
theorem leaves_simple_of_word {t : Token} {post : Unit → List Token → Prop}
    (ht : t.kind.isBaseType = true ∨ t.kind.isLiteral = true ∨ t.kind.isName = true ∨
      t.kind = .mark "::")
    (h : Script.Leaves (if t.kind.isBaseType || t.kind.isLiteral then skip
      else if t.kind.isName || t.kind == .mark "::" then
        (qualified .type).bind fun _ => (accept "[").bind fun more =>
          if more then arguments else done ()
      else fail (t.unexpected "a type")) (t :: ts) post) : simple.Leaves (t :: ts) post := by
  simp only [simple, bind_eq, pure_eq]
  refine .bind (.peek ?_)
  split
  iterate 5
    · rename_i hkind
      simp [hkind, Kind.isBaseType, Kind.baseTypes, Kind.isLiteral, Kind.isName] at ht
  · exact h

/-- A name and its arguments are read to their end. -/
theorem readsTo_simple_of_name (hlen : ts.length ≤ count)
    (h : Cut (.phrase .name >> .maybe (.mark "[" >> .phrase .types >> .mark "]")) ts rest)
    (hrest : Free nameMarks rest) : simple.ReadsTo ts rest := by
  obtain ⟨mid, hname, harguments⟩ := h.exists_of_andThen
  have hle := hname.length_le
  have hsep : headKind mid ≠ .mark "::" := by
    rcases harguments.cases_of_maybe with rfl | harguments
    · exact hrest.headKind_ne (by decide)
    · simp [harguments.headKind_mark_andThen]
  have hqualified := readsTo_qualified hname hsep
  have hfirst := hname.isName_of_name
  obtain ⟨t, us, rfl⟩ : ∃ t us, ts = t :: us := by
    cases ts with
    | nil => simp [headKind, Kind.isName] at hfirst
    | cons t us => exact ⟨t, us, rfl⟩
  simp only [headKind_cons] at hfirst
  refine leaves_simple_of_word (.inr (.inr hfirst)) ?_
  have hword : (t.kind.isBaseType || t.kind.isLiteral) = false := by
    cases hkind : t.kind <;> simp_all [Kind.isBaseType, Kind.isLiteral, Kind.isName]
  rw [if_neg (by simp [hword]), if_pos (by simpa using hfirst)]
  refine hqualified.andThen fun _ => ?_
  rcases harguments.cases_of_maybe with rfl | harguments
  · exact .bind (.accept_miss (hrest.headKind_ne (by decide)) (.done rfl))
  · obtain ⟨mid', hopen, harguments⟩ := harguments.exists_of_andThen
    have hlt := hopen.length_lt_of_mark
    exact .bind (leaves_accept hopen (readsTo_arguments ih (by omega) harguments))

/-- A simple type is read to its end, or further over question marks (`Leaves`). -/
theorem leaves_simple (hlen : ts.length ≤ count) (h : Cut (.phrase .simple) ts rest)
    (hrest : Free nameMarks rest) :
    simple.Leaves ts fun _ r => Cut (.many (.mark "?")) rest r := by
  -- All but procedure types are read to their end.
  suffices hend : simple.ReadsTo ts rest ∨
      simple.Leaves ts fun _ r => Cut (.many (.mark "?")) rest r by
    rcases hend with hend | hend
    · refine hend.imp ?_
      rintro _ _ rfl
      exact .stop
    · exact hend
  rcases h.rule.cases_of_orElse with h | h
  · -- A type in parentheses.
    obtain ⟨mid, hopen, h⟩ := h.exists_of_andThen
    obtain ⟨mid', htype, hclose⟩ := h.exists_of_andThen
    have hlt := hopen.length_lt_of_mark
    obtain ⟨t, rfl, ht⟩ := hopen.exists_mark
    have hmid : Free typeMarks mid' := .of_mark hclose.headKind_mark (by decide)
    refine .inl (.bind (.peek ?_))
    simp only [ht]
    refine .bind (.skip (((ih mid mid' (by omega)).2 htype hmid).andThen fun _ => ?_))
    exact readsTo_expect hclose
  rcases h.cases_of_orElse with h | h
  · -- A procedure type. The question marks behind it belong to its result.
    obtain ⟨mid, hcaret, hprocedure⟩ := h.exists_of_andThen
    have hlt := hcaret.length_lt_of_mark
    obtain ⟨t, rfl, ht⟩ := hcaret.exists_mark
    refine .inr (.bind (.peek ?_))
    simp only [ht]
    exact .bind (.skip (leaves_procedure ih (by omega) hprocedure hrest))
  rcases h.cases_of_orElse with h | h
  · obtain ⟨mid, hopen, hclose⟩ := h.exists_of_andThen
    obtain ⟨t, rfl, ht⟩ := hopen.exists_mark
    refine .inl (.bind (.peek ?_))
    simp only [ht]
    exact .bind (.skip (.bind (leaves_accept hclose (.done rfl))))
  rcases h.cases_of_orElse with h | h
  · -- A tuple, which is told from the empty one by a type that starts behind the bracket.
    obtain ⟨mid, hopen, harguments⟩ := h.exists_of_andThen
    have hlt := hopen.length_lt_of_mark
    obtain ⟨t, rfl, ht⟩ := hopen.exists_mark
    have hne : headKind mid ≠ .mark "]" := by
      obtain ⟨_, htypes, -⟩ := harguments.exists_of_andThen
      obtain ⟨_, htype, -⟩ := htypes.rule.exists_of_andThen
      exact htype.headKind_ne_of_type rfl
    refine .inl (.bind (.peek ?_))
    simp only [ht]
    refine .bind (.skip (.bind (.accept_miss hne ?_)))
    exact readsTo_arguments ih (by omega) harguments
  rcases h.cases_of_orElse with h | h
  · obtain ⟨mid, hopen, hclose⟩ := h.exists_of_andThen
    obtain ⟨t, rfl, ht⟩ := hopen.exists_mark
    refine .inl (.bind (.peek ?_))
    simp only [ht]
    exact .bind (.skip (.bind (leaves_accept hclose (.done rfl))))
  rcases h.cases_of_orElse with h | h
  · -- A record, which is told from the empty one by its first key.
    obtain ⟨mid, hopen, hfields⟩ := h.exists_of_andThen
    have hlt := hopen.length_lt_of_mark
    obtain ⟨t, rfl, ht⟩ := hopen.exists_mark
    obtain ⟨_, hfield, -⟩ := hfields.exists_of_andThen
    refine .inl (.bind (.peek ?_))
    simp only [ht]
    refine .bind (.skip (.bind (.accept_miss hfield.headKind_ne_of_field ?_)))
    exact readsTo_recordFields ih (by omega) hfields
  rcases h.cases_of_orElse with h | h
  · obtain ⟨mid, hword, h⟩ := h.exists_of_andThen
    obtain ⟨mid₁, hopen, h⟩ := h.exists_of_andThen
    obtain ⟨mid₂, hname, hclose⟩ := h.exists_of_andThen
    obtain ⟨t, rfl, ht⟩ := hword.exists_ofKind
    have hsep : headKind mid₂ ≠ .mark "::" := by simp [hclose.headKind_mark]
    refine .inl (.bind (.peek ?_))
    simp only [ht]
    refine .bind (.skip ((readsTo_expect hopen).andThen fun _ => ?_))
    exact (readsTo_qualified hname hsep).andThen fun _ => readsTo_expect hclose
  rcases h.cases_of_orElse with h | h
  · obtain ⟨t, rfl, ht⟩ := h.exists_token
    refine .inl (leaves_simple_of_word (.inl ht) ?_)
    rw [if_pos (by simp [ht])]
    exact .skip rfl
  rcases h.cases_of_orElse with h | h
  · obtain ⟨t, rfl, ht⟩ := h.exists_token
    refine .inl (leaves_simple_of_word (.inr (.inl ht)) ?_)
    rw [if_pos (by simp [ht])]
    exact .skip rfl
  · exact .inl (readsTo_simple_of_name ih hlen h hrest)

/-- The question mark of an optional type is read, if not with the simple type in front of it. -/
theorem leaves_optional (hlen : ts.length ≤ count) (h : Cut (.phrase .optional) ts rest)
    (hrest : Free nameMarks rest) :
    (call .optional).Leaves ts fun _ r => Cut (.many (.mark "?")) rest r := by
  obtain ⟨mid, hsimple, hmark⟩ := h.rule.exists_of_andThen
  have hmid : Free nameMarks mid := by
    rcases hmark.cases_of_maybe with rfl | hmark
    · exact hrest
    · exact .of_mark hmark.headKind_mark (by decide)
  -- Whatever question marks have been read, one more is read if there is one.
  have hmore : ∀ r, Cut (.many (.mark "?")) rest r →
      (accept "?").Leaves r fun _ r' => Cut (.many (.mark "?")) rest r' := by
    intro r hr
    by_cases hhead : headKind r = .mark "?"
    · cases r with
      | nil => cases hhead
      | cons t r => exact .accept_hit hhead (hr.many_trans (.more (.mark hhead) .stop))
    · exact .accept_miss hhead hr
  refine .call ?_
  simp only [Phrase.script, bind_eq, pure_eq]
  refine .bind ((leaves_simple ih hlen hsimple hmid).imp fun _ r hr => ?_)
  refine .bind (Leaves.imp ?_ fun _ _ hr' => .done hr')
  rcases hmark.cases_of_maybe with rfl | hmark
  · exact hmore r hr
  · rcases hr.cases_of_many with rfl | ⟨_, hfirst, hmany⟩
    · exact leaves_accept hmark .stop
    · obtain ⟨t, rfl, -⟩ := hmark.exists_mark
      obtain ⟨u, hcons, -⟩ := hfirst.exists_mark
      obtain ⟨rfl, rfl⟩ := List.cons.inj hcons
      exact hmore r hmany

/-- An optional type is read to its end if no question mark follows. -/
theorem readsTo_optional (hlen : ts.length ≤ count) (h : Cut (.phrase .optional) ts rest)
    (hrest : Free nameMarks rest) (hmark : headKind rest ≠ .mark "?") :
    (call .optional).ReadsTo ts rest :=
  (leaves_optional ih hlen h hrest).imp fun _ _ hr => eq_of_cut_many_mark hr hmark

/-- Further types of an intersection are read to the end that a derivation gives them. -/
theorem readsTo_intersectionTail (hlen : ts.length ≤ count)
    (h : Cut (.many (.mark "&" >> .phrase .optional)) ts rest)
    (hrest : Free ["&", "?", "[", "::"] rest) : (call .intersectionTail).ReadsTo ts rest := by
  induction hn : ts.length using Nat.strongRecOn generalizing ts with
  | ind n loop =>
    subst hn
    refine .call ?_
    simp only [Phrase.script, bind_eq, pure_eq]
    rcases h.cases_of_many with rfl | ⟨mid, hfirst, hmany⟩
    · exact .bind (.accept_miss (hrest.headKind_ne (by decide)) (.done rfl))
    · obtain ⟨mid', hmark, hoptional⟩ := hfirst.exists_of_andThen
      have hlt := hmark.length_lt_of_mark
      have hle := hoptional.length_le
      have hmid : Free ["?", "[", "::"] mid :=
        free_of_many hmany (by decide) (hrest.mono (by decide))
      refine .bind (leaves_accept hmark ?_)
      refine (readsTo_optional ih (by omega) hoptional (hmid.mono (by decide))
        (hmid.headKind_ne (by decide))).andThen fun _ => ?_
      exact loop _ (by omega) (by omega) hmany rfl

/-- An intersection is read to the end that a derivation gives it. -/
theorem readsTo_intersection (hlen : ts.length ≤ count) (h : Cut (.phrase .intersection) ts rest)
    (hrest : Free ["&", "?", "[", "::"] rest) : intersection.ReadsTo ts rest := by
  obtain ⟨mid, hoptional, hmany⟩ := h.rule.exists_of_andThen
  have hle := hoptional.length_le
  have hmid : Free ["?", "[", "::"] mid :=
    free_of_many hmany (by decide) (hrest.mono (by decide))
  simp only [intersection, bind_eq]
  refine (readsTo_optional ih hlen hoptional (hmid.mono (by decide))
    (hmid.headKind_ne (by decide))).andThen fun _ => ?_
  exact readsTo_intersectionTail ih (by omega) hmany hrest

/-- Further types of a union are read to the end that a derivation gives them. -/
theorem readsTo_unionTail (hlen : ts.length ≤ count)
    (h : Cut (.many (.mark "|" >> .phrase .intersection)) ts rest)
    (hrest : Free typeMarks rest) : (call .unionTail).ReadsTo ts rest := by
  induction hn : ts.length using Nat.strongRecOn generalizing ts with
  | ind n loop =>
    subst hn
    refine .call ?_
    simp only [Phrase.script, bind_eq, pure_eq]
    rcases h.cases_of_many with rfl | ⟨mid, hfirst, hmany⟩
    · exact .bind (.accept_miss (hrest.headKind_ne (by decide)) (.done rfl))
    · obtain ⟨mid', hmark, hinter⟩ := hfirst.exists_of_andThen
      have hlt := hmark.length_lt_of_mark
      have hle := hinter.length_le
      have hmid : Free ["&", "?", "[", "::"] mid :=
        free_of_many hmany (by decide) (hrest.mono (by decide))
      refine .bind (leaves_accept hmark ?_)
      refine (readsTo_intersection ih (by omega) hinter hmid).andThen fun _ => ?_
      exact loop _ (by omega) (by omega) hmany rfl

end Parts

/-! ### Types -/

/-- Types and optional types are read, however many tokens there are (`TypesComplete`). -/
theorem typesComplete (count : Nat) : TypesComplete count := by
  induction count with
  | zero => exact fun ts rest hlen => absurd hlen (Nat.not_lt_zero _)
  | succ count ih =>
    intro ts rest hlen
    have hlen : ts.length ≤ count := Nat.le_of_lt_succ hlen
    refine ⟨leaves_optional ih hlen, fun htype hrest => ?_⟩
    obtain ⟨mid, hinter, hmany⟩ := htype.rule.exists_of_andThen
    have hle := hinter.length_le
    have hmid : Free ["&", "?", "[", "::"] mid :=
      free_of_many hmany (by decide) (hrest.mono (by decide))
    simp only [typeBody, bind_eq]
    refine (readsTo_intersection ih hlen hinter hmid).andThen fun _ => ?_
    exact readsTo_unionTail ih (by omega) hmany hrest

/-- A type is read to its end if nothing that goes on with it follows. -/
theorem readsTo_type (h : Cut (.phrase .type) ts rest) (hrest : Free typeMarks rest) :
    type.ReadsTo ts rest :=
  .spanned (((typesComplete _ ts rest (Nat.lt_succ_self _)).2 h hrest).imp fun _ _ hr _ => hr)

/-! ### Signatures -/

/-- At the end of input no mark stands next. -/
theorem free_nil (marks : List String) : Free marks [] := fun _ _ h => by cases h

/-- The signature of a block is read to the end of input. -/
theorem readsTo_blockSignature (h : Cut (.phrase .blockSignature) ts []) :
    blockSignature.ReadsTo ts [] := by
  obtain ⟨mid, hmark, h⟩ := h.rule.exists_of_andThen
  obtain ⟨mid₁, hparameters, h⟩ := h.exists_of_andThen
  obtain ⟨mid₂, hself, hresult⟩ := h.exists_of_andThen
  have hhead : Free ["(", "["] mid₂ := .of_mark hresult.headKind_mark_andThen (by decide)
  have hmark : (accept "?").ReadsTo ts mid := by
    rcases hmark.cases_of_maybe with rfl | hmark
    · refine .accept_miss ?_ rfl
      rcases hparameters.cases_of_maybe with rfl | hparameters
      · rcases hself.cases_of_maybe with rfl | hself
        · simp [hresult.headKind_mark_andThen]
        · simp [hself.rule.headKind_mark_andThen]
      · simp [hparameters.headKind_of_parameters]
    · exact leaves_accept hmark rfl
  refine .spanned ?_
  simp only [bind_eq]
  refine hmark.andThen fun _ => ?_
  refine (readsTo_parametersAndSelf (typesComplete _) (Nat.le_refl _) (hparameters.andThen hself)
    hhead).andThen fun _ => ?_
  exact (readsTo_result (typesComplete _) (Nat.le_refl _) hresult (free_nil _)
    (by simp [headKind])).imp fun _ _ hr _ => hr

/-- `typeAfter` reads a bound or a default to its end, if it is there. -/
theorem readsTo_typeAfter {text : String} (h : Cut (.maybe (.mark text >> .phrase .type)) ts rest)
    (hrest : Free (text :: typeMarks) rest) : (typeAfter text).ReadsTo ts rest := by
  simp only [typeAfter, bind_eq, pure_eq]
  rcases h.cases_of_maybe with rfl | h
  · exact .bind (.accept_miss (hrest.headKind_ne List.mem_cons_self) (.done rfl))
  · obtain ⟨mid, hmark, htype⟩ := h.exists_of_andThen
    have hfree : Free typeMarks rest := hrest.mono (List.subset_cons_self ..)
    exact .bind (leaves_accept hmark ((readsTo_type htype hfree).andThen fun _ => .done rfl))

/-- `typeParameter` reads up to the comma or bracket after it. -/
theorem readsTo_typeParameter (h : Cut (.phrase .typeParameter) ts rest)
    (hrest : headKind rest = .mark "," ∨ headKind rest = .mark "]") :
    (typeParameter false).ReadsTo ts rest := by
  obtain ⟨mid, hunchecked, h⟩ := h.rule.exists_of_andThen
  obtain ⟨mid₁, hname, h⟩ := h.exists_of_andThen
  obtain ⟨mid₂, hbound, hdefault⟩ := h.exists_of_andThen
  have hfree : Free ("<" :: "=" :: typeMarks) rest := by
    rcases hrest with hrest | hrest
    · exact .of_mark hrest (by decide)
    · exact .of_mark hrest (by decide)
  have hmid₂ : Free ("<" :: typeMarks) mid₂ := by
    rcases hdefault.cases_of_maybe with rfl | hdefault
    · exact hfree.mono (by decide)
    · exact .of_mark hdefault.headKind_mark_andThen (by decide)
  obtain ⟨t, rfl, ht⟩ := hname.exists_ofKind
  have hunchecked : (acceptKind (.keyword "unchecked")).ReadsTo ts (t :: mid₁) := by
    rcases hunchecked.cases_of_maybe with rfl | hunchecked
    · exact .acceptKind_miss (by simp [ht]) rfl
    · obtain ⟨u, rfl, hu⟩ := hunchecked.exists_ofKind
      exact .acceptKind_hit hu rfl
  simp only [typeParameter, bind_eq, pure_eq]
  refine hunchecked.andThen fun _ => ?_
  rw [if_neg (by simp)]
  refine .bind (.done (.bind (.expectAny (by simpa using ht) ?_)))
  refine (readsTo_typeAfter hbound hmid₂).andThen fun _ => ?_
  exact (readsTo_typeAfter hdefault (hfree.mono (by decide))).andThen fun _ => .done rfl

/-- Further type parameters are read to the closing bracket. -/
theorem readsTo_typeParameterTail
    (h : Cut (.many (.mark "," >> .phrase .typeParameter) >> .maybe (.mark ",")) ts rest)
    (hrest : headKind rest = .mark "]") : (call (.typeParameterTail false)).ReadsTo ts rest := by
  induction hn : ts.length using Nat.strongRecOn generalizing ts with
  | ind n loop =>
    subst hn
    refine .call ?_
    obtain ⟨mid, hparameters, hend⟩ := h.exists_of_andThen
    simp only [Phrase.script, nextIsMark, bind_eq, pure_eq]
    rcases hparameters.cases_of_many with rfl | ⟨mid', hfirst, hmany⟩
    · rcases hend.cases_of_maybe with rfl | hcomma
      · exact .bind (.accept_miss (by simp [hrest]) (.done rfl))
      · refine .bind (leaves_accept hcomma (.bind (.nextIs ?_)))
        rw [if_pos (by simpa using hrest)]
        exact .done rfl
    · obtain ⟨r, hcomma, hparameter⟩ := hfirst.exists_of_andThen
      have hlt := hcomma.length_lt_of_mark
      have hle := hparameter.length_le
      have htail := hmany.andThen hend
      have hne : headKind r ≠ .mark "]" := by
        obtain ⟨_, hunchecked, hname⟩ := hparameter.rule.exists_of_andThen
        rcases hunchecked.cases_of_maybe with rfl | hunchecked
        · obtain ⟨_, hname, -⟩ := hname.exists_of_andThen
          obtain ⟨t, rfl, ht⟩ := hname.exists_ofKind
          simp [ht]
        · obtain ⟨t, rfl, ht⟩ := hunchecked.exists_ofKind
          simp [ht]
      have hmid : headKind mid' = .mark "," ∨ headKind mid' = .mark "]" := by
        rcases headKind_of_commas htail with hhead | rfl
        · exact .inl hhead
        · exact .inr hrest
      refine .bind (leaves_accept hcomma (.bind (.nextIs ?_)))
      rw [if_neg (by simpa using hne)]
      refine (readsTo_typeParameter hparameter hmid).andThen fun _ => ?_
      exact (loop _ (by omega) htail rfl).andThen fun _ => .done rfl

/-- `typeParameters` reads to the closing bracket. -/
theorem readsTo_typeParameters (h : Cut (.phrase .typeParameters) ts rest) :
    (typeParameters false).ReadsTo ts rest := by
  obtain ⟨mid, hopen, h⟩ := h.rule.exists_of_andThen
  obtain ⟨mid₁, hfirst, h⟩ := h.exists_of_andThen
  obtain ⟨mid₂, hmany, h⟩ := h.exists_of_andThen
  obtain ⟨mid₃, hend, hclose⟩ := h.exists_of_andThen
  have htail := hmany.andThen hend
  have hmid₁ : headKind mid₁ = .mark "," ∨ headKind mid₁ = .mark "]" := by
    rcases headKind_of_commas htail with hhead | rfl
    · exact .inl hhead
    · exact .inr hclose.headKind_mark
  simp only [typeParameters, bind_eq, pure_eq]
  refine (readsTo_expect hopen).andThen fun _ => ?_
  refine (readsTo_typeParameter hfirst hmid₁).andThen fun _ => ?_
  refine (readsTo_typeParameterTail htail hclose.headKind_mark).andThen fun _ => ?_
  exact (readsTo_expect hclose).andThen fun _ => .done rfl

/-- What stands in front of the block of a method type, read by `typeParameters?` and the parameters
behind it. -/
theorem readsTo_methodTypeHead
    (h : Cut ((.phrase .typeParameters >> .maybe (.phrase .parameters) >>
        .maybe (.phrase .selfBinding)) <|>
      .maybe (.phrase .parameters >> .maybe (.phrase .selfBinding))) ts rest)
    (hrest : Free ["(", "["] rest) :
    ∃ mid, (typeParameters? false).ReadsTo ts mid ∧ parametersAndSelf.ReadsTo mid rest := by
  simp only [typeParameters?, nextIsMark, bind_eq, pure_eq]
  rcases h.cases_of_orElse with h | h
  · obtain ⟨mid, htypes, h⟩ := h.exists_of_andThen
    refine ⟨mid, .bind (.nextIs ?_),
      readsTo_parametersAndSelf (typesComplete _) (Nat.le_refl _) h hrest⟩
    rw [if_pos (by simpa using htypes.rule.headKind_mark_andThen)]
    exact (readsTo_typeParameters htypes).andThen fun _ => .done rfl
  · -- Without type parameters no bracket stands first, since a type of `self` needs parameters.
    have hhead : headKind ts ≠ .mark "[" := by
      rcases h.cases_of_maybe with rfl | h
      · exact hrest.headKind_ne (by decide)
      · obtain ⟨_, hparameters, -⟩ := h.exists_of_andThen
        simp [hparameters.headKind_of_parameters]
    have hboth : Cut (.maybe (.phrase .parameters) >> .maybe (.phrase .selfBinding)) ts rest := by
      rcases h.cases_of_maybe with rfl | h
      · exact Cut.none.andThen .none
      · obtain ⟨_, hparameters, hself⟩ := h.exists_of_andThen
        exact Cut.andThen (.some hparameters) hself
    refine ⟨ts, .bind (.nextIs ?_),
      readsTo_parametersAndSelf (typesComplete _) (Nat.le_refl _) hboth hrest⟩
    rw [if_neg (by simpa using hhead)]
    exact .done rfl

/-- A method type is read to the end of input. -/
theorem readsTo_methodType (h : Cut (.phrase .methodType) ts []) : methodType.ReadsTo ts [] := by
  obtain ⟨mid, hhead, h⟩ := h.rule.exists_of_andThen
  obtain ⟨mid₁, hblock, hresult⟩ := h.exists_of_andThen
  obtain ⟨mid₂, htypes, hparameters⟩ := readsTo_methodTypeHead hhead
    (free_block hblock hresult.headKind_mark_andThen)
  refine .spanned ?_
  simp only [methodTypeBody, bind_eq]
  refine htypes.andThen fun _ => hparameters.andThen fun _ => ?_
  refine (readsTo_block (typesComplete _) (Nat.le_refl _) hblock
    hresult.headKind_mark_andThen).andThen fun _ => ?_
  exact (readsTo_result (typesComplete _) (Nat.le_refl _) hresult (free_nil _)
    (by simp [headKind])).imp fun _ _ hr _ => hr

end TypeNotes.Signature
