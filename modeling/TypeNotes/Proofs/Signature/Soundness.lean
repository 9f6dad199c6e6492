import TypeNotes.Proofs.Signature.Derivation
import TypeNotes.Proofs.Signature.Reading

/-!
# What is read can be derived

Whatever the scripts of the grammar read as a type, a block signature or a method type is derived
by the rule of that nonterminal. Each script that gives an answer has cut tokens of its form off
the front of the stream; the form follows the script.

**Recursion.** Types contain types, but only behind at least one token of their own. The facts
about the parts of a type are therefore stated under the hypothesis that types and optional types
read from fewer tokens can be derived (`TypesSound`), and the whole is an induction on the number
of tokens (`typesSound`). The loops of the grammar are inductions on the number of tokens as well.
-/

namespace TypeNotes.Signature

open Script Grammar

variable {s s' : Stream}

/-! ### Small scripts -/

/-- A token that is shown is the first of the stream, unless it is the end of input. -/
theorem Stream.tokens_of_kind {t : Token} (h : s.tokenAt 0 = .ok t) (ht : t.kind ≠ .endOfInput) :
    s.tokens = t :: s.rest.tokens :=
  tokens_of_tokenAt_zero h (by simpa [Token.isEnd] using ht)

/-- A script that gives an answer leaves no more tokens than there were. -/
theorem Script.Gives.length_le {α : Type} {x : Script α} {a : α} (h : x.Gives s a s') :
    s'.tokens.length ≤ s.tokens.length := by
  obtain ⟨taken, htaken⟩ := h.takes
  rw [htaken.length]
  exact Nat.le_add_left _ _

/-- A phrase that takes a token leaves fewer of them. -/
theorem length_lt_of_call {p : Phrase} {a : p.Answer} (hp : p.takesToken = true)
    (h : (call p).Gives s a s') : s'.tokens.length < s.tokens.length := by
  have hread : p.reading s = (.ok a, s') := (p.reading_eq s).trans (gives_call.1 h)
  exact Phrase.steady_reading.takes p s hp hread

/-- A type takes a token at least. -/
theorem length_lt_of_typeBody {u : Unit} (h : typeBody.Gives s u s') :
    s'.tokens.length < s.tokens.length := by
  simp only [typeBody, intersection, bind_eq, gives_bind] at h
  obtain ⟨_, s₂, ⟨_, s₁, hfirst, hmore⟩, htail⟩ := h
  have hlt := length_lt_of_call rfl hfirst
  have := hmore.length_le
  have := htail.length_le
  omega

/-- A token that fits is cut off by taking it. -/
theorem cut_rest {fits : Token → Bool} {t : Token} (h : s.tokenAt 0 = .ok t)
    (ht : t.kind ≠ .endOfInput) (hfits : fits t = true) :
    Cut (.token fits) s.tokens s.rest.tokens := by
  rw [Stream.tokens_of_kind h ht]
  exact .token hfits

/-- A mark that `expect` takes is cut off. -/
theorem cut_of_expect {mark : String} {u : Unit} (h : (expect mark).Gives s u s') :
    Cut (.mark mark) s.tokens s'.tokens := by
  obtain ⟨⟨t, ht, hkind⟩, rfl⟩ := gives_expect.1 h
  exact cut_rest ht (by simp [hkind]) (by simpa using hkind)

/-- What `acceptKind` takes is cut off, or the stream stays as it is. -/
theorem cut_of_acceptKind {kind : Kind} {b : Bool} (hkind : kind ≠ .endOfInput)
    (h : (acceptKind kind).Gives s b s') :
    b = true ∧ Cut (.ofKind kind) s.tokens s'.tokens ∨ b = false ∧ s = s' := by
  obtain ⟨t, ht, ⟨rfl, rfl, rfl⟩ | ⟨-, rfl, rfl⟩⟩ := gives_acceptKind.1 h
  · exact .inl ⟨rfl, cut_rest ht hkind (by simp)⟩
  · exact .inr ⟨rfl, rfl⟩

theorem cut_of_accept {mark : String} {b : Bool} (h : (accept mark).Gives s b s') :
    b = true ∧ Cut (.mark mark) s.tokens s'.tokens ∨ b = false ∧ s = s' :=
  cut_of_acceptKind (by simp) h

/-- A token that is asked for is one that may be left out. -/
theorem cut_maybe_of_acceptKind {kind : Kind} {b : Bool} (hkind : kind ≠ .endOfInput)
    (h : (acceptKind kind).Gives s b s') : Cut (.maybe (.ofKind kind)) s.tokens s'.tokens := by
  rcases cut_of_acceptKind hkind h with ⟨-, h⟩ | ⟨-, rfl⟩
  · exact .some h
  · exact .none

theorem cut_maybe_of_accept {mark : String} {b : Bool} (h : (accept mark).Gives s b s') :
    Cut (.maybe (.mark mark)) s.tokens s'.tokens := cut_maybe_of_acceptKind (by simp) h

/-- Where `nextThen` finds a mark and a token that fits, both can be cut off. -/
theorem cut_of_nextThen {mark : String} {fits : Token → Bool} {b : Bool}
    (h : (nextThen mark fits).Gives s b s') :
    s = s' ∧ (b = true → Cut (.mark mark) s.tokens s.rest.tokens ∧
      ∃ u, s.rest.tokenAt 0 = .ok u ∧ fits u = true) := by
  obtain ⟨rfl, t, ht, ⟨hkind, u, hu, rfl⟩ | ⟨-, rfl⟩⟩ := gives_nextThen.1 h
  · exact ⟨rfl, fun hfits => ⟨cut_rest ht (by simp [hkind]) (by simpa using hkind), u, hu, hfits⟩⟩
  · exact ⟨rfl, fun hfalse => by cases hfalse⟩

/-- A mark is one token. -/
theorem Cut.length_lt_of_mark {mark : String} {ts rest : List Token}
    (h : Cut (.mark mark) ts rest) : rest.length < ts.length := by
  obtain ⟨us, rfl, hus⟩ := h
  obtain ⟨t, rfl, -⟩ := derives_mark.1 hus
  simp

/-! ### Names -/

/-- What is read as a path is derived as one. -/
theorem cut_path {u : Unit} (h : (call (.path .type)).Gives s u s') :
    Cut (.many (.ofKind .upperName >> .mark "::") >> .nameEnd) s.tokens s'.tokens := by
  induction hlen : s.tokens.length using Nat.strongRecOn generalizing s with
  | ind n ih =>
    subst hlen
    rw [gives_call] at h
    simp only [Phrase.script, bind_eq, pure_eq, gives_bind, gives_expectAny] at h
    obtain ⟨t, _, ⟨ht, hmem, rfl⟩, h⟩ := h
    have hname : t.kind.isName = true ∧ t.kind ≠ .endOfInput := by
      simp only [NameSort.kinds, nameKinds, List.mem_cons, List.not_mem_nil, or_false] at hmem
      rcases hmem with hk | hk | hk <;> simp [hk, Kind.isName]
    have hend : Cut .nameEnd s.tokens s.rest.tokens := cut_rest ht hname.2 hname.1
    split at h
    · rename_i hupper
      simp only [gives_bind] at h
      obtain ⟨b, s₁, hb, h⟩ := h
      have hcut : Cut (.ofKind .upperName) s.tokens s.rest.tokens :=
        cut_rest ht hname.2 hupper
      rcases cut_of_accept hb with ⟨rfl, hsep⟩ | ⟨rfl, rfl⟩
      · -- A separator was read, so the loop goes on with fewer tokens.
        rw [if_pos rfl] at h
        have hlt := Stream.length_rest_lt ht (by simpa [Token.isEnd] using hname.2)
        have := hb.length_le
        obtain ⟨mid, hmany, hlast⟩ := (ih _ (by omega) h rfl).exists_of_andThen
        exact ((hcut.andThen hsep).more hmany).andThen hlast
      · rw [if_neg (by simp), gives_done] at h
        obtain ⟨-, rfl⟩ := h
        exact Cut.stop.andThen hend
    · rw [gives_done] at h
      obtain ⟨-, rfl⟩ := h
      exact Cut.stop.andThen hend

/-- What `qualified` reads is derived as a name. -/
theorem cut_qualified {u : Unit} (h : (qualified .type).Gives s u s') :
    Cut (.phrase .name) s.tokens s'.tokens := by
  simp only [qualified, bind_eq, gives_bind] at h
  obtain ⟨_, s₁, hroot, hpath⟩ := h
  exact .phrase ((cut_maybe_of_accept hroot).andThen (cut_path hpath))

/-! ### Parts of types -/

/-- Types and optional types that are read from fewer tokens can be derived. -/
def TypesSound (count : Nat) : Prop :=
  ∀ s s' : Stream, s.tokens.length < count →
    ((call .optional).Gives s () s' → Cut (.phrase .optional) s.tokens s'.tokens) ∧
    (typeBody.Gives s () s' → Cut (.phrase .type) s.tokens s'.tokens)

section Parts

variable {count : Nat} (ih : TypesSound count)

include ih

/-- Further arguments are derived as types behind commas. -/
theorem cut_argumentTail (hs : s.tokens.length < count) {u : Unit}
    (h : (call .argumentTail).Gives s u s') :
    Cut (.many (.mark "," >> .phrase .type) >> .maybe (.mark ",")) s.tokens s'.tokens := by
  induction hlen : s.tokens.length using Nat.strongRecOn generalizing s with
  | ind n loop =>
    subst hlen
    rw [gives_call] at h
    simp only [Phrase.script, bind_eq, pure_eq, gives_bind] at h
    obtain ⟨b, s₁, hb, h⟩ := h
    rcases cut_of_accept hb with ⟨rfl, hcomma⟩ | ⟨rfl, rfl⟩
    · have hlt := hcomma.length_lt_of_mark
      simp only [if_pos, nextIsMark, gives_bind, gives_nextIs] at h
      obtain ⟨b, _, ⟨-, rfl⟩, h⟩ := h
      cases b with
      | true =>
        -- The comma stands in front of the bracket, and there are no more types.
        rw [if_pos rfl, gives_done] at h
        obtain ⟨-, rfl⟩ := h
        exact Cut.stop.andThen (.some hcomma)
      | false =>
        rw [if_neg (by simp), gives_bind] at h
        obtain ⟨_, s₂, htype, htail⟩ := h
        have hle := htype.length_le
        have htype := (ih _ s₂ (by omega)).2 htype
        obtain ⟨mid, hmany, hend⟩ := (loop _ (by omega) (by omega) htail rfl).exists_of_andThen
        exact ((hcomma.andThen htype).more hmany).andThen hend
    · rw [if_neg (by simp), gives_done] at h
      obtain ⟨-, rfl⟩ := h
      exact Cut.stop.andThen .none

/-- The rest of a list of types in brackets. -/
theorem cut_arguments (hs : s.tokens.length < count) {u : Unit} (h : arguments.Gives s u s') :
    Cut (.phrase .types >> .mark "]") s.tokens s'.tokens := by
  simp only [arguments, bind_eq, gives_bind] at h
  obtain ⟨_, s₁, htype, _, s₂, htail, hclose⟩ := h
  have hle := htype.length_le
  have htypes : Cut (.phrase .types) s.tokens s₂.tokens :=
    .phrase (((ih s s₁ hs).2 htype).andThen (cut_argumentTail ih (by omega) htail))
  exact htypes.andThen (cut_of_expect hclose)

/-- The result of a method or a block. -/
theorem cut_result (hs : s.tokens.length ≤ count) {u : Unit} (h : result.Gives s u s') :
    Cut (.mark "->" >> .phrase .optional) s.tokens s'.tokens := by
  simp only [result, bind_eq, gives_bind] at h
  obtain ⟨_, s₁, harrow, hopt⟩ := h
  have harrow := cut_of_expect harrow
  have hlt := harrow.length_lt_of_mark
  exact harrow.andThen ((ih s₁ s' (by omega)).1 hopt)

/-- A type of `self` is read only where a bracket and its key stand next. -/
theorem cut_selfBinding (hs : s.tokens.length ≤ count) {u : Unit}
    (h : selfBinding.Gives s u s') :
    Cut (.maybe (.phrase .selfBinding)) s.tokens s'.tokens := by
  simp only [selfBinding, bind_eq, pure_eq, gives_bind] at h
  obtain ⟨b, s₁, hnext, h⟩ := h
  obtain ⟨rfl, hboth⟩ := cut_of_nextThen hnext
  split at h
  · rename_i htrue
    obtain ⟨hopen, u, hu, hself⟩ := hboth htrue
    simp only [gives_bind, gives_skip] at h
    obtain ⟨_, _, ⟨-, rfl⟩, _, _, ⟨-, rfl⟩, _, s₁, htype, hclose⟩ := h
    have hlt := hopen.length_lt_of_mark
    -- A type follows, so the second token is not the end of input.
    have hmore : u.kind ≠ .endOfInput := by
      intro hend
      have hnil := Stream.tokens_of_isEnd hu (by simpa [Token.isEnd] using hend)
      have hlt := length_lt_of_typeBody htype
      simp [Stream.rest_of_nil hnil, hnil] at hlt
    have hself : Cut (.spelled "self:") s.rest.tokens s.rest.rest.tokens :=
      cut_rest hu hmore hself
    have hle : s.rest.rest.tokens.length ≤ s.rest.tokens.length := by simp [Stream.rest]
    exact .some (.phrase (hopen.andThen (hself.andThen
      (((ih _ s₁ (by omega)).2 htype).andThen (cut_of_expect hclose)))))
  · rw [gives_done] at h
    obtain ⟨-, rfl⟩ := h
    exact .none

omit ih in
/-- `parameterHead` tells whether the parameter is a keyword parameter. -/
theorem cut_parameterHead {afterKey b : Bool} (h : (parameterHead afterKey).Gives s b s') :
    b = true ∧ Cut ((.maybe (.mark "?") >> .key) <|> .mark "**") s.tokens s'.tokens ∨
      b = false ∧ afterKey = false ∧
        Cut (.maybe (.mark "?" <|> .mark "*")) s.tokens s'.tokens := by
  simp only [parameterHead, bind_eq, pure_eq, gives_bind, gives_peek] at h
  obtain ⟨t, _, ⟨ht, rfl⟩, optionalKey, s₁, hnext, h⟩ := h
  obtain ⟨rfl, hopt⟩ := cut_of_nextThen hnext
  split at h
  · -- A question mark and a key.
    rename_i htrue
    simp only [gives_bind, gives_skip, gives_done] at h
    obtain ⟨_, _, ⟨-, rfl⟩, _, _, ⟨-, rfl⟩, rfl, rfl⟩ := h
    obtain ⟨hmark, v, hv, hkey⟩ := hopt htrue
    have hkey : Cut .key s.rest.tokens s.rest.rest.tokens :=
      cut_rest hv (fun hend => by simp [hend, Kind.isKey] at hkey) hkey
    exact .inl ⟨rfl, .left (Cut.andThen (.some hmark) hkey)⟩
  split at h
  · -- A key alone, or two stars.
    rename_i hkind
    simp only [gives_bind, gives_skip, gives_done] at h
    obtain ⟨_, _, ⟨-, rfl⟩, rfl, rfl⟩ := h
    rw [Bool.or_eq_true, beq_iff_eq] at hkind
    rcases hkind with hkey | hmark
    · have hkey : Cut .key s.tokens s.rest.tokens :=
        cut_rest ht (fun hend => by simp [hend, Kind.isKey] at hkey) hkey
      exact .inl ⟨rfl, .left (Cut.none.andThen hkey)⟩
    · exact .inl ⟨rfl, .right (cut_rest ht (by simp [hmark]) (by simpa using hmark))⟩
  split at h
  · simp at h
  · -- A positional parameter, which is not allowed after a key.
    rename_i hafter
    refine .inr ?_
    split at h
    · rename_i hkind
      simp only [gives_bind, gives_skip, gives_done] at h
      obtain ⟨_, _, ⟨-, rfl⟩, rfl, rfl⟩ := h
      rw [Bool.or_eq_true, beq_iff_eq, beq_iff_eq] at hkind
      refine ⟨rfl, by simpa using hafter, .some ?_⟩
      rcases hkind with hmark | hmark
      · exact .left (cut_rest ht (by simp [hmark]) (by simpa using hmark))
      · exact .right (cut_rest ht (by simp [hmark]) (by simpa using hmark))
    · obtain ⟨rfl, rfl⟩ := gives_done.1 h
      exact ⟨rfl, by simpa using hafter, .none⟩

/-- One round of the loop over parameters: a parameter, and then no more than a comma, or a comma
and the rest of the loop. -/
theorem cut_parameter {afterKey : Bool} (hs : s.tokens.length < count) {u : Unit}
    (h : (call (.parameters afterKey)).Gives s u s') :
    ∃ (isKeyed : Bool) (s₁ : Stream), s₁.tokens.length < s.tokens.length ∧
      (isKeyed = true ∧ Cut (.phrase .keyed) s.tokens s₁.tokens ∨
        isKeyed = false ∧ afterKey = false ∧ Cut (.phrase .positional) s.tokens s₁.tokens) ∧
      (Cut (.maybe (.mark ",")) s₁.tokens s'.tokens ∨
        ∃ s₂ : Stream, Cut (.mark ",") s₁.tokens s₂.tokens ∧
          (call (.parameters isKeyed)).Gives s₂ u s') := by
  rw [gives_call] at h
  simp only [Phrase.script, nextIsMark, bind_eq, pure_eq, gives_bind] at h
  obtain ⟨isKeyed, s₀, hhead, _, s₁, htype, _, s₂, hname, b, s₃, hb, h⟩ := h
  have hle := hhead.length_le
  have hlt := length_lt_of_typeBody htype
  have hle' := hname.length_le
  have hbody := ((ih s₀ s₁ (by omega)).2 htype).andThen (cut_maybe_of_acceptKind (by simp) hname)
  refine ⟨isKeyed, s₂, by omega, ?_, ?_⟩
  · rcases cut_parameterHead hhead with ⟨htrue, hkey⟩ | ⟨hfalse, hafter, hmark⟩
    · exact .inl ⟨htrue, .phrase (hkey.andThen hbody)⟩
    · exact .inr ⟨hfalse, hafter, .phrase (hmark.andThen hbody)⟩
  · rcases cut_of_accept hb with ⟨rfl, hcomma⟩ | ⟨rfl, rfl⟩
    · simp only [if_pos, gives_bind, gives_nextIs] at h
      obtain ⟨closes, _, ⟨-, rfl⟩, h⟩ := h
      cases closes with
      | true =>
        rw [if_pos rfl, gives_done] at h
        obtain ⟨-, rfl⟩ := h
        exact .inl (.some hcomma)
      | false => exact .inr ⟨s₃, hcomma, h⟩
    · rw [if_neg (by simp), gives_done] at h
      obtain ⟨-, rfl⟩ := h
      exact .inl .none

/-- After a keyword parameter only keyword parameters follow. -/
theorem cut_keyed (hs : s.tokens.length < count) {u : Unit}
    (h : (call (.parameters true)).Gives s u s') :
    Cut (.phrase .keyed >> .many (.mark "," >> .phrase .keyed) >> .maybe (.mark ","))
      s.tokens s'.tokens := by
  induction hlen : s.tokens.length using Nat.strongRecOn generalizing s with
  | ind n loop =>
    subst hlen
    obtain ⟨_, s₁, hlt, ⟨rfl, hkeyed⟩ | ⟨-, hfalse, -⟩, hrest⟩ := cut_parameter ih hs h
    · rcases hrest with hend | ⟨s₂, hcomma, hmore⟩
      · exact hkeyed.andThen (Cut.stop.andThen hend)
      · have := hcomma.length_lt_of_mark
        obtain ⟨mid, hfirst, hmore⟩ :=
          (loop _ (by omega) (by omega) hmore rfl).exists_of_andThen
        obtain ⟨mid', hmany, hend⟩ := hmore.exists_of_andThen
        exact hkeyed.andThen (((hcomma.andThen hfirst).more hmany).andThen hend)
    · cases hfalse

omit ih in
/-- A keyword parameter in front of keyword parameters. -/
theorem Cut.keyed_cons {ts mid rest : List Token}
    (hfirst : Cut (.phrase .keyed >> .mark ",") ts mid)
    (hrest : Cut (.phrase .keyed >> .many (.mark "," >> .phrase .keyed) >> .maybe (.mark ","))
      mid rest) :
    Cut (((.phrase .positional >> .many (.mark "," >> .phrase .positional) >>
        .many (.mark "," >> .phrase .keyed)) <|>
      (.phrase .keyed >> .many (.mark "," >> .phrase .keyed))) >> .maybe (.mark ",")) ts rest := by
  obtain ⟨mid₁, hkeyed, hcomma⟩ := hfirst.exists_of_andThen
  obtain ⟨mid₂, hnext, hrest⟩ := hrest.exists_of_andThen
  obtain ⟨mid₃, hmany, hend⟩ := hrest.exists_of_andThen
  exact (Cut.right (hkeyed.andThen ((hcomma.andThen hnext).more hmany))).andThen hend

omit ih in
/-- A positional parameter in front of parameters, which may be of either sort. -/
theorem Cut.positional_cons {ts mid rest : List Token}
    (hfirst : Cut (.phrase .positional >> .mark ",") ts mid)
    (hrest : Cut (((.phrase .positional >> .many (.mark "," >> .phrase .positional) >>
        .many (.mark "," >> .phrase .keyed)) <|>
      (.phrase .keyed >> .many (.mark "," >> .phrase .keyed))) >> .maybe (.mark ",")) mid rest) :
    Cut (((.phrase .positional >> .many (.mark "," >> .phrase .positional) >>
        .many (.mark "," >> .phrase .keyed)) <|>
      (.phrase .keyed >> .many (.mark "," >> .phrase .keyed))) >> .maybe (.mark ",")) ts rest := by
  obtain ⟨mid₁, hpositional, hcomma⟩ := hfirst.exists_of_andThen
  obtain ⟨mid₂, hlist, hend⟩ := hrest.exists_of_andThen
  refine Cut.andThen (.left (hpositional.andThen ?_)) hend
  rcases hlist.cases_of_orElse with hlist | hlist
  · obtain ⟨mid₃, hnext, hmore⟩ := hlist.exists_of_andThen
    obtain ⟨mid₄, hmany, hkeyed⟩ := hmore.exists_of_andThen
    exact ((hcomma.andThen hnext).more hmany).andThen hkeyed
  · obtain ⟨mid₃, hnext, hmany⟩ := hlist.exists_of_andThen
    exact Cut.stop.andThen ((hcomma.andThen hnext).more hmany)

/-- Positional parameters come before keyword parameters. -/
theorem cut_parameterList (hs : s.tokens.length < count) {u : Unit}
    (h : (call (.parameters false)).Gives s u s') :
    Cut (((.phrase .positional >> .many (.mark "," >> .phrase .positional) >>
        .many (.mark "," >> .phrase .keyed)) <|>
      (.phrase .keyed >> .many (.mark "," >> .phrase .keyed))) >> .maybe (.mark ","))
      s.tokens s'.tokens := by
  induction hlen : s.tokens.length using Nat.strongRecOn generalizing s with
  | ind n loop =>
    subst hlen
    obtain ⟨isKeyed, s₁, hlt, hparameter, hrest⟩ := cut_parameter ih hs h
    rcases hparameter with ⟨rfl, hkeyed⟩ | ⟨rfl, -, hpositional⟩
    · rcases hrest with hend | ⟨s₂, hcomma, hmore⟩
      · exact (Cut.right (hkeyed.andThen .stop)).andThen hend
      · have := hcomma.length_lt_of_mark
        exact (hkeyed.andThen hcomma).keyed_cons (cut_keyed ih (by omega) hmore)
    · rcases hrest with hend | ⟨s₂, hcomma, hmore⟩
      · exact (Cut.left (hpositional.andThen (Cut.stop.andThen .stop))).andThen hend
      · have := hcomma.length_lt_of_mark
        exact (hpositional.andThen hcomma).positional_cons (loop _ (by omega) (by omega) hmore rfl)

/-- Parameters in parentheses. -/
theorem cut_parameters (hs : s.tokens.length ≤ count) {u : Unit} (h : parameters.Gives s u s') :
    Cut (.phrase .parameters) s.tokens s'.tokens := by
  simp only [parameters, bind_eq, pure_eq, gives_bind] at h
  obtain ⟨_, s₁, hopen, b, s₂, hb, h⟩ := h
  have hopen := cut_of_expect hopen
  have hlt := hopen.length_lt_of_mark
  rcases cut_of_accept hb with ⟨rfl, hclose⟩ | ⟨rfl, rfl⟩
  · rw [if_pos rfl, gives_done] at h
    obtain ⟨-, rfl⟩ := h
    exact .phrase (.left (hopen.andThen hclose))
  rw [if_neg (by simp), gives_bind] at h
  obtain ⟨b, s₂, hnext, h⟩ := h
  obtain ⟨rfl, hboth⟩ := cut_of_nextThen hnext
  split at h
  · rename_i htrue
    obtain ⟨hmark, t, ht, hkind⟩ := hboth htrue
    simp only [gives_bind, gives_skip] at h
    obtain ⟨_, _, ⟨-, rfl⟩, -, rfl⟩ := h
    have hclose : Cut (.mark ")") s₁.rest.tokens s₁.rest.rest.tokens :=
      cut_rest ht (fun hend => by simp [hend] at hkind) hkind
    exact .phrase (.right (.left (hopen.andThen (hmark.andThen hclose))))
  · rw [gives_bind] at h
    obtain ⟨_, s₃, hlist, hclose⟩ := h
    obtain ⟨mid, hlist, hend⟩ := (cut_parameterList ih (by omega) hlist).exists_of_andThen
    exact .phrase (.right (.right
      (hopen.andThen (hlist.andThen (hend.andThen (cut_of_expect hclose))))))

/-- Parameters and a binding of `self` may both be left out. -/
theorem cut_parametersAndSelf (hs : s.tokens.length ≤ count) {u : Unit}
    (h : parametersAndSelf.Gives s u s') :
    Cut (.maybe (.phrase .parameters) >> .maybe (.phrase .selfBinding)) s.tokens s'.tokens := by
  simp only [parametersAndSelf, bind_eq, gives_bind] at h
  obtain ⟨_, s₁, hparameters, hself⟩ := h
  have hle := hparameters.length_le
  refine Cut.andThen ?_ (cut_selfBinding ih (by omega) hself)
  simp only [parameters?, nextIsMark, bind_eq, pure_eq, gives_bind, gives_nextIs] at hparameters
  obtain ⟨_, _, ⟨⟨t, ht, rfl⟩, rfl⟩, hparameters⟩ := hparameters
  split at hparameters
  · exact .some (cut_parameters ih hs hparameters)
  · rw [gives_done] at hparameters
    obtain ⟨-, rfl⟩ := hparameters
    exact .none

omit ih in
/-- The question mark of a block is taken only in front of a brace. -/
theorem cut_blockMark {u : Unit} (h : blockMark.Gives s u s') :
    Cut (.mark "?") s.tokens s'.tokens ∧
      (∃ t, s'.tokenAt 0 = .ok t ∧ t.kind = .mark "\x7b") ∨ s = s' := by
  simp only [blockMark, bind_eq, pure_eq, gives_bind] at h
  obtain ⟨b, s₁, hnext, h⟩ := h
  obtain ⟨rfl, hboth⟩ := cut_of_nextThen hnext
  split at h
  · rename_i htrue
    obtain ⟨hmark, t, ht, hkind⟩ := hboth htrue
    obtain ⟨-, rfl⟩ := gives_skip.1 h
    exact .inl ⟨hmark, t, ht, by simpa using hkind⟩
  · exact .inr (gives_done.1 h).2

/-- A block in braces. A question mark is read only in front of a brace. -/
theorem cut_block (hs : s.tokens.length ≤ count) {u : Unit} (h : block.Gives s u s') :
    Cut (.maybe (.phrase .block)) s.tokens s'.tokens := by
  simp only [block, bind_eq, pure_eq, gives_bind] at h
  obtain ⟨_, s₁, hmark, b, s₂, hb, h⟩ := h
  have hle := hmark.length_le
  obtain ⟨t, ht, hbrace⟩ := gives_accept.1 hb
  rcases cut_of_accept hb with ⟨rfl, hopen⟩ | ⟨rfl, rfl⟩
  · rw [if_pos rfl, gives_bind] at h
    obtain ⟨_, s₃, hparameters, h⟩ := h
    obtain ⟨_, s₄, hresult, hclose⟩ := gives_bind.1 h
    have hlt := hopen.length_lt_of_mark
    have := hparameters.length_le
    obtain ⟨mid, hparameters, hself⟩ :=
      (cut_parametersAndSelf ih (by omega) hparameters).exists_of_andThen
    obtain ⟨mid', harrow, hoptional⟩ := (cut_result ih (by omega) hresult).exists_of_andThen
    have hbody := hopen.andThen (hparameters.andThen (hself.andThen
      (harrow.andThen (hoptional.andThen (cut_of_expect hclose)))))
    rcases cut_blockMark hmark with ⟨hmark, -⟩ | rfl
    · exact .some (.phrase (Cut.andThen (.some hmark) hbody))
    · exact .some (.phrase (Cut.none.andThen hbody))
  · -- No brace was read, so no question mark in front of it was either.
    rw [if_neg (by simp), gives_done] at h
    obtain ⟨-, rfl⟩ := h
    rcases cut_blockMark hmark with ⟨-, v, hv, hkind⟩ | rfl
    · obtain rfl : v = t := by simpa [hv] using ht
      simp [hkind] at hbrace
    · exact .none

omit ih in
/-- The key of a field is a key by itself, or a literal or name with an arrow behind it. -/
theorem cut_recordKey {u : Unit} (h : recordKey.Gives s u s') :
    Cut .key s.tokens s'.tokens ∨
      Cut ((.literal <|> .nameEnd) >> .mark "=>") s.tokens s'.tokens := by
  simp only [recordKey, bind_eq, gives_bind, gives_peek] at h
  obtain ⟨t, _, ⟨ht, rfl⟩, h⟩ := h
  split at h
  · rename_i hkey
    obtain ⟨-, rfl⟩ := gives_skip.1 h
    exact .inl (cut_rest ht (fun hend => by simp [hend, Kind.isKey] at hkey) hkey)
  split at h
  · rename_i hkind
    simp only [gives_bind, gives_skip] at h
    obtain ⟨_, _, ⟨-, rfl⟩, harrow⟩ := h
    have hmore : t.kind ≠ .endOfInput := by
      intro hend
      simp [hend, Kind.isLiteral, Kind.isName] at hkind
    refine .inr (Cut.andThen ?_ (cut_of_expect harrow))
    rcases Bool.or_eq_true_iff.1 hkind with hliteral | hname
    · exact .left (cut_rest ht hmore hliteral)
    · exact .right (cut_rest ht hmore hname)
  · simp at h

/-- The fields of a record and the brace after them. -/
theorem cut_recordFields (hs : s.tokens.length < count) {u : Unit}
    (h : (call .recordFields).Gives s u s') :
    Cut (.phrase .field >> .many (.mark "," >> .phrase .field) >> .maybe (.mark ",") >>
      .mark "\x7d") s.tokens s'.tokens := by
  induction hlen : s.tokens.length using Nat.strongRecOn generalizing s with
  | ind n loop =>
    subst hlen
    rw [gives_call] at h
    simp only [Phrase.script, bind_eq, pure_eq, gives_bind] at h
    obtain ⟨_, s₁, hmark, _, s₂, hkey, _, s₃, htype, b, s₄, hb, h⟩ := h
    have hle₁ := hmark.length_le
    have hle₂ := hkey.length_le
    have hlt := length_lt_of_typeBody htype
    have hle₃ := hb.length_le
    have hmark := cut_maybe_of_accept hmark
    have htype := (ih s₂ s₃ (by omega)).2 htype
    have hfield : Cut (.phrase .field) s.tokens s₃.tokens := by
      rcases cut_recordKey hkey with hkey | hkey
      · exact .phrase (.left (hmark.andThen (hkey.andThen htype)))
      · obtain ⟨mid, hkey, harrow⟩ := hkey.exists_of_andThen
        exact .phrase (.right (hmark.andThen (hkey.andThen (harrow.andThen htype))))
    rcases cut_of_accept hb with ⟨rfl, hcomma⟩ | ⟨rfl, rfl⟩
    · rw [if_pos rfl, gives_bind] at h
      obtain ⟨b, s₅, hb, h⟩ := h
      rcases cut_of_accept hb with ⟨rfl, hclose⟩ | ⟨rfl, rfl⟩
      · rw [if_pos rfl, gives_done] at h
        obtain ⟨-, rfl⟩ := h
        exact hfield.andThen (Cut.stop.andThen (Cut.andThen (.some hcomma) hclose))
      · rw [if_neg (by simp)] at h
        obtain ⟨mid, hfirst, hmore⟩ := (loop _ (by omega) (by omega) h rfl).exists_of_andThen
        obtain ⟨mid', hmany, hend⟩ := hmore.exists_of_andThen
        exact hfield.andThen (((hcomma.andThen hfirst).more hmany).andThen hend)
    · rw [if_neg (by simp)] at h
      exact hfield.andThen (Cut.stop.andThen (Cut.none.andThen (cut_of_expect h)))

/-- A procedure type after its caret. -/
theorem cut_procedure (hs : s.tokens.length < count) {u : Unit} (h : procedure.Gives s u s') :
    Cut (.maybe (.phrase .parameters) >> .maybe (.phrase .selfBinding) >>
      .maybe (.phrase .block) >> .mark "->" >> .phrase .optional) s.tokens s'.tokens := by
  simp only [procedure, bind_eq, gives_bind] at h
  obtain ⟨_, s₁, hparameters, _, s₂, hblock, hresult⟩ := h
  have hle := hparameters.length_le
  have hle' := hblock.length_le
  obtain ⟨mid, hparameters, hself⟩ :=
    (cut_parametersAndSelf ih (by omega) hparameters).exists_of_andThen
  exact hparameters.andThen (hself.andThen
    ((cut_block ih (by omega) hblock).andThen (cut_result ih (by omega) hresult)))

/-- The first token decides which form a simple type has. -/
theorem cut_simple (hs : s.tokens.length ≤ count) {u : Unit} (h : simple.Gives s u s') :
    Cut (.phrase .simple) s.tokens s'.tokens := by
  simp only [simple, bind_eq, pure_eq, gives_bind, gives_peek] at h
  obtain ⟨t, _, ⟨ht, rfl⟩, h⟩ := h
  have hcut : ∀ {kind : Kind}, t.kind = kind → kind ≠ .endOfInput →
      Cut (.ofKind kind) s.tokens s.rest.tokens ∧ s.rest.tokens.length < count := by
    intro kind hkind hne
    refine ⟨cut_rest ht (hkind ▸ hne) (by simpa using hkind), ?_⟩
    have := Stream.length_rest_lt ht (by simpa [Token.isEnd, hkind] using hne)
    omega
  refine .phrase ?_
  -- The cases are those of the script: parentheses, caret, bracket, brace, `singleton`, other words.
  split at h
  · rename_i hkind
    obtain ⟨hopen, hlt⟩ := hcut hkind (by simp)
    simp only [gives_bind, gives_skip] at h
    obtain ⟨_, _, ⟨-, rfl⟩, _, s₁, htype, hclose⟩ := h
    exact .left (hopen.andThen (((ih _ s₁ hlt).2 htype).andThen (cut_of_expect hclose)))
  · rename_i hkind
    obtain ⟨hopen, hlt⟩ := hcut hkind (by simp)
    simp only [gives_bind, gives_skip] at h
    obtain ⟨_, _, ⟨-, rfl⟩, hprocedure⟩ := h
    exact .right (.left (hopen.andThen (cut_procedure ih hlt hprocedure)))
  · rename_i hkind
    obtain ⟨hopen, hlt⟩ := hcut hkind (by simp)
    simp only [gives_bind, gives_skip] at h
    obtain ⟨_, _, ⟨-, rfl⟩, b, s₁, hb, h⟩ := h
    rcases cut_of_accept hb with ⟨rfl, hclose⟩ | ⟨rfl, rfl⟩
    · rw [if_pos rfl, gives_done] at h
      obtain ⟨-, rfl⟩ := h
      exact .right (.right (.left (hopen.andThen hclose)))
    · rw [if_neg (by simp)] at h
      exact .right (.right (.right (.left (hopen.andThen (cut_arguments ih hlt h)))))
  · rename_i hkind
    obtain ⟨hopen, hlt⟩ := hcut hkind (by simp)
    simp only [gives_bind, gives_skip] at h
    obtain ⟨_, _, ⟨-, rfl⟩, b, s₁, hb, h⟩ := h
    rcases cut_of_accept hb with ⟨rfl, hclose⟩ | ⟨rfl, rfl⟩
    · rw [if_pos rfl, gives_done] at h
      obtain ⟨-, rfl⟩ := h
      exact .right (.right (.right (.right (.left (hopen.andThen hclose)))))
    · rw [if_neg (by simp)] at h
      exact .right (.right (.right (.right (.right
        (.left (hopen.andThen (cut_recordFields ih hlt h)))))))
  · rename_i hkind
    obtain ⟨hword, -⟩ := hcut hkind (by simp)
    simp only [gives_bind, gives_skip] at h
    obtain ⟨_, _, ⟨-, rfl⟩, _, s₁, hopen, _, s₂, hname, hclose⟩ := h
    exact .right (.right (.right (.right (.right (.right (.left (hword.andThen
      ((cut_of_expect hopen).andThen ((cut_qualified hname).andThen (cut_of_expect hclose))))))))))
  · split at h
    · rename_i hkind
      obtain ⟨-, rfl⟩ := gives_skip.1 h
      have hmore : t.kind ≠ .endOfInput := by
        intro hend
        simp [hend, Kind.isBaseType, Kind.isLiteral] at hkind
      rcases Bool.or_eq_true_iff.1 hkind with hbase | hliteral
      · exact .right (.right (.right (.right (.right (.right (.right
          (.left (cut_rest ht hmore hbase))))))))
      · exact .right (.right (.right (.right (.right (.right (.right
          (.right (.left (cut_rest ht hmore hliteral)))))))))
    split at h
    · simp only [gives_bind] at h
      obtain ⟨_, s₁, hname, b, s₂, hb, h⟩ := h
      have hle := hname.length_le
      refine .right (.right (.right (.right (.right (.right (.right
        (.right (.right ((cut_qualified hname).andThen ?_)))))))))
      rcases cut_of_accept hb with ⟨rfl, hopen⟩ | ⟨rfl, rfl⟩
      · have hlt := hopen.length_lt_of_mark
        rw [if_pos rfl] at h
        exact .some (hopen.andThen (cut_arguments ih (by omega) h))
      · rw [if_neg (by simp), gives_done] at h
        obtain ⟨-, rfl⟩ := h
        exact .none
    · simp at h

/-- What is read as an optional type is derived as one. -/
theorem cut_optional (hs : s.tokens.length ≤ count) {u : Unit}
    (h : (call .optional).Gives s u s') : Cut (.phrase .optional) s.tokens s'.tokens := by
  rw [gives_call] at h
  simp only [Phrase.script, bind_eq, pure_eq, gives_bind] at h
  obtain ⟨_, s₁, hsimple, _, s₂, hmark, h⟩ := h
  obtain ⟨-, rfl⟩ := gives_done.1 h
  exact .phrase ((cut_simple ih hs hsimple).andThen (cut_maybe_of_accept hmark))

/-- Further types of an intersection are derived behind their marks. -/
theorem cut_intersectionTail (hs : s.tokens.length ≤ count) {u : Unit}
    (h : (call .intersectionTail).Gives s u s') :
    Cut (.many (.mark "&" >> .phrase .optional)) s.tokens s'.tokens := by
  induction hlen : s.tokens.length using Nat.strongRecOn generalizing s with
  | ind n loop =>
    subst hlen
    rw [gives_call] at h
    simp only [Phrase.script, bind_eq, pure_eq, gives_bind] at h
    obtain ⟨b, s₁, hb, h⟩ := h
    rcases cut_of_accept hb with ⟨rfl, hmark⟩ | ⟨rfl, rfl⟩
    · rw [if_pos rfl, gives_bind] at h
      obtain ⟨_, s₂, hfirst, htail⟩ := h
      have hlt := hmark.length_lt_of_mark
      have hle := hfirst.length_le
      exact (hmark.andThen ((ih s₁ s₂ (by omega)).1 hfirst)).more
        (loop _ (by omega) (by omega) htail rfl)
    · rw [if_neg (by simp), gives_done] at h
      obtain ⟨-, rfl⟩ := h
      exact .stop

/-- What is read as an intersection is derived as one. -/
theorem cut_intersection (hs : s.tokens.length ≤ count) {u : Unit}
    (h : intersection.Gives s u s') : Cut (.phrase .intersection) s.tokens s'.tokens := by
  simp only [intersection, bind_eq, gives_bind] at h
  obtain ⟨_, s₁, hfirst, htail⟩ := h
  have hle := hfirst.length_le
  exact .phrase ((cut_optional ih hs hfirst).andThen (cut_intersectionTail ih (by omega) htail))

/-- Further types of a union are derived behind their marks. -/
theorem cut_unionTail (hs : s.tokens.length ≤ count) {u : Unit}
    (h : (call .unionTail).Gives s u s') :
    Cut (.many (.mark "|" >> .phrase .intersection)) s.tokens s'.tokens := by
  induction hlen : s.tokens.length using Nat.strongRecOn generalizing s with
  | ind n loop =>
    subst hlen
    rw [gives_call] at h
    simp only [Phrase.script, bind_eq, pure_eq, gives_bind] at h
    obtain ⟨b, s₁, hb, h⟩ := h
    rcases cut_of_accept hb with ⟨rfl, hmark⟩ | ⟨rfl, rfl⟩
    · rw [if_pos rfl, gives_bind] at h
      obtain ⟨_, s₂, hfirst, htail⟩ := h
      have hlt := hmark.length_lt_of_mark
      have hle := hfirst.length_le
      exact (hmark.andThen (cut_intersection ih (by omega) hfirst)).more
        (loop _ (by omega) (by omega) htail rfl)
    · rw [if_neg (by simp), gives_done] at h
      obtain ⟨-, rfl⟩ := h
      exact .stop

end Parts

/-! ### Types -/

/-- Types and optional types can be derived, however many tokens there are (`TypesSound`). -/
theorem typesSound (count : Nat) : TypesSound count := by
  induction count with
  | zero => exact fun s s' hs => absurd hs (Nat.not_lt_zero _)
  | succ count ih =>
    intro s s' hs
    have hs : s.tokens.length ≤ count := Nat.le_of_lt_succ hs
    refine ⟨cut_optional ih hs, fun htype => ?_⟩
    simp only [typeBody, bind_eq, gives_bind] at htype
    obtain ⟨_, s₁, hfirst, htail⟩ := htype
    have hle := hfirst.length_le
    exact .phrase ((cut_intersection ih hs hfirst).andThen (cut_unionTail ih (by omega) htail))

/-- What is read as a type is derived as a type. -/
theorem cut_typeBody {u : Unit} (h : typeBody.Gives s u s') :
    Cut (.phrase .type) s.tokens s'.tokens := (typesSound _ s s' (Nat.lt_succ_self _)).2 h

/-- What is read as a type is derived as one. -/
theorem cut_type {text : String} (h : type.Gives s text s') :
    Cut (.phrase .type) s.tokens s'.tokens := by
  obtain ⟨t, -, hbody, -⟩ := gives_spanned.1 h
  exact cut_typeBody hbody

/-! ### Signatures -/

/-- What is read as the signature of a block is derived as one. -/
theorem cut_blockSignature {text : String} (h : blockSignature.Gives s text s') :
    Cut (.phrase .blockSignature) s.tokens s'.tokens := by
  obtain ⟨t, -, hbody, -⟩ := gives_spanned.1 h
  simp only [bind_eq, gives_bind] at hbody
  obtain ⟨_, s₁, hmark, _, s₂, hparameters, hresult⟩ := hbody
  obtain ⟨mid, hparameters, hself⟩ :=
    (cut_parametersAndSelf (typesSound _) (Nat.le_refl _) hparameters).exists_of_andThen
  exact .phrase ((cut_maybe_of_accept hmark).andThen (hparameters.andThen
    (hself.andThen (cut_result (typesSound _) (Nat.le_refl _) hresult))))

/-- `typeAfter` reads a bound or a default behind its mark, if it is there. -/
theorem cut_typeAfter {mark : String} {r : Option String} (h : (typeAfter mark).Gives s r s') :
    Cut (.maybe (.mark mark >> .phrase .type)) s.tokens s'.tokens := by
  simp only [typeAfter, bind_eq, pure_eq, gives_bind] at h
  obtain ⟨b, s₁, hb, h⟩ := h
  rcases cut_of_accept hb with ⟨rfl, hmark⟩ | ⟨rfl, rfl⟩
  · rw [if_pos rfl, gives_bind] at h
    obtain ⟨text, s₂, htype, h⟩ := h
    obtain ⟨-, rfl⟩ := gives_done.1 h
    exact .some (hmark.andThen (cut_type htype))
  · rw [if_neg (by simp), gives_done] at h
    obtain ⟨-, rfl⟩ := h
    exact .none

/-- Type parameters without variance. -/
theorem cut_typeParameter {p : TypeParameter} (h : (typeParameter false).Gives s p s') :
    Cut (.phrase .typeParameter) s.tokens s'.tokens := by
  simp only [typeParameter, bind_eq, pure_eq, gives_bind, gives_done, gives_expectAny,
    Bool.false_eq_true, if_false, List.mem_singleton] at h
  obtain ⟨_, s₁, hunchecked, _, _, ⟨-, rfl⟩, t, _, ⟨ht, hkind, rfl⟩, _, s₂, hbound, _, s₃, hdefault,
    -, rfl⟩ := h
  have hname : Cut (.ofKind .upperName) s₁.tokens s₁.rest.tokens :=
    cut_rest ht (by simp [hkind]) (by simpa using hkind)
  exact .phrase ((cut_maybe_of_acceptKind (by simp) hunchecked).andThen
    (hname.andThen ((cut_typeAfter hbound).andThen (cut_typeAfter hdefault))))

theorem cut_typeParameterTail {ps : List TypeParameter}
    (h : (call (.typeParameterTail false)).Gives s ps s') :
    Cut (.many (.mark "," >> .phrase .typeParameter) >> .maybe (.mark ","))
      s.tokens s'.tokens := by
  induction hlen : s.tokens.length using Nat.strongRecOn generalizing s ps with
  | ind n loop =>
    subst hlen
    rw [gives_call] at h
    simp only [Phrase.script, nextIsMark, bind_eq, pure_eq, gives_bind] at h
    obtain ⟨b, s₁, hb, h⟩ := h
    rcases cut_of_accept hb with ⟨rfl, hcomma⟩ | ⟨rfl, rfl⟩
    · have hlt := hcomma.length_lt_of_mark
      simp only [if_pos, gives_bind, gives_nextIs] at h
      obtain ⟨closes, _, ⟨-, rfl⟩, h⟩ := h
      cases closes with
      | true =>
        rw [if_pos rfl, gives_done] at h
        obtain ⟨-, rfl⟩ := h
        exact Cut.stop.andThen (.some hcomma)
      | false =>
        rw [if_neg (by simp)] at h
        simp only [gives_bind] at h
        obtain ⟨p, s₂, hfirst, ps, s₃, htail, h⟩ := h
        obtain ⟨-, rfl⟩ := gives_done.1 h
        have hle := hfirst.length_le
        obtain ⟨mid, hmany, hend⟩ := (loop _ (by omega) htail rfl).exists_of_andThen
        exact ((hcomma.andThen (cut_typeParameter hfirst)).more hmany).andThen hend
    · rw [if_neg (by simp), gives_done] at h
      obtain ⟨-, rfl⟩ := h
      exact Cut.stop.andThen .none

/-- What `typeParameters` reads is derived as such. -/
theorem cut_typeParameters {ps : List TypeParameter} (h : (typeParameters false).Gives s ps s') :
    Cut (.phrase .typeParameters) s.tokens s'.tokens := by
  simp only [typeParameters, bind_eq, pure_eq, gives_bind] at h
  obtain ⟨_, s₁, hopen, p, s₂, hfirst, ps, s₃, htail, _, s₄, hclose, h⟩ := h
  obtain ⟨-, rfl⟩ := gives_done.1 h
  obtain ⟨mid, hmany, hend⟩ := (cut_typeParameterTail htail).exists_of_andThen
  exact .phrase ((cut_of_expect hopen).andThen ((cut_typeParameter hfirst).andThen
    (hmany.andThen (hend.andThen (cut_of_expect hclose)))))

/-- Brackets that stand first are those of type parameters; without them a type of `self` stands
only behind parameters. -/
theorem cut_methodTypeHead {u v : Unit} {s₁ : Stream} (htypes : (typeParameters? false).Gives s u s₁)
    (hparameters : parametersAndSelf.Gives s₁ v s') :
    Cut ((.phrase .typeParameters >> .maybe (.phrase .parameters) >>
        .maybe (.phrase .selfBinding)) <|>
      .maybe (.phrase .parameters >> .maybe (.phrase .selfBinding))) s.tokens s'.tokens := by
  have hhead := cut_parametersAndSelf (typesSound _) (Nat.le_refl _) hparameters
  simp only [typeParameters?, nextIsMark, bind_eq, pure_eq, gives_bind, gives_nextIs] at htypes
  obtain ⟨_, _, ⟨⟨t, ht, rfl⟩, rfl⟩, htypes⟩ := htypes
  split at htypes
  · rw [gives_bind] at htypes
    obtain ⟨ps, s₂, htypes, h⟩ := htypes
    obtain ⟨-, rfl⟩ := gives_done.1 h
    exact .left ((cut_typeParameters htypes).andThen hhead)
  · rename_i hkind
    obtain ⟨-, rfl⟩ := gives_done.1 htypes
    obtain ⟨mid, hparameters, hself⟩ := hhead.exists_of_andThen
    refine .right ?_
    rcases hparameters.cases_of_maybe with rfl | hparameters
    · rcases hself.cases_of_maybe with hnone | ⟨us, htokens, hself⟩
      · rw [hnone]
        exact .none
      · -- A type of `self` would start with the bracket that does not stand here.
        obtain ⟨us, vs, rfl, hopen, -⟩ := derives_andThen.1 (derives_phrase.1 hself)
        obtain ⟨t', rfl, hmark⟩ := derives_mark.1 hopen
        have htoken : t' = t := by simpa [Stream.tokenAt, htokens] using ht
        exact absurd (by simpa [htoken] using hmark) hkind
    · exact .some (hparameters.andThen hself)

/-- What is read as a method type is derived as one. -/
theorem cut_methodType {text : String} (h : methodType.Gives s text s') :
    Cut (.phrase .methodType) s.tokens s'.tokens := by
  obtain ⟨t, -, hbody, -⟩ := gives_spanned.1 h
  simp only [methodTypeBody, bind_eq, gives_bind] at hbody
  obtain ⟨_, s₁, htypes, _, s₂, hparameters, _, s₃, hblock, hresult⟩ := hbody
  exact .phrase ((cut_methodTypeHead htypes hparameters).andThen
    ((cut_block (typesSound _) (Nat.le_refl _) hblock).andThen
      (cut_result (typesSound _) (Nat.le_refl _) hresult)))

end TypeNotes.Signature
