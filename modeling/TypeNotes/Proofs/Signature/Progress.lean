import TypeNotes.Proofs.Signature.Evaluation
import TypeNotes.Proofs.Signature.Partition
import TypeNotes.Proofs.Signature.Sequence

/-!
# Reading gets on

Whatever part of a signature a cursor is asked for, in whatever place, it comes to an answer or to an
error, and with an answer it gets on (`Cursor.parse_terminates`).

**Parts.** Every part but one is made of at least one token (`Part.forces_script`). Since each token of
a signature ends behind those before it (`Stream.Takes.lastEnd_lt`), the end of the last token taken
moves on with every such answer.

**Declarations** may be none at all. They are read to the end of input, and each takes a token
(`Declares.count_le`).
-/

namespace TypeNotes.Signature

open Script Grammar

/-! ### Parts take tokens -/

theorem forces_spanned {body : Script Unit} (h : body.Forces 1) : (spanned body).Forces 1 :=
  forces_last fun _ => forces_bind (j := 0) h fun _ => forces_zero _

theorem forces_useClause : useClause.Forces 1 :=
  forces_spanned (Paced.forces (by simp [call, Phrase.rank, Phrase.takesToken]))

theorem forces_typeParameter (withVariance : Bool) : (typeParameter withVariance).Forces 1 :=
  Paced.forces (by cases withVariance <;> simp [typeParameter, variance?, paced_ite])

/-- A part other than declarations is made of at least one token (`Script.Forces`). -/
theorem Part.forces_script {part : Part} (h : part ≠ .declarations) : part.script.Forces 1 := by
  cases part with
  | type => exact forces_spanned forces_typeBody
  | typeName | className => exact forces_spanned (forces_qualified _)
  | classReference | moduleHead | classHead => exact forces_spanned forces_of_qualified
  | typeList | parameters | typeParameters =>
    exact forces_bind (j := 0) (forces_expect _) fun _ => forces_zero _
  | blockSignature =>
    exact forces_spanned (forces_last fun _ => forces_last fun _ => forces_result)
  | methodType => exact forces_spanned forces_methodTypeBody
  | methodTypes => exact Paced.forces ⟨by decide, .inl rfl⟩
  | typeParameter withVariance => exact forces_typeParameter withVariance
  | selfTypes =>
    exact forces_bind (j := 0) (forces_spanned forces_of_qualified) fun _ => forces_zero _
  | useClauses => exact forces_bind (j := 0) forces_useClause fun _ => forces_zero _
  | declarations => exact absurd rfl h

theorem Script.Forces.exists_taken {α : Type} {x : Script α} (hx : x.Forces 1) {s s' : Stream}
    {a : α} (h : x.Gives s a s') : ∃ taken, taken ≠ [] ∧ s.Takes taken s' := by
  obtain ⟨taken, htaken⟩ := h.takes
  have hforces := hx s a s' h
  have hlen := htaken.length
  exact ⟨taken, List.length_pos_iff.1 (by omega), htaken⟩

/-! ### Declarations -/

/-- Behind the last declaration there are no tokens. -/
theorem Declares.tokens_eq_nil {count : Nat} {s t : Stream} (h : Declares count s t) :
    t.tokens = [] := by
  obtain ⟨u, hu, hend⟩ := h.exists_end
  exact Stream.tokens_of_isEnd hu hend

/-- There are no more declarations than tokens. -/
theorem Declares.count_le {count : Nat} {s t : Stream} (h : Declares count s t) :
    count ≤ s.tokens.length := by
  induction h with
  | stop => exact Nat.zero_le _
  | tag hu htag _ ih =>
    have hlt := Stream.length_rest_lt hu (by simp [Token.isEnd, htag])
    omega
  | item hu _ _ hmember _ ih =>
    have hlt := (paced_member.mono (by decide)).length_lt (Stream.knows_some hu) hmember
    omega

/-! ### Ends of tokens -/

/-- Among the tokens of a signature, each one ends behind those before it (`lastEnd`). -/
theorem Stream.Takes.lastEnd_lt {data : List UInt8} {s s' : Stream} {before taken : List Token}
    (hbefore : (Stream.ofBytes data).Takes before s) (h : s.Takes taken s') (hne : taken ≠ []) :
    s.lastEnd < s'.lastEnd := by
  have hpartition := partition_tokens data
  have htokens : (Signature.tokens data).1 = before ++ (taken ++ s'.tokens) := by
    rw [← h.tokens]
    exact hbefore.tokens
  have ht : taken.getLast hne ∈ (Signature.tokens data).1 := by
    rw [htokens]
    simp
  have hcovers := (hpartition.covers _ ht).start_lt
  have hordered := hpartition.ordered
  rw [htokens, List.pairwise_append] at hordered
  rw [h.lastEnd, List.getLast?_eq_some_getLast hne, hbefore.lastEnd]
  cases hlast : before.getLast? with
  | none => exact Nat.lt_of_le_of_lt (Nat.zero_le _) hcovers
  | some u =>
    have hu := hordered.2.2 u (List.mem_of_getLast? hlast) (taken.getLast hne) (by simp)
    exact Nat.lt_of_le_of_lt hu hcovers

namespace Standing

variable {data : List UInt8} {c c' : Cursor} {b : Bookmark data}

/-- What a cursor evaluates in a call, the stream that it stands for evaluates as well. -/
theorem evaluates_toStream (h : Standing c b) (call : Call) : call.script.Evaluates c.toStream
    (c.run call.script).1 (c.run call.script).2.toStream :=
  (Cursor.simulation.evaluates ((h.evaluates_iff call).2 rfl) h.endLast).1

/-- An answer to a call is given on the stream that the cursor stands for. -/
theorem gives_of_run (h : Standing c b) (call : Call) {a : call.Answer}
    (hrun : c.run call.script = (.ok a, c')) : call.script.Gives c.toStream a c'.toStream := by
  have hreading := (h.evaluates_toStream call).reading_eq
  rwa [hrun] at hreading

/-- Calls take tokens off the front of the stream (`Takes`). -/
theorem exists_takes_after (h : Standing c b) (calls : List Call) :
    ∃ taken, c.toStream.Takes taken (Call.after Cursor.run calls c).toStream := by
  induction calls generalizing c b with
  | nil => exact ⟨[], .refl _⟩
  | cons call calls ih =>
    obtain ⟨first, hfirst⟩ := (h.evaluates_toStream call).takes
    obtain ⟨taken, htaken⟩ := ih (h.run call.script).2
    exact ⟨_, hfirst.trans htaken⟩

/-- Declarations are read up to the end of input, and there are no more of them than tokens. -/
theorem of_run_declarations (h : Standing c b) {n : Nat}
    (hrun : c.run Grammar.declarations = (.ok n, c')) :
    (∃ t, (c'.peek 0).1 = .ok t ∧ t.isEnd = true) ∧
      c.toStream.Takes c.toStream.tokens c'.toStream ∧ n ≤ c.toStream.tokens.length := by
  have hgives : declarations.Gives c.toStream n c'.toStream :=
    h.gives_of_run (.parse .declarations) hrun
  have hdeclares := gives_declarations_iff.1 hgives
  have hlast : EndLast c'.buffer := by
    have hnext := (h.run (Call.parse .declarations).script).2.endLast
    rwa [show c.run (Call.parse .declarations).script = (.ok n, c') from hrun] at hnext
  obtain ⟨t, ht, hend⟩ := hdeclares.exists_end
  obtain ⟨taken, htaken⟩ := hgives.takes
  have hall : taken = c.toStream.tokens := by
    rw [htaken.tokens, hdeclares.tokens_eq_nil, List.append_nil]
  have hpeek := congrArg Prod.fst (Cursor.agree_peek 0 c' hlast).1
  exact ⟨⟨t, hpeek.symm.trans ht, hend⟩, hall ▸ htaken, hdeclares.count_le⟩

end Standing

/-- **Reading comes to an end.** Whatever calls were made before, every part of a signature that is
asked for is evaluated, without a budget, to just what a run of it gives: one answer or one error.
Each time the evaluation enters a phrase inside of the same phrase, it has taken a token since. An
answer to a part other than declarations leaves the last token taken to end further on; an answer to
declarations leaves nothing but the end of input, and counts no more of them than there were
tokens. -/
theorem Cursor.parse_terminates (data : List UInt8) (earlier : List Call) :
    let c := Call.after Cursor.run earlier (ofBytes data)
    (∀ part : Part, (∀ outcome c', part.script.Evaluates c outcome c' ↔
          (outcome, c') = c.run part.script) ∧
        (∀ p c₁ c₂, part.script.Enters c p c₁ → p.script.Enters c₁ p c₂ →
          ∃ taken, taken ≠ [] ∧ c₁.toStream.Takes taken c₂.toStream) ∧
        ∀ a c', c.run part.script = (.ok a, c') → part ≠ .declarations →
          c.lastEnd < c'.lastEnd) ∧
      ∀ n c', c.run Grammar.declarations = (.ok n, c') →
        (∃ t, (c'.peek 0).1 = .ok t ∧ t.isEnd = true) ∧
          c.toStream.Takes c.toStream.tokens c'.toStream ∧ n ≤ c.toStream.tokens.length := by
  intro c
  have hstart := Standing.start data
  have h : Standing c _ := hstart.after earlier
  obtain ⟨before, hbefore⟩ := hstart.exists_takes_after earlier
  refine ⟨fun part => ⟨fun outcome c' => h.evaluates_iff (.parse part),
    fun p c₁ c₂ => h.exists_taken_of_enters, fun a c' hrun hpart => ?_⟩,
    fun n c' => h.of_run_declarations⟩
  obtain ⟨taken, hne, htaken⟩ :=
    (Part.forces_script hpart).exists_taken (h.gives_of_run (.parse part) hrun)
  exact hbefore.lastEnd_lt htaken hne

/-- A type in parentheses is read by way of an optional type inside of an optional type, and the
parenthesis has been taken in between. -/
theorem Cursor.parse_terminates_parentheses :
    let c := ofBytes (Utf8.encode "(A?)".toList)
    (∃ c', Part.type.script.Evaluates c (.ok "(A?)") c' ∧ c.lastEnd < c'.lastEnd) ∧
      ∃ c₁ c₂, Part.type.script.Enters c .optional c₁ ∧
        Phrase.optional.script.Enters c₁ .optional c₂ ∧
        ∃ taken, taken ≠ [] ∧ c₁.toStream.Takes taken c₂.toStream := by
  intro c
  obtain ⟨hevaluates, henters, hlast⟩ :=
    (Cursor.parse_terminates (Utf8.encode "(A?)".toList) []).1 .type
  have hanswer : (c.run Part.type.script).1 = .ok "(A?)" := by decide +kernel
  have hrun : c.run Part.type.script = (.ok "(A?)", (c.run Part.type.script).2) :=
    Prod.ext hanswer rfl
  have hfirst : (c.peek 0).1 = .ok ⟨.mark "(", "(", 0, 1⟩ := by decide +kernel
  have hagain : ((c.peek 0).2.peek 0).1 = .ok ⟨.mark "(", "(", 0, 1⟩ := by decide +kernel
  have htaken : ((c.peek 0).2.peek 0).2.advance.1 = .ok ⟨.mark "(", "(", 0, 1⟩ := by
    decide +kernel
  have houter : Part.type.script.Enters c .optional (c.peek 0).2 :=
    .peekAt (Prod.ext hfirst rfl) .call
  have hinner : Phrase.optional.script.Enters (c.peek 0).2 .optional
      ((c.peek 0).2.peek 0).2.advance.2 :=
    .peekAt (Prod.ext hagain rfl) (.take (Prod.ext htaken rfl) .call)
  exact ⟨⟨_, (hevaluates _ _).2 hrun.symm, hlast _ _ hrun nofun⟩,
    _, _, houter, hinner, henters _ _ _ houter hinner⟩

end TypeNotes.Signature
