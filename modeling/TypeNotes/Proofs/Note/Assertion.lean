import Mathlib.Data.List.TakeWhile
import TypeNotes.Proofs.Signature.Arrow
import TypeNotes.Proofs.Signature.Blame
import TypeNotes.Proofs.Signature.Soundness

/-!
# Assertions are unambiguous

An assertion is read as a method type, or else as a type. No text can be read as both
(`not_readSignature_both`), so it does not matter which of the two is tried first.

**The same tokens.** Both attempts have to come to the end of the text or to a remark after two
dashes. There is no dash among the tokens that either of them takes, so they take the same tokens.
The arrows among these tokens tell a method type from a type.
-/

namespace TypeNotes

open Signature Script

variable {α : Type}

/-! ### What may follow a signature -/

/-- The token is the first of two dashes. -/
def Signature.Token.OpensRemark (data : List UInt8) (t : Token) : Prop :=
  t.kind = .mark "-" ∧ (data.drop t.start).take 2 = [byte '-', byte '-']

theorem acceptTrailing_eq_ok_iff {lenient : Bool} {c : Cursor} {u : Unit} :
    acceptTrailing lenient c = .ok u ↔ ∃ t, (Cursor.peek 0 c).1 = .ok t ∧
      (t.isEnd = true ∨ lenient = true ∨ t.OpensRemark c.data) := by
  unfold acceptTrailing Token.OpensRemark
  cases (Cursor.peek 0 c).1 with
  | error e => simp
  | ok t =>
    simp only [Except.ok.injEq, exists_eq_left']
    by_cases hend : (t.isEnd || lenient) = true
    · rw [if_pos hend, ← or_assoc]
      simpa using Or.inl (Bool.or_eq_true_iff.1 hend)
    · rw [if_neg hend]
      simp_all

/-- `readSignature` reads a signature if its script gives an answer in front of the end of the text
or of a remark, or of any token if the reading is lenient. -/
theorem readSignature_eq_ok_iff {x : Script α} {lenient : Bool} {text : List Char} {a : α} :
    readSignature x lenient text = .ok a ↔ ∃ s', x.Gives (Stream.ofBytes (Utf8.encode text)) a s' ∧
      ∃ t, s'.tokenAt 0 = .ok t ∧
        (t.isEnd = true ∨ lenient = true ∨ t.OpensRemark (Utf8.encode text)) := by
  have hreading := Cursor.reading_ofBytes x (Utf8.encode text)
  have hpeek := Cursor.peek_zero_of_run x (Utf8.encode text)
  obtain ⟨taken, htaken⟩ := Phrase.steady_reading.forward.run x (Stream.ofBytes (Utf8.encode text))
  rw [show x.run Phrase.reading (Stream.ofBytes (Utf8.encode text)) = _ from hreading] at htaken
  have hdata : ((Cursor.ofBytes (Utf8.encode text)).run x).2.data = Utf8.encode text := htaken.data
  unfold readSignature Cursor.ofText Script.Gives
  rw [hreading]
  generalize (Cursor.ofBytes (Utf8.encode text)).run x = outcome at hpeek hdata
  obtain ⟨_ | b, c⟩ := outcome
  · simp
  · simp only at hpeek hdata
    rw [← hdata]
    constructor
    · intro h
      cases htrailing : acceptTrailing lenient c with
      | error e => simp [htrailing, Except.map] at h
      | ok u =>
        obtain rfl : b = a := by simpa [htrailing, Except.map] using h
        exact ⟨_, rfl, hpeek ▸ acceptTrailing_eq_ok_iff.1 htrailing⟩
    · rintro ⟨_, ⟨⟩, h⟩
      have htrailing : acceptTrailing lenient c = .ok () := acceptTrailing_eq_ok_iff.2 (hpeek ▸ h)
      simp [htrailing, Except.map]

/-! ### No text is both -/

/-- What `readSignature` reads strictly takes all tokens up to the first foreign one. -/
theorem takeWhile_of_readSignature {x : Script α} (hx : ∀ w, x.Picks w fun _ _ => True)
    {text : List Char} {a : α} (h : readSignature x false text = .ok a) :
    ∃ s', x.Gives (Stream.ofBytes (Utf8.encode text)) a s' ∧
      (Stream.ofBytes (Utf8.encode text)).tokens =
        (Stream.ofBytes (Utf8.encode text)).tokens.takeWhile (!·.isForeign) ++ s'.tokens := by
  obtain ⟨s', hgives, t, ht, hfollows⟩ := readSignature_eq_ok_iff.1 h
  obtain ⟨taken, htaken, hnative⟩ := Script.Picks.isForeign_of_gives hx hgives
  refine ⟨s', hgives, ?_⟩
  rw [htaken.tokens, List.append_cancel_right_eq]
  have hrest : s'.tokens.takeWhile (!·.isForeign) = [] := by
    rcases hfollows with hend | hlenient | hremark
    · rw [Stream.tokens_of_isEnd ht hend, List.takeWhile_nil]
    · cases hlenient
    · rw [Stream.tokens_of_kind ht (by simp [hremark.1]), List.takeWhile_cons_of_neg]
      simp [Token.isForeign, hremark.1]
  rw [List.takeWhile_append_of_pos (by simpa using hnative), hrest, List.append_nil]

/-- `readSignature` reads no text both as a method type and as a type. -/
theorem not_readSignature_both {text : List Char} {a b : String}
    (hmethod : readSignature Grammar.methodType false text = .ok a)
    (htype : readSignature Grammar.type false text = .ok b) : False := by
  obtain ⟨s₁, hgives₁, htokens₁⟩ := takeWhile_of_readSignature (fun _ => picks_methodType) hmethod
  obtain ⟨s₂, hgives₂, htokens₂⟩ := takeWhile_of_readSignature (fun _ => picks_type) htype
  obtain ⟨us, hus, hderives₁⟩ := cut_methodType hgives₁
  obtain ⟨vs, hvs, hderives₂⟩ := cut_type hgives₂
  have husvs : us = vs := by
    rw [hus, List.append_cancel_right_eq] at htokens₁
    rw [hvs, List.append_cancel_right_eq] at htokens₂
    rw [htokens₁, htokens₂, ← hus, ← hvs]
  subst husvs
  refine not_derives_type_and_methodType (fun t ht => ?_) hderives₂ hderives₁
  have hmem : t ∈ (Stream.ofBytes (Utf8.encode text)).tokens := hus ▸ List.mem_append_left _ ht
  exact @spelled_of_mem_tokensFrom 0 (Utf8.encode text) t hmem

/-! ### The order of the attempts -/

/-- A way to read an assertion: a script, and what its answer says. -/
structure Attempt where
  script : Script String
  content : String → Content

/-- As the type of a method. -/
def Attempt.method : Attempt := ⟨Grammar.methodType, .methodAssertion⟩

/-- As a type. -/
def Attempt.type : Attempt := ⟨Grammar.type, .typeAssertion⟩

/-- Reads an assertion by two attempts, one after the other. If both fail, the error that lies
further on is kept, and that of the first if they lie at the same place. -/
def Entry.readInOrder (e : Entry) (first second : Attempt) : Note :=
  let signature := Text.trim e.text
  match readSignature first.script false e.text with
  | .ok a => e.note signature none (first.content a)
  | .error firstError =>
    match readSignature second.script false e.text with
    | .ok b => e.note signature none (second.content b)
    | .error secondError =>
      let error :=
        if (e.relocate secondError).offset ≤ (e.relocate firstError).offset then firstError
        else secondError
      e.note signature (some error) .unreadable

/-- `Entry.readAssertion` tries method types first. -/
theorem Entry.readAssertion_eq (e : Entry) : e.readAssertion = e.readInOrder .method .type := rfl

/-- **Assertions are unambiguous.** No text is read both as a method type and as a type, each up to
the end or a remark. So whenever one of the two attempts succeeds, an assertion is read alike in
both orders of them. -/
theorem readAssertion_unambiguous :
    (∀ text : List Char, ¬ ((∃ a, readSignature Grammar.methodType false text = .ok a) ∧
      ∃ b, readSignature Grammar.type false text = .ok b)) ∧
    ∀ e : Entry, (∃ a, readSignature Grammar.methodType false e.text = .ok a) ∨
        (∃ b, readSignature Grammar.type false e.text = .ok b) →
      e.readInOrder .type .method = e.readAssertion := by
  refine ⟨fun text ⟨⟨a, ha⟩, b, hb⟩ => not_readSignature_both ha hb, fun e h => ?_⟩
  rw [Entry.readAssertion_eq]
  simp only [Entry.readInOrder, Attempt.method, Attempt.type]
  cases hmethod : readSignature Grammar.methodType false e.text with
  | ok a =>
    cases htype : readSignature Grammar.type false e.text with
    | ok b => exact (not_readSignature_both hmethod htype).elim
    | error e => rfl
  | error methodError =>
    cases htype : readSignature Grammar.type false e.text with
    | ok b => rfl
    | error typeError => simp [hmethod, htype] at h

/-- A procedure type has an arrow as a method type has. With a remark behind it, it is read as a
type in both orders. -/
theorem readAssertion_procedure :
    let e : Entry := ⟨.assertion, ⟨⟨"#: ^(A) -> B -- b".toList, 0, 17, 0, 17, 1, 0, false⟩,
      " ^(A) -> B -- b".toList, 2⟩, []⟩
    e.readInOrder .type .method = e.readAssertion ∧
      e.readAssertion.content = .typeAssertion "^(A) -> B" := by
  refine ⟨readAssertion_unambiguous.2 _ (.inr ⟨"^(A) -> B", ?_⟩), ?_⟩
  · decide +kernel
  · decide +kernel

end TypeNotes
