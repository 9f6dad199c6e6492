import TypeNotes.Proofs.Signature.Completeness

/-!
# Exactly the grammar is read

A byte string is read as a type, a block signature or a method type if and only if it is made of
tokens to its end and the rule of that nonterminal derives them. The first half is in `Soundness`,
the second in `Completeness`; here they meet, over the tokens that a cursor reads on demand.
-/

namespace TypeNotes.Signature

open Script Grammar

/-- Reads something that has to reach to the end of input. -/
def Script.whole {α : Type} (x : Script α) : Script α := do
  let a ← x
  expectEnd
  return a

/-- The byte string is made of these tokens and nothing else but gaps. -/
def Lexes (data : List UInt8) (ts : List Token) : Prop := ∃ t, tokens data = (ts, .ok t)

/-- `Script.answer` on a signature, told from the stream of its tokens. -/
theorem Script.answer_eq_ok_iff {α : Type} {x : Script α} {data : List UInt8} {a : α} :
    x.answer data = .ok a ↔ ∃ s', x.Gives (Stream.ofBytes data) a s' := by
  have h := Cursor.reading_ofBytes x data
  constructor
  · intro hx
    exact ⟨_, h.trans (by rw [← hx]; rfl)⟩
  · rintro ⟨s', hs'⟩
    exact (congrArg Prod.fst (h.symm.trans hs') :)

/-- Reading to the end of input is reading something and finding no token after it. -/
theorem Script.gives_whole {α : Type} {x : Script α} {s s' : Stream} {a : α} :
    x.whole.Gives s a s' ↔ x.Gives s a s' ∧ s'.tokens = [] ∧ s'.Ended := by
  simp only [whole, bind_eq, pure_eq, gives_bind, gives_done, gives_expectEnd]
  constructor
  · rintro ⟨_, s₁, hx, _, _, ⟨⟨t, ht, hend⟩, rfl⟩, rfl, rfl⟩
    have hnil := Stream.tokens_of_isEnd ht hend
    exact ⟨hx, hnil, t, by simpa [Stream.tokenAt, hnil] using ht⟩
  · rintro ⟨hx, hnil, t, ht⟩
    have hend := s'.thenEnd.isEnd_ending t ht
    exact ⟨a, s', hx, (), s', ⟨⟨t, by simpa [Stream.tokenAt, hnil] using ht, hend⟩, rfl⟩, rfl, rfl⟩

/-- A script that reads what a rule derives, and nothing else, accepts exactly the byte strings of
such tokens. -/
theorem exists_answer_whole_iff {α : Type} {x : Script α} {n : Nonterminal}
    (sound : ∀ {s s' : Stream} {a : α}, x.Gives s a s' → Cut (.phrase n) s.tokens s'.tokens)
    (complete : ∀ {ts : List Token}, Cut (.phrase n) ts [] → x.ReadsTo ts [])
    (data : List UInt8) :
    (∃ a, x.whole.answer data = .ok a) ↔ ∃ ts, Lexes data ts ∧ Derives (.phrase n) ts := by
  simp only [answer_eq_ok_iff, gives_whole]
  constructor
  · rintro ⟨a, s', hx, hnil, t, ht⟩
    obtain ⟨taken, htaken⟩ := hx.takes
    obtain ⟨us, hus, hderives⟩ := sound hx
    rw [hnil, List.append_nil] at hus
    exact ⟨us, ⟨t, Prod.ext hus (htaken.ending.symm.trans ht)⟩, hderives⟩
  · rintro ⟨ts, ⟨t, hdata⟩, hderives⟩
    have hended : (Stream.ofBytes data).Ended := ⟨t, congrArg Prod.snd hdata⟩
    have htokens : (Stream.ofBytes data).tokens = ts := congrArg Prod.fst hdata
    obtain ⟨a, s', hx, hnil⟩ := complete ⟨ts, by simp, hderives⟩ _ hended htokens
    obtain ⟨taken, htaken⟩ := hx.takes
    exact ⟨a, s', hx, hnil, t, htaken.ending.trans (congrArg Prod.snd hdata)⟩

/-- Types, block signatures and method types are accepted exactly as their rules derive them, and
nothing is accepted that is not made of tokens. -/
theorem accepts_iff_derives (data : List UInt8) :
    ((∃ text, type.whole.answer data = .ok text) ↔
      ∃ ts, Lexes data ts ∧ Derives (.phrase .type) ts) ∧
    ((∃ text, blockSignature.whole.answer data = .ok text) ↔
      ∃ ts, Lexes data ts ∧ Derives (.phrase .blockSignature) ts) ∧
    ((∃ text, methodType.whole.answer data = .ok text) ↔
      ∃ ts, Lexes data ts ∧ Derives (.phrase .methodType) ts) := by
  refine ⟨?_, ?_, ?_⟩
  · exact exists_answer_whole_iff cut_type (fun h => readsTo_type h (free_nil _)) data
  · exact exists_answer_whole_iff cut_blockSignature readsTo_blockSignature data
  · exact exists_answer_whole_iff cut_methodType readsTo_methodType data

end TypeNotes.Signature
