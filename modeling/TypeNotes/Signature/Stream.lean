import TypeNotes.Signature.Cursor

/-!
# Streams: all tokens at once

A `Stream` holds every token of a signature from the start, and what comes after the last one: the
end of input, or the error at which reading stopped. It supplies tokens to scripts as a cursor
does, with nothing to remember but how far it has come.
-/

namespace TypeNotes.Signature

/-- Tokens none of which is the end of input, and what ends them: the end of input, or an error. -/
structure TokensThenEnd (tokens : List Token) (ending : Except Error Token) : Prop where
  isEnd_of_mem : ∀ t ∈ tokens, t.isEnd = false
  isEnd_ending : ∀ t, ending = .ok t → t.isEnd = true

theorem TokensThenEnd.tail {tokens : List Token} {ending : Except Error Token}
    (h : TokensThenEnd tokens ending) : TokensThenEnd tokens.tail ending :=
  ⟨fun t ht => h.isEnd_of_mem t (List.mem_of_mem_tail ht), h.isEnd_ending⟩

/-- The tokens of a byte string that is `offset` bytes into the signature, and what ends them. -/
def tokensFrom (offset : Nat) (s : List UInt8) : List Token × Except Error Token :=
  match _hread : Token.read offset s with
  | .error e => ([], .error e)
  | .ok (t, rest) =>
    if _hend : t.isEnd then ([], .ok t)
    else
      let (tokens, ending) := tokensFrom t.stop rest
      (t :: tokens, ending)
termination_by s.length
decreasing_by exact Token.length_rest_lt_of_read _hread (by simpa using _hend)

/-- Reading stops at the end of input and nowhere before. -/
theorem tokensThenEnd_tokensFrom (offset : Nat) (s : List UInt8) :
    TokensThenEnd (tokensFrom offset s).1 (tokensFrom offset s).2 := by
  fun_induction tokensFrom offset s with
  | case1 => exact ⟨by simp, by simp⟩
  | case2 offset s t rest hread hend => exact ⟨by simp, by simp [hend]⟩
  | case3 offset s t rest hread hend tokens ending heq ih =>
    rw [heq] at ih
    refine ⟨fun u hu => ?_, ih.isEnd_ending⟩
    rcases List.mem_cons.1 hu with rfl | hu
    · simpa using hend
    · exact ih.isEnd_of_mem u hu

/-- The tokens of a signature, and what ends them. -/
def tokens (data : List UInt8) : List Token × Except Error Token := tokensFrom 0 data

/-- A place in the tokens of a signature. -/
@[ext]
structure Stream where
  data : List UInt8
  /-- The tokens not taken yet, without the end of input. -/
  tokens : List Token
  /-- What follows the last token. -/
  ending : Except Error Token
  /-- Where the last token taken ended. -/
  lastEnd : Nat
  thenEnd : TokensThenEnd tokens ending

namespace Stream

/-- All tokens of a signature. -/
def ofBytes (data : List UInt8) : Stream :=
  ⟨data, (Signature.tokens data).1, (Signature.tokens data).2, 0, tokensThenEnd_tokensFrom 0 data⟩

/-- The token `ahead` places after the next, or what ends the stream. -/
def tokenAt (s : Stream) (ahead : Nat) : Except Error Token :=
  match s.tokens[ahead]? with
  | some t => .ok t
  | none => s.ending

/-- The stream after its next token; what ends a stream stays in place. -/
def rest (s : Stream) : Stream where
  data := s.data
  tokens := s.tokens.tail
  ending := s.ending
  lastEnd := (s.tokens.head?.map Token.stop).getD s.lastEnd
  thenEnd := s.thenEnd.tail

theorem rest_of_nil {s : Stream} (h : s.tokens = []) : s.rest = s := by
  ext1 <;> simp [rest, h]

/-- Looks at the token `ahead` places after the next. -/
def peek (ahead : Nat) (s : Stream) : Except Error Token × Stream := (s.tokenAt ahead, s)

/-- Takes the next token. -/
def advance (s : Stream) : Except Error Token × Stream := (s.tokenAt 0, s.rest)

/-- The text from a place to the end of the last token taken. -/
def textSince (start : Nat) (s : Stream) : String :=
  Utf8.text ((s.data.take s.lastEnd).drop start)

instance : Supply Stream where
  peek := peek
  advance := advance
  lastEnd := lastEnd
  textSince := textSince

end Stream

end TypeNotes.Signature
