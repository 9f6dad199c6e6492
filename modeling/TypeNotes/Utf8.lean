/-!
# UTF-8

Text is encoded byte by byte, and bytes are decoded one sequence at a time. `Utf8.readOne` reads
the sequence at the front of a non-empty byte string: a character, or a fault together with the
*maximal subpart* that is at fault, which is the longest start of a well-formed sequence found
there (at least one byte). Two decoders follow from it: `Utf8.decode?` stops at the first fault
and says where it is, `Utf8.decodeLossy` puts one replacement character for each faulty subpart.
-/

namespace TypeNotes.Utf8

/-- The bytes of a text. -/
def encode (text : List Char) : List UInt8 :=
  text.flatMap String.utf8EncodeChar

@[simp]
theorem encode_nil : encode [] = [] := rfl

@[simp]
theorem encode_cons (c : Char) (text : List Char) :
    encode (c :: text) = String.utf8EncodeChar c ++ encode text := rfl

@[simp]
theorem encode_append (a b : List Char) : encode (a ++ b) = encode a ++ encode b := by
  simp [encode]

/-- The number of bytes of a text. -/
def size (text : List Char) : Nat :=
  text.foldr (fun c size => c.utf8Size + size) 0

@[simp]
theorem size_nil : size [] = 0 := rfl

@[simp]
theorem size_cons (c : Char) (text : List Char) : size (c :: text) = c.utf8Size + size text := rfl

@[simp]
theorem size_append (a b : List Char) : size (a ++ b) = size a + size b := by
  induction a with
  | nil => simp
  | cons c a ih => simp [ih, Nat.add_assoc]

/-- The size of a text is the number of its bytes. -/
@[simp]
theorem length_encode (text : List Char) : (encode text).length = size text := by
  induction text with
  | nil => rfl
  | cons c text ih => simp [ih]

/-! ### Reading one sequence -/

/-- Why a byte sequence is not a character. -/
inductive Fault
  /-- The first byte starts no sequence. -/
  | invalidStart
  /-- A byte in the middle cannot stand there. -/
  | invalidContinuation
  /-- The bytes end inside a sequence. -/
  | unexpectedEnd
  deriving DecidableEq, Repr

/-- The words for a fault. -/
def Fault.reason : Fault → String
  | .invalidStart => "invalid start byte"
  | .invalidContinuation => "invalid continuation byte"
  | .unexpectedEnd => "unexpected end of data"

/-- What a first byte announces: its share of the code point, and the closed range in which each
following byte must lie. -/
structure Lead where
  bits : Nat
  following : List (UInt8 × UInt8)

/-- The range of an unrestricted continuation byte. -/
def anyContinuation : UInt8 × UInt8 := (0x80, 0xBF)

/-- Reads a first byte. The ranges of the second byte leave out the overlong forms, the
surrogates, and everything above the last code point. -/
def Lead.ofByte? (b : UInt8) : Option Lead :=
  let c := anyContinuation
  if b < 0x80 then some ⟨b.toNat, []⟩
  else if b < 0xC2 then none
  else if b < 0xE0 then some ⟨b.toNat - 0xC0, [c]⟩
  else if b == 0xE0 then some ⟨0, [(0xA0, 0xBF), c]⟩
  else if b == 0xED then some ⟨0xD, [(0x80, 0x9F), c]⟩
  else if b < 0xF0 then some ⟨b.toNat - 0xE0, [c, c]⟩
  else if b == 0xF0 then some ⟨0, [(0x90, 0xBF), c, c]⟩
  else if b < 0xF4 then some ⟨b.toNat - 0xF0, [c, c, c]⟩
  else if b == 0xF4 then some ⟨4, [(0x80, 0x8F), c, c]⟩
  else none

/-- One sequence read from the front of a byte string: the character or the fault, how many bytes
it took, and what follows. -/
structure Reading where
  item : Except Fault Char
  length : Nat
  rest : List UInt8

/-- Reads the following bytes of a sequence, `length` bytes of which are read already. -/
def readFollowing : List (UInt8 × UInt8) → Nat → Nat → List UInt8 → Reading
  | [], code, length, rest => ⟨.ok (Char.ofNat code), length, rest⟩
  | _ :: _, _, length, [] => ⟨.error .unexpectedEnd, length, []⟩
  | (low, high) :: following, code, length, b :: rest =>
    if low ≤ b && b ≤ high then
      readFollowing following (code * 64 + (b.toNat - 0x80)) (length + 1) rest
    else ⟨.error .invalidContinuation, length, b :: rest⟩

/-- Reads the sequence that the byte `b` starts. -/
def readOne (b : UInt8) (rest : List UInt8) : Reading :=
  match Lead.ofByte? b with
  | none => ⟨.error .invalidStart, 1, rest⟩
  | some lead => readFollowing lead.following lead.bits 1 rest

theorem rest_readFollowing_length (following : List (UInt8 × UInt8)) (code length : Nat)
    (rest : List UInt8) :
    (readFollowing following code length rest).rest.length ≤ rest.length := by
  fun_induction readFollowing following code length rest <;> grind

/-- `readOne` takes the first byte of a sequence at least. -/
theorem rest_readOne_length (b : UInt8) (rest : List UInt8) :
    (readOne b rest).rest.length ≤ rest.length := by
  unfold readOne
  split
  · simp
  · exact rest_readFollowing_length ..

/-! ### Decoding -/

/-- Decodes a byte string, `offset` bytes into the data; the answer to a fault is its reason and
the place where the faulty sequence starts. -/
def decodeFrom (offset : Nat) : List UInt8 → Except (Fault × Nat) (List Char)
  | [] => .ok []
  | b :: rest =>
    match (readOne b rest).item with
    | .error fault => .error (fault, offset)
    | .ok c =>
      (decodeFrom (offset + (readOne b rest).length) (readOne b rest).rest).map (c :: ·)
termination_by bytes => bytes.length
decreasing_by exact Nat.lt_succ_of_le (rest_readOne_length b rest)

/-- Decodes a byte string that must be well-formed throughout. -/
def decode? (bytes : List UInt8) : Except (Fault × Nat) (List Char) :=
  decodeFrom 0 bytes

/-- The character that stands for bytes that are no character. -/
def replacement : Char := '\uFFFD'

/-- Decodes any byte string, with one replacement character for each faulty subpart. -/
def decodeLossy : List UInt8 → List Char
  | [] => []
  | b :: rest =>
    let c := match (readOne b rest).item with
      | .error _ => replacement
      | .ok c => c
    c :: decodeLossy (readOne b rest).rest
termination_by bytes => bytes.length
decreasing_by exact Nat.lt_succ_of_le (rest_readOne_length b rest)

/-- The text of a byte string, faulty subparts replaced. -/
def text (bytes : List UInt8) : String :=
  String.ofList (decodeLossy bytes)

end TypeNotes.Utf8
