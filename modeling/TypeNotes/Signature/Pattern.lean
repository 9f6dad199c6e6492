import TypeNotes.Signature.Byte

/-!
# Lexical patterns

A `Pattern` describes how a lexeme is spelled. `Pattern.split` cuts the spelling off the front of
a byte string, answering with the lexeme and the rest. Every choice in a pattern is settled by the
bytes at hand: a repetition takes the longest run, an optional part is taken whenever it is there,
and of two alternatives the first that fits is final.
-/

namespace TypeNotes.Signature

/-- A spelling of lexemes. -/
inductive Pattern
  /-- These bytes. -/
  | exactly (bytes : List UInt8)
  /-- One byte of a class. -/
  | one (among : UInt8 → Bool)
  /-- The longest run of bytes of a class. -/
  | many (among : UInt8 → Bool)
  /-- The inside of a quotation and its closing mark. A backslash takes the next byte with it, and
  that byte is not a line end. -/
  | quotation (mark : UInt8)
  /-- Nothing, in front of anything but this byte. -/
  | notBefore (b : UInt8)
  /-- A pattern or nothing. -/
  | optional (p : Pattern)
  /-- One pattern after another. -/
  | andThen (p q : Pattern)
  /-- One pattern or else another. -/
  | orElse (p q : Pattern)

namespace Pattern

instance : AndThen Pattern := ⟨fun p q => andThen p (q ())⟩

instance : OrElse Pattern := ⟨fun p q => orElse p (q ())⟩

/-- The pattern of a fixed ASCII text. -/
def text (s : String) : Pattern := exactly (s.toList.map byte)

/-- One byte out of those of an ASCII text. -/
def oneOf (s : String) : Pattern := one fun b => (s.toList.map byte).contains b

/-- Everything up to and including the closing byte. -/
def upTo (close : Char) : Pattern := many (· != byte close) >> one (· == byte close)

/-- A name whose first byte is of a class. -/
def name (start : UInt8 → Bool) : Pattern := one start >> many isNamePart

/-- Text between quotation marks of one kind, the other, or none. -/
def quoted : Pattern :=
  (one (· == byte '"') >> quotation (byte '"')) <|>
  (one (· == byte '\'') >> quotation (byte '\''))

/-- Cuts a fixed text off. -/
def splitExactly : List UInt8 → List UInt8 → Option (List UInt8 × List UInt8)
  | [], rest => some ([], rest)
  | _ :: _, [] => none
  | a :: bytes, b :: rest =>
    if a == b then (splitExactly bytes rest).map fun (lexeme, rest) => (b :: lexeme, rest)
    else none

/-- Cuts the inside of a quotation and its closing mark off. -/
def splitQuotation (mark : UInt8) : List UInt8 → Option (List UInt8 × List UInt8)
  | [] => none
  | b :: rest =>
    if b == mark then some ([b], rest)
    else if b == byte '\\' then
      match rest with
      | [] => none
      | c :: rest =>
        if c == byte '\n' then none
        else (splitQuotation mark rest).map fun (inside, rest) => (b :: c :: inside, rest)
    else (splitQuotation mark rest).map fun (inside, rest) => (b :: inside, rest)

/-- Cuts a lexeme that the pattern spells off the front of a byte string. -/
def split : Pattern → List UInt8 → Option (List UInt8 × List UInt8)
  | exactly bytes, s => splitExactly bytes s
  | one _, [] => none
  | one among, b :: rest => if among b then some ([b], rest) else none
  | many among, s => some (s.takeWhile among, s.dropWhile among)
  | quotation mark, s => splitQuotation mark s
  | notBefore b, s => if s.head? == some b then none else some ([], s)
  | optional p, s => (p.split s).getD ([], s)
  | andThen p q, s =>
    match p.split s with
    | none => none
    | some (first, rest) => (q.split rest).map fun (second, rest) => (first ++ second, rest)
  | orElse p q, s => (p.split s).or (q.split s)

theorem eq_append_of_splitExactly {bytes s lexeme rest : List UInt8}
    (h : splitExactly bytes s = some (lexeme, rest)) : s = lexeme ++ rest := by
  fun_induction splitExactly bytes s generalizing lexeme <;>
    simp at h <;> grind

theorem eq_append_of_splitQuotation {mark : UInt8} {s lexeme rest : List UInt8}
    (h : splitQuotation mark s = some (lexeme, rest)) : s = lexeme ++ rest := by
  fun_induction splitQuotation mark s generalizing lexeme <;>
    simp at h <;> grind

/-- `Pattern.split` gives two parts that make up the byte string. -/
theorem eq_append_of_split {p : Pattern} {s lexeme rest : List UInt8}
    (h : p.split s = some (lexeme, rest)) : s = lexeme ++ rest := by
  induction p generalizing s lexeme rest with
  | exactly bytes => exact eq_append_of_splitExactly h
  | one among => cases s <;> grind [split]
  | many among => grind [split, List.takeWhile_append_dropWhile]
  | quotation mark => exact eq_append_of_splitQuotation h
  | notBefore b => grind [split]
  | optional p ih => cases hp : p.split s <;> grind [split]
  | andThen p q ihp ihq =>
    cases hp : p.split s with
    | none => grind [split]
    | some parts =>
      cases hq : q.split parts.2 <;> grind [split]
  | orElse p q ihp ihq => cases hp : p.split s <;> grind [split]

/-- Whether no lexeme of the pattern is empty, as far as its parts tell. -/
def takesByte : Pattern → Bool
  | exactly bytes => !bytes.isEmpty
  | one _ | quotation _ => true
  | many _ | notBefore _ | optional _ => false
  | andThen p q => p.takesByte || q.takesByte
  | orElse p q => p.takesByte && q.takesByte

theorem ne_nil_of_splitExactly {bytes s lexeme rest : List UInt8} (hb : bytes ≠ [])
    (h : splitExactly bytes s = some (lexeme, rest)) : lexeme ≠ [] := by
  fun_induction splitExactly bytes s generalizing lexeme <;> simp at h <;> grind

theorem ne_nil_of_splitQuotation {mark : UInt8} {s lexeme rest : List UInt8}
    (h : splitQuotation mark s = some (lexeme, rest)) : lexeme ≠ [] := by
  fun_induction splitQuotation mark s generalizing lexeme <;> simp at h <;> grind

/-- A pattern that takes a byte (`takesByte`) spells no empty lexeme. -/
theorem ne_nil_of_split {p : Pattern} {s lexeme rest : List UInt8} (hp : p.takesByte = true)
    (h : p.split s = some (lexeme, rest)) : lexeme ≠ [] := by
  induction p generalizing s lexeme rest with
  | exactly bytes => exact ne_nil_of_splitExactly (by simpa [takesByte] using hp) h
  | one among => cases s <;> grind [split]
  | quotation mark => exact ne_nil_of_splitQuotation h
  | many | notBefore | optional => simp [takesByte] at hp
  | andThen p q ihp ihq =>
    cases hs : p.split s with
    | none => grind [split]
    | some parts =>
      cases hq : q.split parts.2 <;> grind [split, takesByte, List.append_eq_nil_iff]
  | orElse p q ihp ihq => cases hs : p.split s <;> grind [split, takesByte]

end Pattern

end TypeNotes.Signature
