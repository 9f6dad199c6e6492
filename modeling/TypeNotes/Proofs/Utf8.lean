import TypeNotes.Utf8

/-!
# Encoded text

What the bytes of a text look like, that they are read back as the text, and that nothing else is.

**Bytes.** A character below 128 is one byte, its code; all bytes of any other character are 128 or
more (`encodeChar_of_lt`, `le_of_mem_encodeChar`). So a byte below 128 tells where a character
starts and where it ends.

**Decoding.** Reading one sequence at the front of an encoded text gives its first character
(`readOne_encodeChar`). Both decoders give encoded text back (`decode?_encode`,
`decodeLossy_encode`). The other way round, a character that was read is what its bytes encode
(`eq_encodeChar_of_readOne`), so that the strict decoder takes encoded text only
(`decode?_eq_ok_iff`).
-/

namespace TypeNotes.Utf8

/-! ### The bytes of one character -/

/-- A character below 128 is encoded as one byte. -/
theorem encodeChar_of_lt {c : Char} (h : c.toNat < 128) :
    String.utf8EncodeChar c = [c.toUInt8] := by
  have hle : c.val.toNat ≤ 0x7f := Nat.le_of_lt_succ h
  rw [String.utf8EncodeChar, if_pos hle]
  rfl

/-- A number below 256 is the value of its byte. -/
theorem toNat_ofNat_of_lt {n : Nat} (h : n < 256) : (UInt8.ofNat n).toNat = n := by
  rw [UInt8.toNat_ofNat']
  exact Nat.mod_eq_of_lt h

/-- All bytes of a character from 128 on are 128 or more. -/
theorem le_of_mem_encodeChar {c : Char} (h : 128 ≤ c.toNat) {b : UInt8}
    (hb : b ∈ String.utf8EncodeChar c) : 128 ≤ b.toNat := by
  have hv : ¬ c.val.toNat ≤ 0x7f := Nat.not_le_of_lt h
  rw [String.utf8EncodeChar, if_neg hv] at hb
  split at hb
  · simp only [List.mem_cons, List.not_mem_nil, or_false] at hb
    rcases hb with rfl | rfl <;> rw [toNat_ofNat_of_lt (by omega)] <;> omega
  split at hb
  · simp only [List.mem_cons, List.not_mem_nil, or_false] at hb
    rcases hb with rfl | rfl | rfl <;> rw [toNat_ofNat_of_lt (by omega)] <;> omega
  · simp only [List.mem_cons, List.not_mem_nil, or_false] at hb
    rcases hb with rfl | rfl | rfl | rfl <;> rw [toNat_ofNat_of_lt (by omega)] <;> omega

/-- A character has a byte. -/
theorem encodeChar_ne_nil (c : Char) : String.utf8EncodeChar c ≠ [] := by
  rw [String.utf8EncodeChar]
  repeat' split
  all_goals simp

/-! ### Reading one sequence back -/

/-- `Lead.ofByte?` tells what a first byte announces from its value. -/
theorem Lead.ofByte?_ofNat (n : Nat) (h : n < 256) :
    Lead.ofByte? (UInt8.ofNat n) =
      if n < 0x80 then some ⟨n, []⟩
      else if n < 0xC2 then none
      else if n < 0xE0 then some ⟨n - 0xC0, [anyContinuation]⟩
      else if n = 0xE0 then some ⟨0, [(0xA0, 0xBF), anyContinuation]⟩
      else if n = 0xED then some ⟨0xD, [(0x80, 0x9F), anyContinuation]⟩
      else if n < 0xF0 then some ⟨n - 0xE0, [anyContinuation, anyContinuation]⟩
      else if n = 0xF0 then some ⟨0, [(0x90, 0xBF), anyContinuation, anyContinuation]⟩
      else if n < 0xF4 then
        some ⟨n - 0xF0, [anyContinuation, anyContinuation, anyContinuation]⟩
      else if n = 0xF4 then some ⟨4, [(0x80, 0x8F), anyContinuation, anyContinuation]⟩
      else none := by
  have hn := toNat_ofNat_of_lt h
  simp only [Lead.ofByte?, UInt8.lt_iff_toNat_lt, beq_iff_eq, ← UInt8.toNat_inj, hn]
  rfl

/-- `readFollowing` takes a following byte in its range, which adds six bits. -/
theorem readFollowing_ofNat {low high : UInt8} {n : Nat} (hn : n < 64)
    (hlow : low.toNat ≤ n + 0x80) (hhigh : n + 0x80 ≤ high.toNat)
    (following : List (UInt8 × UInt8)) (code length : Nat) (rest : List UInt8) :
    readFollowing ((low, high) :: following) code length (UInt8.ofNat (n + 0x80) :: rest) =
      readFollowing following (code * 64 + n) (length + 1) rest := by
  have htoNat : (UInt8.ofNat (n + 0x80)).toNat = n + 0x80 := toNat_ofNat_of_lt (by omega)
  rw [readFollowing, if_pos ?_, htoNat, Nat.add_sub_cancel]
  simp only [UInt8.le_iff_toNat_le, htoNat, hlow, hhigh, decide_true, Bool.and_self]

/-- `readFollowing` adds the six bits of a following byte to the code. -/
theorem readFollowing_any {n : Nat} (hn : n < 64) (following : List (UInt8 × UInt8))
    (code length : Nat) (rest : List UInt8) :
    readFollowing (anyContinuation :: following) code length (UInt8.ofNat (n + 0x80) :: rest) =
      readFollowing following (code * 64 + n) (length + 1) rest := by
  refine readFollowing_ofNat hn ?_ ?_ following code length rest
  · show 0x80 ≤ n + 0x80
    omega
  · show n + 0x80 ≤ 0xBF
    omega

/-- `readOne` reads the following bytes that a lead byte announces. -/
theorem readOne_of_lead {b : UInt8} {bits : Nat} {following : List (UInt8 × UInt8)}
    (h : Lead.ofByte? b = some ⟨bits, following⟩) (rest : List UInt8) :
    readOne b rest = readFollowing following bits 1 rest := by
  rw [readOne, h]

/-- One byte is read as a code up to `0x7f`. -/
theorem readOne_one {v : Nat} (h : v ≤ 0x7f) (rest : List UInt8) :
    readOne (UInt8.ofNat v) rest = ⟨.ok (Char.ofNat v), 1, rest⟩ := by
  have hlead := Lead.ofByte?_ofNat v (by omega)
  rw [if_pos (by omega)] at hlead
  rw [readOne_of_lead hlead, readFollowing]

/-- Two bytes are read as a code up to `0x7ff`. -/
theorem readOne_two {v : Nat} (h₁ : 0x80 ≤ v) (h₂ : v ≤ 0x7ff) (rest : List UInt8) :
    readOne (UInt8.ofNat (v / 64 % 0x20 + 0xc0)) (UInt8.ofNat (v % 0x40 + 0x80) :: rest) =
      ⟨.ok (Char.ofNat v), 2, rest⟩ := by
  have hlead := Lead.ofByte?_ofNat (v / 64 % 0x20 + 0xc0) (by omega)
  rw [if_neg (by omega), if_neg (by omega), if_pos (by omega), Nat.add_sub_cancel] at hlead
  have hcode : v / 64 % 0x20 * 64 + v % 0x40 = v := by omega
  rw [readOne_of_lead hlead, readFollowing_any (by omega), readFollowing, hcode]

/-- The first of three bytes leaves the second one in, as the code is not that of a surrogate. -/
theorem Lead.ofByte?_three {v : Nat} (h₁ : 0x800 ≤ v) (h₂ : v ≤ 0xffff)
    (hvalid : v < 0xd800 ∨ 0xdfff < v) :
    ∃ low high : UInt8, Lead.ofByte? (UInt8.ofNat (v / 4096 % 0x10 + 0xe0)) =
        some ⟨v / 4096 % 0x10, [(low, high), anyContinuation]⟩ ∧
      low.toNat ≤ v / 64 % 0x40 + 0x80 ∧ v / 64 % 0x40 + 0x80 ≤ high.toNat := by
  have hlead := Lead.ofByte?_ofNat (v / 4096 % 0x10 + 0xe0) (by omega)
  rw [if_neg (by omega), if_neg (by omega), if_neg (by omega)] at hlead
  rw [hlead]
  split
  · have hbits : v / 4096 % 0x10 = 0 := by omega
    refine ⟨0xA0, 0xBF, by rw [hbits], ?_, ?_⟩
    · show 0xA0 ≤ v / 64 % 0x40 + 0x80
      omega
    · show v / 64 % 0x40 + 0x80 ≤ 0xBF
      omega
  split
  · have hbits : v / 4096 % 0x10 = 0xD := by omega
    refine ⟨0x80, 0x9F, by rw [hbits], ?_, ?_⟩
    · show 0x80 ≤ v / 64 % 0x40 + 0x80
      omega
    · show v / 64 % 0x40 + 0x80 ≤ 0x9F
      omega
  · rw [if_pos (by omega), Nat.add_sub_cancel]
    refine ⟨0x80, 0xBF, rfl, ?_, ?_⟩
    · show 0x80 ≤ v / 64 % 0x40 + 0x80
      omega
    · show v / 64 % 0x40 + 0x80 ≤ 0xBF
      omega

/-- Three bytes are read as a code up to `0xffff` that is no surrogate. -/
theorem readOne_three {v : Nat} (h₁ : 0x800 ≤ v) (h₂ : v ≤ 0xffff)
    (hvalid : v < 0xd800 ∨ 0xdfff < v) (rest : List UInt8) :
    readOne (UInt8.ofNat (v / 4096 % 0x10 + 0xe0)) (UInt8.ofNat (v / 64 % 0x40 + 0x80) ::
      UInt8.ofNat (v % 0x40 + 0x80) :: rest) = ⟨.ok (Char.ofNat v), 3, rest⟩ := by
  obtain ⟨low, high, hlead, hlow, hhigh⟩ := Lead.ofByte?_three h₁ h₂ hvalid
  have hcode : (v / 4096 % 0x10 * 64 + v / 64 % 0x40) * 64 + v % 0x40 = v := by omega
  rw [readOne_of_lead hlead, readFollowing_ofNat (by omega) hlow hhigh,
    readFollowing_any (by omega), readFollowing, hcode]

/-- The first of four bytes leaves the second one in, as the code is not above the last one. -/
theorem Lead.ofByte?_four {v : Nat} (h₁ : 0x10000 ≤ v) (h₂ : v < 0x110000) :
    ∃ low high : UInt8, Lead.ofByte? (UInt8.ofNat (v / 262144 % 0x08 + 0xf0)) =
        some ⟨v / 262144 % 0x08, [(low, high), anyContinuation, anyContinuation]⟩ ∧
      low.toNat ≤ v / 4096 % 0x40 + 0x80 ∧ v / 4096 % 0x40 + 0x80 ≤ high.toNat := by
  have hlead := Lead.ofByte?_ofNat (v / 262144 % 0x08 + 0xf0) (by omega)
  rw [if_neg (by omega), if_neg (by omega), if_neg (by omega), if_neg (by omega),
    if_neg (by omega), if_neg (by omega)] at hlead
  rw [hlead]
  split
  · have hbits : v / 262144 % 0x08 = 0 := by omega
    refine ⟨0x90, 0xBF, by rw [hbits], ?_, ?_⟩
    · show 0x90 ≤ v / 4096 % 0x40 + 0x80
      omega
    · show v / 4096 % 0x40 + 0x80 ≤ 0xBF
      omega
  split
  · rw [Nat.add_sub_cancel]
    refine ⟨0x80, 0xBF, rfl, ?_, ?_⟩
    · show 0x80 ≤ v / 4096 % 0x40 + 0x80
      omega
    · show v / 4096 % 0x40 + 0x80 ≤ 0xBF
      omega
  · have hbits : v / 262144 % 0x08 = 4 := by omega
    rw [if_pos (by omega)]
    refine ⟨0x80, 0x8F, by rw [hbits], ?_, ?_⟩
    · show 0x80 ≤ v / 4096 % 0x40 + 0x80
      omega
    · show v / 4096 % 0x40 + 0x80 ≤ 0x8F
      omega

/-- Four bytes are read as any greater code of a character. -/
theorem readOne_four {v : Nat} (h₁ : 0x10000 ≤ v) (h₂ : v < 0x110000) (rest : List UInt8) :
    readOne (UInt8.ofNat (v / 262144 % 0x08 + 0xf0)) (UInt8.ofNat (v / 4096 % 0x40 + 0x80) ::
      UInt8.ofNat (v / 64 % 0x40 + 0x80) :: UInt8.ofNat (v % 0x40 + 0x80) :: rest) =
      ⟨.ok (Char.ofNat v), 4, rest⟩ := by
  obtain ⟨low, high, hlead, hlow, hhigh⟩ := Lead.ofByte?_four h₁ h₂
  have hcode : ((v / 262144 % 0x08 * 64 + v / 4096 % 0x40) * 64 + v / 64 % 0x40) * 64 + v % 0x40 =
      v := by omega
  rw [readOne_of_lead hlead, readFollowing_ofNat (by omega) hlow hhigh,
    readFollowing_any (by omega), readFollowing_any (by omega), readFollowing, hcode]

/-- `readOne` reads the bytes of a character back as the character, whatever follows. -/
theorem readOne_encodeChar (c : Char) (rest : List UInt8) :
    ∃ b bs, String.utf8EncodeChar c = b :: bs ∧ ∃ length,
      readOne b (bs ++ rest) = ⟨.ok c, length, rest⟩ := by
  have hvalid : c.val.toNat < 0xd800 ∨ 0xdfff < c.val.toNat ∧ c.val.toNat < 0x110000 := c.valid
  have hc : Char.ofNat c.val.toNat = c := Char.ofNat_toNat c
  simp only [String.utf8EncodeChar]
  split
  · rename_i h₁
    exact ⟨_, _, rfl, 1, by rw [List.nil_append, readOne_one h₁, hc]⟩
  split
  · rename_i h₁ h₂
    refine ⟨_, _, rfl, 2, ?_⟩
    rw [List.cons_append, List.nil_append, readOne_two (by omega) h₂, hc]
  split
  · rename_i h₁ h₂ h₃
    refine ⟨_, _, rfl, 3, ?_⟩
    rw [List.cons_append, List.cons_append, List.nil_append,
      readOne_three (by omega) h₃ (by omega), hc]
  · rename_i h₁ h₂ h₃
    refine ⟨_, _, rfl, 4, ?_⟩
    rw [List.cons_append, List.cons_append, List.cons_append, List.nil_append,
      readOne_four (by omega) (by omega), hc]

/-! ### Decoding -/

/-- `decodeFrom` reads encoded text back, wherever it starts. -/
theorem decodeFrom_encode (offset : Nat) (text : List Char) :
    decodeFrom offset (encode text) = .ok text := by
  induction text generalizing offset with
  | nil => rw [encode_nil, decodeFrom]
  | cons c text ih =>
    obtain ⟨b, bs, hbytes, length, hread⟩ := readOne_encodeChar c (encode text)
    rw [encode_cons, hbytes, List.cons_append, decodeFrom, hread]
    simp only [ih]
    rfl

/-- `decode?` reads encoded text back. -/
theorem decode?_encode (text : List Char) : decode? (encode text) = .ok text :=
  decodeFrom_encode 0 text

/-- `decodeLossy` reads encoded text back. -/
theorem decodeLossy_encode (text : List Char) : decodeLossy (encode text) = text := by
  induction text with
  | nil => rw [encode_nil, decodeLossy]
  | cons c text ih =>
    obtain ⟨b, bs, hbytes, length, hread⟩ := readOne_encodeChar c (encode text)
    rw [encode_cons, hbytes, List.cons_append, decodeLossy, hread]
    simp only [ih]

/-- `Utf8.text` shows encoded text as the text. -/
theorem text_encode (s : List Char) : text (encode s) = String.ofList s := by
  rw [text, decodeLossy_encode]

/-! ### Decoded bytes are encoded text -/

/-- The bytes of a character, told from its code. -/
theorem encodeChar_ofNat {v : Nat} (hvalid : v < 0xd800 ∨ 0xdfff < v ∧ v < 0x110000) :
    String.utf8EncodeChar (Char.ofNat v) =
      if v ≤ 0x7f then [UInt8.ofNat v]
      else if v ≤ 0x7ff then [UInt8.ofNat (v / 64 % 0x20 + 0xc0), UInt8.ofNat (v % 0x40 + 0x80)]
      else if v ≤ 0xffff then
        [UInt8.ofNat (v / 4096 % 0x10 + 0xe0), UInt8.ofNat (v / 64 % 0x40 + 0x80),
          UInt8.ofNat (v % 0x40 + 0x80)]
      else
        [UInt8.ofNat (v / 262144 % 0x08 + 0xf0), UInt8.ofNat (v / 4096 % 0x40 + 0x80),
          UInt8.ofNat (v / 64 % 0x40 + 0x80), UInt8.ofNat (v % 0x40 + 0x80)] := by
  have hv : (Char.ofNat v).val.toNat = v := by
    rw [Char.ofNat, dif_pos hvalid]
    rfl
  simp only [String.utf8EncodeChar, hv]

/-- A following byte that was read lies in its range, and adds its last six bits. -/
theorem exists_of_readFollowing_eq_ok {low high : UInt8} (hlow : 0x80 ≤ low.toNat)
    (hhigh : high.toNat ≤ 0xBF) {following : List (UInt8 × UInt8)} {code length count : Nat}
    {bytes rest : List UInt8} {c : Char}
    (h : readFollowing ((low, high) :: following) code length bytes = ⟨.ok c, count, rest⟩) :
    ∃ n < 64, ∃ more, bytes = UInt8.ofNat (n + 0x80) :: more ∧ low.toNat ≤ n + 0x80 ∧
      n + 0x80 ≤ high.toNat ∧
      readFollowing following (code * 64 + n) (length + 1) more = ⟨.ok c, count, rest⟩ := by
  cases bytes with
  | nil =>
    rw [readFollowing] at h
    cases h
  | cons b more =>
    rw [readFollowing] at h
    split at h
    · rename_i hrange
      simp only [Bool.and_eq_true, decide_eq_true_eq, UInt8.le_iff_toNat_le] at hrange
      obtain ⟨hle, hle'⟩ := hrange
      have hb : b.toNat - 0x80 + 0x80 = b.toNat := by omega
      refine ⟨b.toNat - 0x80, by omega, more, ?_, by omega, by omega, h⟩
      rw [hb, UInt8.ofNat_toNat]
    · cases h

/-- Without following bytes to read, the code is that of the character. -/
theorem eq_of_readFollowing_nil {code length count : Nat} {bytes rest : List UInt8} {c : Char}
    (h : readFollowing [] code length bytes = ⟨.ok c, count, rest⟩) :
    c = Char.ofNat code ∧ bytes = rest := by
  rw [readFollowing] at h
  simp only [Reading.mk.injEq, Except.ok.injEq] at h
  exact ⟨h.1.symm, h.2.2⟩

/-- One byte that follows any, and no more. -/
theorem eq_encodeChar_two {n count : Nat} (h₁ : 0xC2 ≤ n) (h₂ : n < 0xE0) {bytes rest : List UInt8}
    {c : Char}
    (h : readFollowing [anyContinuation] (n - 0xC0) 1 bytes = ⟨.ok c, count, rest⟩) :
    UInt8.ofNat n :: bytes = String.utf8EncodeChar c ++ rest := by
  obtain ⟨x, hx, more, rfl, -, -, h⟩ := exists_of_readFollowing_eq_ok (by decide) (by decide) h
  obtain ⟨rfl, rfl⟩ := eq_of_readFollowing_nil h
  have hfirst : ((n - 0xC0) * 64 + x) / 64 % 0x20 + 0xc0 = n := by omega
  have hlast : ((n - 0xC0) * 64 + x) % 0x40 = x := by omega
  rw [encodeChar_ofNat (by omega), if_neg (by omega), if_pos (by omega), hfirst, hlast]
  rfl

/-- What is read as three bytes is the encoding of what is read. -/
theorem eq_encodeChar_three {bits count : Nat} {low high : UInt8} (hlow : 0x80 ≤ low.toNat)
    (hhigh : high.toNat ≤ 0xBF) (hbits : bits < 16) (hleast : bits = 0 → 0xA0 ≤ low.toNat)
    (hgreatest : bits = 13 → high.toNat < 0xA0) {bytes rest : List UInt8} {c : Char}
    (h : readFollowing [(low, high), anyContinuation] bits 1 bytes = ⟨.ok c, count, rest⟩) :
    UInt8.ofNat (bits + 0xE0) :: bytes = String.utf8EncodeChar c ++ rest := by
  obtain ⟨x, hx, more, rfl, hx₁, hx₂, h⟩ := exists_of_readFollowing_eq_ok hlow hhigh h
  obtain ⟨y, hy, more, rfl, -, -, h⟩ := exists_of_readFollowing_eq_ok (by decide) (by decide) h
  obtain ⟨rfl, rfl⟩ := eq_of_readFollowing_nil h
  have hfirst : ((bits * 64 + x) * 64 + y) / 4096 % 0x10 = bits := by omega
  have hnext : ((bits * 64 + x) * 64 + y) / 64 % 0x40 = x := by omega
  have hlast : ((bits * 64 + x) * 64 + y) % 0x40 = y := by omega
  rw [encodeChar_ofNat (by omega), if_neg (by omega), if_neg (by omega), if_pos (by omega), hfirst,
    hnext, hlast]
  rfl

/-- What is read as four bytes is the encoding of what is read. -/
theorem eq_encodeChar_four {bits count : Nat} {low high : UInt8} (hlow : 0x80 ≤ low.toNat)
    (hhigh : high.toNat ≤ 0xBF) (hbits : bits < 5) (hleast : bits = 0 → 0x90 ≤ low.toNat)
    (hgreatest : bits = 4 → high.toNat < 0x90) {bytes rest : List UInt8} {c : Char}
    (h : readFollowing [(low, high), anyContinuation, anyContinuation] bits 1 bytes =
      ⟨.ok c, count, rest⟩) :
    UInt8.ofNat (bits + 0xF0) :: bytes = String.utf8EncodeChar c ++ rest := by
  obtain ⟨x, hx, more, rfl, hx₁, hx₂, h⟩ := exists_of_readFollowing_eq_ok hlow hhigh h
  obtain ⟨y, hy, more, rfl, -, -, h⟩ := exists_of_readFollowing_eq_ok (by decide) (by decide) h
  obtain ⟨z, hz, more, rfl, -, -, h⟩ := exists_of_readFollowing_eq_ok (by decide) (by decide) h
  obtain ⟨rfl, rfl⟩ := eq_of_readFollowing_nil h
  have hfirst : (((bits * 64 + x) * 64 + y) * 64 + z) / 262144 % 0x08 = bits := by omega
  have hsecond : (((bits * 64 + x) * 64 + y) * 64 + z) / 4096 % 0x40 = x := by omega
  have hthird : (((bits * 64 + x) * 64 + y) * 64 + z) / 64 % 0x40 = y := by omega
  have hlast : (((bits * 64 + x) * 64 + y) * 64 + z) % 0x40 = z := by omega
  rw [encodeChar_ofNat (by omega), if_neg (by omega), if_neg (by omega), if_neg (by omega), hfirst,
    hsecond, hthird, hlast]
  rfl

/-- A character that `readOne` gives is what the bytes that were read encode. -/
theorem eq_encodeChar_of_readOne {b : UInt8} {bytes rest : List UInt8} {c : Char} {count : Nat}
    (h : readOne b bytes = ⟨.ok c, count, rest⟩) :
    b :: bytes = String.utf8EncodeChar c ++ rest := by
  obtain ⟨n, hn, rfl⟩ : ∃ n < 256, b = UInt8.ofNat n := ⟨b.toNat, b.toNat_lt, UInt8.ofNat_toNat.symm⟩
  rw [readOne, Lead.ofByte?_ofNat n hn] at h
  split at h
  · cases h
  · rename_i lead hlead
    split at hlead
    · obtain rfl := Option.some.inj hlead
      obtain ⟨hc, rfl⟩ := eq_of_readFollowing_nil h
      simp only at hc
      rw [hc, encodeChar_ofNat (by omega), if_pos (by omega)]
      rfl
    split at hlead
    · cases hlead
    split at hlead
    · obtain rfl := Option.some.inj hlead
      exact eq_encodeChar_two (by omega) (by omega) h
    split at hlead
    · rename_i hn
      obtain rfl := Option.some.inj hlead
      subst hn
      exact eq_encodeChar_three (by decide) (by decide) (by decide) (by decide) (by decide) h
    split at hlead
    · rename_i hn
      obtain rfl := Option.some.inj hlead
      subst hn
      exact eq_encodeChar_three (by decide) (by decide) (by decide) (by decide) (by decide) h
    split at hlead
    · obtain rfl := Option.some.inj hlead
      have hbits : n - 0xE0 + 0xE0 = n := by omega
      rw [← hbits]
      exact eq_encodeChar_three (by decide) (by decide) (by omega) (by omega) (by omega) h
    split at hlead
    · rename_i hn
      obtain rfl := Option.some.inj hlead
      subst hn
      exact eq_encodeChar_four (by decide) (by decide) (by decide) (by decide) (by decide) h
    split at hlead
    · obtain rfl := Option.some.inj hlead
      have hbits : n - 0xF0 + 0xF0 = n := by omega
      rw [← hbits]
      exact eq_encodeChar_four (by decide) (by decide) (by omega) (by omega) (by omega) h
    split at hlead
    · rename_i hn
      obtain rfl := Option.some.inj hlead
      subst hn
      exact eq_encodeChar_four (by decide) (by decide) (by decide) (by decide) (by decide) h
    · cases hlead

/-- What `decodeFrom` takes is the encoding of what it gives. -/
theorem eq_encode_of_decodeFrom {offset : Nat} {bytes : List UInt8} {text : List Char}
    (h : decodeFrom offset bytes = .ok text) : bytes = encode text := by
  fun_induction decodeFrom offset bytes generalizing text with
  | case1 =>
    obtain rfl := Except.ok.inj h
    rfl
  | case2 => cases h
  | case3 offset b rest c hitem ih =>
    rcases hread : readOne b rest with ⟨item, count, more⟩
    simp only [hread] at hitem ih h
    subst hitem
    cases htext : decodeFrom (offset + count) more with
    | error fault =>
      rw [htext] at h
      cases h
    | ok text' =>
      rw [htext] at h
      obtain rfl := Except.ok.inj h
      rw [encode_cons, ← ih htext]
      exact eq_encodeChar_of_readOne hread

/-- `decode?` takes bytes for a text exactly if they are those that `encode` gives for it. -/
theorem decode?_eq_ok_iff {bytes : List UInt8} {text : List Char} :
    decode? bytes = .ok text ↔ bytes = encode text := by
  constructor
  · intro h
    exact eq_encode_of_decodeFrom h
  · rintro rfl
    exact decode?_encode text

end TypeNotes.Utf8
