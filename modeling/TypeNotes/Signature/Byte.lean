/-!
# Bytes of a signature

Signatures are read as bytes, and only ASCII bytes have a meaning of their own. The classes here
are those that names, numbers and blanks are made of.
-/

namespace TypeNotes.Signature

/-- The byte of an ASCII character. -/
abbrev byte (c : Char) : UInt8 := c.toUInt8

/-- Lower-case ASCII letters. -/
def isLower (b : UInt8) : Bool := byte 'a' ≤ b && b ≤ byte 'z'

/-- Upper-case ASCII letters. -/
def isUpper (b : UInt8) : Bool := byte 'A' ≤ b && b ≤ byte 'Z'

/-- ASCII digits. -/
def isDigit (b : UInt8) : Bool := byte '0' ≤ b && b ≤ byte '9'

/-- Bytes that start a name which is not a constant: lower-case letters and the underscore. -/
def isLowerStart (b : UInt8) : Bool := isLower b || b == byte '_'

/-- Bytes that start a name. -/
def isNameStart (b : UInt8) : Bool := isLowerStart b || isUpper b

/-- Bytes that continue a name. -/
def isNamePart (b : UInt8) : Bool := isNameStart b || isDigit b

/-- Blanks between tokens: space, tab and the two line-end bytes. -/
def isBlank (b : UInt8) : Bool :=
  b == byte ' ' || b == byte '\t' || b == byte '\r' || b == byte '\n'

end TypeNotes.Signature
