/-!
# White space

The characters that separate words and that trimming removes: the white space of Unicode and the
four information separators of ASCII, 29 characters in all.
-/

namespace TypeNotes.Unicode

/-- White space: tabs, line ends, the information separators, and every kind of blank. -/
def isSpace (c : Char) : Bool :=
  let code := c.toNat
  (9 ≤ code && code ≤ 13) || (28 ≤ code && code ≤ 32) || code == 0x85 || code == 0xA0 ||
    code == 0x1680 || (0x2000 ≤ code && code ≤ 0x200A) || code == 0x2028 || code == 0x2029 ||
    code == 0x202F || code == 0x205F || code == 0x3000

/-- The plain blank is white space. -/
@[simp]
theorem isSpace_blank : isSpace ' ' = true := by decide

/-- A line end is white space. -/
@[simp]
theorem isSpace_newline : isSpace '\n' = true := by decide

end TypeNotes.Unicode
