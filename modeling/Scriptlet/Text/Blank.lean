/-!
# `Scriptlet.Text.Blank`: blank characters

The characters with the Unicode property `White_Space`, and the removal of such
characters from both ends of a text.
-/

set_option autoImplicit false

namespace Scriptlet.Text

/-- The ranges of the property `White_Space`, both ends included, in ascending order. -/
def blankRanges : List (Nat × Nat) :=
  [(0x09, 0x0D), (0x20, 0x20), (0x85, 0x85), (0xA0, 0xA0), (0x1680, 0x1680),
    (0x2000, 0x200A), (0x2028, 0x2029), (0x202F, 0x202F), (0x205F, 0x205F),
    (0x3000, 0x3000)]

/-- Whether a character is blank. -/
def isBlank (c : Char) : Bool :=
  blankRanges.any fun range => decide (range.1 ≤ c.toNat) && decide (c.toNat ≤ range.2)

/-- A text without the characters at its end that a test accepts. -/
def dropEndWhile (test : Char → Bool) (text : List Char) : List Char :=
  (text.reverse.dropWhile test).reverse

/-- A text without the blank characters at its two ends. -/
def trim (text : List Char) : List Char :=
  dropEndWhile isBlank (text.dropWhile isBlank)

end Scriptlet.Text
