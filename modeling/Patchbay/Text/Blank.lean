/-!
# Blanks

The characters that count as white space around a value: the ASCII separators and blanks, and the
space and line separators of the standard.

Contents:
* `isBlank`, `strip`: trimming at both ends.
-/

namespace Patchbay.Text

/-- Whether a character is white space. -/
def isBlank (c : Char) : Bool :=
  let n := c.toNat
  (9 ≤ n && n ≤ 13) || (28 ≤ n && n ≤ 32) || n == 0x85 || n == 0xa0 || n == 0x1680
    || (0x2000 ≤ n && n ≤ 0x200a) || n == 0x2028 || n == 0x2029 || n == 0x202f || n == 0x205f
    || n == 0x3000

/-- Drops blanks at both ends. -/
def stripChars (cs : List Char) : List Char :=
  ((cs.dropWhile isBlank).reverse.dropWhile isBlank).reverse

/-- Drops blanks at both ends of a text. -/
def strip (s : String) : String := String.ofList (stripChars s.toList)

end Patchbay.Text
