import Patchbay.Text.Printable

/-!
# Quoted text

How a text is shown inside a message: between single quotes, or between double quotes when it holds
a single quote and no double one. Backslash and the quote are escaped, and so is every character
that is not printable.

Contents:
* `quote`: the quoted form of a text.
-/

namespace Patchbay.Text

/-- A number in lower-case hexadecimal with at least `width` digits. -/
def hexText (width n : Nat) : String :=
  let s := Nat.toDigits 16 n
  String.ofList (List.replicate (width - s.length) '0' ++ s)

/-- The quoted form of one character. -/
def quoteChar (q : Char) (c : Char) : String :=
  if c == q || c == '\\' then String.ofList ['\\', c]
  else if c == '\n' then "\\n"
  else if c == '\r' then "\\r"
  else if c == '\t' then "\\t"
  else if isPrintable c then c.toString
  else if c.toNat < 0x100 then "\\x" ++ hexText 2 c.toNat
  else if c.toNat < 0x10000 then "\\u" ++ hexText 4 c.toNat
  else "\\U" ++ hexText 8 c.toNat

/-- The quote that encloses a text. -/
def enclosingQuote (cs : List Char) : Char :=
  if cs.contains '\'' && !cs.contains '"' then '"' else '\''

/-- The quoted form of a text. -/
def quote (s : String) : String :=
  let q := enclosingQuote s.toList
  q.toString ++ String.join (s.toList.map (quoteChar q)) ++ q.toString

end Patchbay.Text
