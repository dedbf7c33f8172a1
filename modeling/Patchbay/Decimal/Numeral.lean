import Patchbay.Binary64
import Patchbay.Text.Blank
import Patchbay.Text.DecimalDigit

/-!
# Reading numerals

The text of an integer or a decimal number as a person writes it: blanks around it, a sign, digits
of any script, and single low lines between digits.

Contents:
* `intOfText?`: an integer in a given base.
* `floatOfText?`: a decimal number, an infinity or a NaN.
-/

namespace Patchbay.Decimal

open Patchbay.Text

/-! ## Common form -/

/-- Most digits an integer may have when it is read from, or written as, decimal text. -/
def maxIntDigits : Nat := 4300

/-- Blanks beyond ASCII become the plain blank and digits of any script the ASCII ones; any other
character beyond ASCII becomes one that no numeral holds. -/
def plainChar (c : Char) : Char :=
  if c.toNat < 127 then c
  else if isBlank c then ' '
  else match digitValue? c with
    | some d => Char.ofNat ('0'.toNat + d)
    | none => '?'

/-- Whether a character may stand around a numeral. -/
def isPlainBlank (c : Char) : Bool := c == ' ' || (9 ≤ c.toNat && c.toNat ≤ 13)

/-- The plain form of a text without the blanks around it. -/
def plainForm (s : String) : List Char :=
  let cs := (s.toList.map plainChar).dropWhile isPlainBlank
  (cs.reverse.dropWhile isPlainBlank).reverse

/-- Splits off a sign; `true` is minus. -/
def splitSign : List Char → Bool × List Char
  | '-' :: rest => (true, rest)
  | '+' :: rest => (false, rest)
  | cs => (false, cs)

/-! ## Integers -/

/-- The value of a letter or digit in bases up to 36. -/
def alnumValue? (c : Char) : Option Nat :=
  if c.isDigit then some (c.toNat - '0'.toNat)
  else if c.isUpper then some (c.toNat - 'A'.toNat + 10)
  else if c.isLower then some (c.toNat - 'a'.toNat + 10)
  else none

/-- Digits of a base with single low lines between them: the value and the number of digits.
`afterDigit` tells whether a low line may stand here. -/
def digitsFrom? (base : Nat) (afterDigit : Bool) (value count : Nat) :
    List Char → Option (Nat × Nat)
  | [] => if afterDigit then some (value, count) else none
  | '_' :: rest => if afterDigit then digitsFrom? base false value count rest else none
  | c :: rest =>
    match alnumValue? c with
    | some d =>
      if d < base then digitsFrom? base true (base * value + d) (count + 1) rest else none
    | none => none

/-- The base that a mark such as `0x` stands for. -/
def markedBase? : List Char → Option Nat
  | '0' :: c :: _ =>
    if c == 'x' || c == 'X' then some 16
    else if c == 'o' || c == 'O' then some 8
    else if c == 'b' || c == 'B' then some 2
    else none
  | _ => none

/-- Drops the mark of a base and one low line after it. -/
def dropMark (cs : List Char) : List Char :=
  match cs.drop 2 with
  | '_' :: rest => rest
  | rest => rest

/-- An unsigned integer in a base from 2 to 36; base 0 takes the base from the mark. Bases that are
no power of two have the limit of `maxIntDigits`. -/
def natOfChars? (base : Nat) (cs : List Char) : Option Nat :=
  let limited (b : Nat) (r : Option (Nat × Nat)) : Option Nat :=
    r.bind fun (n, count) =>
      if count > maxIntDigits && !(b == 2 || b == 4 || b == 8 || b == 16 || b == 32) then none
      else some n
  if base == 0 then
    match markedBase? cs with
    | some b => limited b (digitsFrom? b false 0 0 (dropMark cs))
    | none =>
      match limited 10 (digitsFrom? 10 false 0 0 cs) with
      | some n => if cs.head? == some '0' && n ≠ 0 then none else some n
      | none => none
  else if markedBase? cs == some base then limited base (digitsFrom? base false 0 0 (dropMark cs))
  else limited base (digitsFrom? base false 0 0 cs)

/-- The integer a text stands for in a base. -/
def intOfText? (base : Nat) (s : String) : Option Int :=
  let (negative, cs) := splitSign (plainForm s)
  (natOfChars? base cs).map fun n => if negative then -(n : Int) else n

/-! ## Decimal numbers -/

/-- Drops low lines that stand between two digits; any other low line is refused. -/
def dropSeparators? (before : Char) : List Char → Option (List Char)
  | [] => some []
  | '_' :: d :: rest =>
    if before.isDigit && d.isDigit then (dropSeparators? d rest).map (d :: ·) else none
  | ['_'] => none
  | c :: rest => (dropSeparators? c rest).map (c :: ·)

/-- The value of a list of ASCII digits. -/
def natOfDigits (cs : List Char) : Nat := cs.foldl (fun n c => 10 * n + (c.toNat - '0'.toNat)) 0

/-- An exponent after its mark, or nothing if it is malformed. -/
def exponentOf? : List Char → Option Int
  | [] => some 0
  | e :: rest =>
    if e == 'e' || e == 'E' then
      let (negative, ds) := splitSign rest
      if ds.isEmpty || !ds.all Char.isDigit then none
      else
        let n : Int := natOfDigits ds
        some (if negative then -n else n)
    else none

/-- An unsigned decimal number with an optional point and exponent. -/
def decimalOf? (cs : List Char) : Option Float :=
  let whole := cs.takeWhile Char.isDigit
  let rest := cs.dropWhile Char.isDigit
  let (fraction, rest) := match rest with
    | '.' :: r => (r.takeWhile Char.isDigit, r.dropWhile Char.isDigit)
    | r => ([], r)
  if whole.isEmpty && fraction.isEmpty then none
  else
    (exponentOf? rest).map fun e =>
      Binary64.ofDecimal (natOfDigits (whole ++ fraction)) (e - fraction.length)

/-- The decimal number, infinity or NaN a text stands for. -/
def floatOfText? (s : String) : Option Float :=
  match dropSeparators? ' ' (plainForm s) with
  | none => none
  | some cs =>
    let (negative, body) := splitSign cs
    let word := String.ofList (body.map Char.toLower)
    let magnitude :=
      if word == "inf" || word == "infinity" then some Binary64.infinity
      else if word == "nan" then some Binary64.nan
      else decimalOf? body
    magnitude.map (Binary64.withSign negative)

end Patchbay.Decimal
