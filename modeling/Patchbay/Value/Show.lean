import Patchbay.Decimal.Layout
import Patchbay.Decimal.Numeral
import Patchbay.Fault
import Patchbay.Text.Quoted
import Patchbay.Value.Basic

/-!
# Text of values

How values are written in messages and converted to text. `repr` quotes text, `toText` does not.
Integers beyond the digit limit have no decimal text, and writing them is a fault.

Contents:
* `Value.display`: the layout of doubles.
* `Value.intText`, `Value.repr`, `Value.toText`.
* `Value.worded`: texts inside the project's own messages.
-/

namespace Patchbay.Value

open Patchbay.Decimal

/-- Doubles are written with the fewest digits, positionally for exponents from -4 to 15, and a
whole number ends in `.0`. -/
def display : Layout where
  plainFrom := -4
  plainBelow := 16
  exponentWidth := 2
  pointZero := true
  notANumber := "nan"
  infinite := "inf"

/-- The layout of the parts of a complex number: as `display`, without `.0`. -/
def displayPart : Layout := { display with pointZero := false }

/-- The text of a double. -/
def floatText (x : Float) : String := display.render x

/-- The text of an integer, a fault beyond the digit limit. -/
def intText (n : Int) : Except Fault String :=
  if n.natAbs < tenTo maxIntDigits then .ok (toString n) else .error .value

/-- The text of a complex number; a real part of positive zero is left out. -/
def complexText (re im : Float) : String :=
  let imag := displayPart.render im
  if re == 0.0 && !Binary64.signBit re then imag ++ "j"
  else
    let signed := if imag.startsWith "-" then imag else "+" ++ imag
    "(" ++ displayPart.render re ++ signed ++ "j)"

mutual

/-- The text of a value with quoted texts. -/
def repr : Value → Except Fault String
  | null => .ok "None"
  | bool b => .ok (if b then "True" else "False")
  | int n => intText n
  | float x => .ok (floatText x)
  | complex re im => .ok (complexText re im)
  | str s => .ok (Text.quote s)
  | list xs => do
    let parts ← reprList xs
    return "[" ++ String.intercalate ", " parts ++ "]"
  | tuple xs => do
    let parts ← reprList xs
    match parts with
    | [p] => return "(" ++ p ++ ",)"
    | _ => return "(" ++ String.intercalate ", " parts ++ ")"
  | dict es => do
    let parts ← reprEntries es
    return "\x7b" ++ String.intercalate ", " parts ++ "\x7d"

/-- The texts of the items of a sequence. -/
def reprList : List Value → Except Fault (List String)
  | [] => .ok []
  | x :: xs => do
    let p ← repr x
    let ps ← reprList xs
    return p :: ps

/-- The texts of the entries of a dictionary. -/
def reprEntries : List (Value × Value) → Except Fault (List String)
  | [] => .ok []
  | e :: es => do
    let p ← reprEntry e
    let ps ← reprEntries es
    return p :: ps

/-- The text of one entry. -/
def reprEntry : Value × Value → Except Fault String
  | (k, v) => do
    let a ← repr k
    let b ← repr v
    return a ++ ": " ++ b

end

/-- The text of a value; a text is its own. -/
def toText : Value → Except Fault String
  | str s => .ok s
  | v => v.repr

/-- A text inside a message of the project's own: where it cannot be written, the fault has the words of the
limit. -/
def worded (text : Except Fault String) : Except Fault String := text.mapError fun _ => .digitLimit

end Patchbay.Value
