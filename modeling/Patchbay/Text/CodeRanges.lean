/-!
# Tables of code points

Properties of characters are given by the standard as ascending ranges of code points. A table is
written as text, ranges in hexadecimal separated by blanks (`a0 d7-d8`), and looked up by bisection.
A case table has rows `from-to/step+delta`: every `step`-th code point of the range moves by `delta`.

Contents:
* `CodeRanges`: ranges, `CodeRanges.ofText`, `CodeRanges.contains`.
* `CodeShifts`: rows of a case table, `CodeShifts.ofText`, `CodeShifts.apply?`.
-/

namespace Patchbay.Text

/-- The value of a hexadecimal digit; other characters count nothing. -/
def hexValue (c : Char) : Nat :=
  if '0' ≤ c && c ≤ '9' then c.toNat - '0'.toNat
  else if 'a' ≤ c && c ≤ 'f' then c.toNat - 'a'.toNat + 10
  else if 'A' ≤ c && c ≤ 'F' then c.toNat - 'A'.toNat + 10
  else 0

/-- Whether a character is a hexadecimal digit. -/
def isHexDigit (c : Char) : Bool :=
  ('0' ≤ c && c ≤ '9') || ('a' ≤ c && c ≤ 'f') || ('A' ≤ c && c ≤ 'F')

/-- The number a list of hexadecimal digits stands for. -/
def hexNumber (cs : List Char) : Nat := cs.foldl (fun n c => 16 * n + hexValue c) 0

/-- Cuts a list at every occurrence of a character. -/
def splitAt (sep : Char) : List Char → List (List Char)
  | [] => [[]]
  | c :: rest =>
    if c == sep then [] :: splitAt sep rest
    else match splitAt sep rest with
      | [] => [[c]]
      | first :: others => (c :: first) :: others

/-! ## Ranges -/

/-- Ascending ranges of code points, ends included. -/
structure CodeRanges where
  rows : Array (Nat × Nat)

/-- Reads one range. -/
def rangeOfText (cs : List Char) : Nat × Nat :=
  match splitAt '-' cs with
  | [a, b] => (hexNumber a, hexNumber b)
  | a :: _ => (hexNumber a, hexNumber a)
  | [] => (0, 0)

/-- Reads a table. -/
def CodeRanges.ofText (s : String) : CodeRanges :=
  ⟨(((splitAt ' ' s.toList).filter (· ≠ [])).map rangeOfText).toArray⟩

/-- The number of rows that start at or before `n`, searched between `lo` and `lo + width`. -/
def bisect (starts : Nat → Nat) (n : Nat) (lo width : Nat) : Nat :=
  if width = 0 then lo
  else
    let half := width / 2
    if starts (lo + half) ≤ n then bisect starts n (lo + half + 1) (width - half - 1)
    else bisect starts n lo half
termination_by width
decreasing_by all_goals omega

/-- Whether a code point lies in one of the ranges. -/
def CodeRanges.contains (r : CodeRanges) (n : Nat) : Bool :=
  let i := bisect (fun k => ((r.rows[k]?).map Prod.fst).getD 0) n 0 r.rows.size
  match r.rows[i - 1]? with
  | some (lo, hi) => i > 0 && lo ≤ n && n ≤ hi
  | none => false

/-! ## Shifts -/

/-- One row of a case table. -/
structure CodeShift where
  first : Nat
  last : Nat
  step : Nat
  delta : Int

/-- Ascending rows of a case table. -/
structure CodeShifts where
  rows : Array CodeShift

/-- Reads one row `first-last/step+delta` or `first-last/step~delta`, the latter shifting down. -/
def shiftOfText (cs : List Char) : CodeShift :=
  let (range, rest) := (cs.takeWhile (· ≠ '/'), (cs.dropWhile (· ≠ '/')).drop 1)
  let step := hexNumber (rest.takeWhile isHexDigit)
  let (lo, hi) := rangeOfText range
  match rest.dropWhile isHexDigit with
  | '~' :: ds => ⟨lo, hi, step, -(hexNumber ds : Int)⟩
  | _ :: ds => ⟨lo, hi, step, hexNumber ds⟩
  | [] => ⟨lo, hi, step, 0⟩

/-- Reads a case table. -/
def CodeShifts.ofText (s : String) : CodeShifts :=
  ⟨(((splitAt ' ' s.toList).filter (· ≠ [])).map shiftOfText).toArray⟩

/-- The code point a table moves `n` to, if it moves it. -/
def CodeShifts.apply? (t : CodeShifts) (n : Nat) : Option Nat :=
  let i := bisect (fun k => ((t.rows[k]?).map CodeShift.first).getD 0) n 0 t.rows.size
  match t.rows[i - 1]? with
  | some r =>
    if i > 0 && r.first ≤ n && n ≤ r.last && (n - r.first) % r.step == 0 then
      some ((n : Int) + r.delta).toNat
    else none
  | none => none

end Patchbay.Text
