import Patchbay.Binary64

/-!
# Shortest decimals

The decimal text of a double has as few digits as the double can be read back from. On the grid of
each number of digits only the two grid points beside the exact value need a look; the first grid
with a point that reads back decides, the nearer point wins, and a tie goes to the even digit.

Contents:
* `Digits`: a decimal `digits * 10 ^ exp`.
* `leadingExponent`: the decimal exponent of the first digit of a fraction.
* `readsBack`: whether a decimal lies among the numbers that round to a given double.
* `shortest`: the decimal chosen.
-/

namespace Patchbay.Decimal

open Patchbay.Binary64

/-- The decimal `digits * 10 ^ exp`. -/
structure Digits where
  digits : Nat
  exp : Int

/-- The decimal exponent of the first digit of `n / d`, for positive `n` and `d`. -/
def leadingExponent (n d : Nat) : Int :=
  if n ≥ d then ((Nat.repr (n / d)).length : Int) - 1
  else -((Nat.repr ((d + n - 1) / n - 1)).length : Int)

/-- Compares `a * 10 ^ i` with `n * 2 ^ j`, exactly. -/
def compareScaled (a : Nat) (i : Int) (n : Nat) (j : Int) : Ordering :=
  compare (a * tenTo i.toNat * twoTo (-j).toNat) (n * twoTo j.toNat * tenTo (-i).toNat)

/-- Whether the gap to the double below is half the gap to the double above. -/
def narrowBelow (x : Finite) : Bool := x.m == twoTo 52 && x.q > -1074

/-- Whether `d` lies among the numbers that round to the magnitude of `x`. -/
def readsBack (x : Finite) (d : Digits) : Bool :=
  let lo := if narrowBelow x then 4 * x.m - 1 else 4 * x.m - 2
  let hi := 4 * x.m + 2
  let closed := x.m % 2 == 0
  let below := compareScaled d.digits d.exp lo (x.q - 2)
  let above := compareScaled d.digits d.exp hi (x.q - 2)
  (below == .gt || (closed && below == .eq)) && (above == .lt || (closed && above == .eq))

/-- The point beside `n / d` on the grid of exponent `k` that reads back, if there is one. -/
def onGrid (x : Finite) (n d : Nat) (k : Int) : Option Digits :=
  let a := n * tenTo (-k).toNat
  let b := d * tenTo k.toNat
  let lower : Digits := ⟨a / b, k⟩
  let upper : Digits := ⟨a / b + 1, k⟩
  match readsBack x lower, readsBack x upper with
  | true, true =>
    let twice := 2 * (a % b)
    some (if twice < b then lower
      else if twice > b then upper
      else if (a / b) % 2 == 0 then lower else upper)
  | true, false => some lower
  | false, true => some upper
  | false, false => none

/-- Moves trailing zeros of the digits into the exponent; `fuel` bounds their number. -/
def stripZeros : Nat → Digits → Digits
  | 0, d => d
  | fuel + 1, d =>
    if d.digits != 0 && d.digits % 10 == 0 then stripZeros fuel ⟨d.digits / 10, d.exp + 1⟩ else d

/-- The shortest decimal that reads back as the magnitude of `x`. -/
def shortest (x : Finite) : Digits :=
  if x.m == 0 then ⟨0, 0⟩
  else
    let (n, d) := x.ratio
    let e := leadingExponent n d
    let found := (List.range 17).findSome? fun (i : Nat) => onGrid x n d (e - i)
    match found with
    | some r => stripZeros 20 r
    | none => ⟨x.m * twoTo x.q.toNat * Nat.pow 5 (-x.q).toNat, min x.q 0⟩

end Patchbay.Decimal
