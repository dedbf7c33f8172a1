import Patchbay.Decimal.Shortest

/-!
# Laying out decimals

How digits and an exponent become text. A `Layout` holds the decisions of one format: up to which
size a number is written positionally, how an exponent is written, and how the values that are no
numbers are spelled. Fixed-place, scientific and general notation with a given precision are
separate functions, used by text templates.

Contents:
* `Layout.render`: the shortest text of a double under a layout.
* `fixed`, `scientific`, `general`: the text of a double with a given precision.
-/

namespace Patchbay.Decimal

open Patchbay.Binary64

/-! ## Shortest text -/

/-- The decisions of one decimal format. -/
structure Layout where
  /-- leading exponents from here … -/
  plainFrom : Int
  /-- … to below here are written positionally -/
  plainBelow : Int
  /-- least number of digits of an exponent -/
  exponentWidth : Nat
  /-- whether a whole number written positionally ends in `.0` -/
  pointZero : Bool
  notANumber : String
  infinite : String

/-- Zeros in front of a text up to a width. -/
def padZeros (width : Nat) (s : String) : String :=
  String.ofList (List.replicate (width - s.length) '0') ++ s

/-- An exponent with its sign and at least `width` digits. -/
def exponentText (width : Nat) (e : Int) : String :=
  "e" ++ (if e < 0 then "-" else "+") ++ padZeros width (Nat.repr e.natAbs)

/-- The digits of a decimal written with the point in its place. -/
def positional (pointZero : Bool) (d : Digits) : String :=
  let s := (Nat.repr d.digits).toList
  if d.exp ≥ 0 then
    String.ofList (s ++ List.replicate d.exp.toNat '0') ++ (if pointZero then ".0" else "")
  else
    let places := d.exp.natAbs
    let s := List.replicate (places + 1 - s.length) '0' ++ s
    String.ofList (s.take (s.length - places)) ++ "." ++ String.ofList (s.drop (s.length - places))

/-- The digits of a decimal with one digit before the point, without an exponent. -/
def leadingDigit (s : List Char) : String :=
  match s with
  | [] => "0"
  | [c] => c.toString
  | c :: rest => c.toString ++ "." ++ String.ofList rest

/-- The text of a magnitude under a layout. -/
def Layout.magnitude (l : Layout) (x : Finite) : String :=
  let d := shortest x
  let s := Nat.repr d.digits
  let e : Int := d.exp + s.length - 1
  if d.digits == 0 then (if l.pointZero then "0.0" else "0")
  else if l.plainFrom ≤ e && e < l.plainBelow then positional l.pointZero d
  else leadingDigit s.toList ++ exponentText l.exponentWidth e

/-- The shortest text of a double under a layout. -/
def Layout.render (l : Layout) (x : Float) : String :=
  match decode x with
  | .nan => l.notANumber
  | .infinite negative => (if negative then "-" else "") ++ l.infinite
  | .finite f => (if f.negative then "-" else "") ++ l.magnitude f

/-! ## Given precision -/

/-- The magnitude rounded to `places` digits after the point, as an integer of that many units. -/
def unitsAt (x : Finite) (places : Int) : Nat :=
  let (n, d) := x.ratio
  roundDiv (n * tenTo places.toNat) (d * tenTo (-places).toNat)

/-- Positional notation with exactly `places` digits after the point. `alternate` keeps a point
that nothing follows. -/
def fixed (places : Nat) (alternate : Bool) (x : Finite) : String :=
  let u := unitsAt x places
  if places == 0 then Nat.repr u ++ (if alternate then "." else "")
  else positional false ⟨u, -(places : Int)⟩

/-- The first `precision + 1` significant digits, rounded, and the exponent of the first one. -/
def significant (precision : Nat) (x : Finite) : Nat × Int :=
  if x.m == 0 then (0, 0)
  else
    let (n, d) := x.ratio
    let e := leadingExponent n d
    let u := unitsAt x ((precision : Int) - e)
    if u ≥ tenTo (precision + 1) then (u / 10, e + 1) else (u, e)

/-- Scientific notation with exactly `precision` digits after the point. -/
def scientific (precision : Nat) (alternate : Bool) (x : Finite) : String :=
  let (u, e) := significant precision x
  let s := (padZeros (precision + 1) (Nat.repr u)).toList
  leadingDigit s ++ (if alternate && precision == 0 then "." else "") ++ exponentText 2 e

/-- Drops trailing zeros, and a point that nothing follows, from a positional text. -/
def trimFraction (s : String) : String :=
  if s.toList.contains '.' then
    String.ofList
      (((s.toList.reverse.dropWhile (· == '0')).dropWhile (· == '.')).reverse)
  else s

/-- General notation: `precision` significant digits, positional for exponents from -4 to below the
precision. Trailing zeros are dropped unless `alternate` is set. -/
def general (precision : Nat) (alternate : Bool) (x : Finite) : String :=
  let p := max precision 1
  let (u, e) := significant (p - 1) x
  if -4 ≤ e && e < p then
    let s := fixed ((p : Int) - 1 - e).toNat alternate x
    if alternate then s else trimFraction s
  else
    let s := leadingDigit (padZeros p (Nat.repr u)).toList
    (if alternate then (if p == 1 then s ++ "." else s) else trimFraction s) ++ exponentText 2 e

end Patchbay.Decimal
