/-!
# Exact view of double-precision numbers

A finite double is an integer times a power of two. Everything the project needs to know exactly
about doubles (how they compare with unbounded integers, which integer lies next to them, which
double lies next to a fraction) is computed here in integer arithmetic on that view.

Contents:
* `twoTo`, `tenTo`: powers of the two bases.
* `decode` and `encode`: between a double and its sign, magnitude and exponent.
* `ofRatio`, `ofInt?`, `ofDecimal`: the double nearest to an exact number, a half going to the
  even neighbour.
* `floorInt`, `ceilInt`, `truncInt`, `roundInt`: the integers beside a finite double.
* `compareInt`: exact comparison of a double with an integer.
* `remainder`: the exact remainder of a division.
-/

namespace Patchbay

/-- A power of two. -/
def twoTo (k : Nat) : Nat := Nat.pow 2 k

/-- A power of ten. -/
def tenTo (k : Nat) : Nat := Nat.pow 10 k

end Patchbay

namespace Patchbay.Binary64

/-! ## The view -/

/-- A finite double: `± m * 2 ^ q`. -/
structure Finite where
  negative : Bool
  m : Nat
  q : Int

/-- What the bits of a double stand for. -/
inductive Decoded where
  | nan
  | infinite (negative : Bool)
  | finite (x : Finite)

/-- Whether the sign bit is set, also on zeros and on NaN. -/
def signBit (x : Float) : Bool := x.toBits >>> 63 == 1

/-- Reads a double off its bits. -/
def decode (x : Float) : Decoded :=
  let b := x.toBits
  let e := ((b >>> 52) &&& 0x7FF).toNat
  let f := (b &&& 0xFFFFFFFFFFFFF).toNat
  if e == 2047 then
    if f == 0 then .infinite (signBit x) else .nan
  else if e == 0 then .finite ⟨signBit x, f, -1074⟩
  else .finite ⟨signBit x, twoTo 52 + f, (e : Int) - 1075⟩

/-- Positive infinity. -/
def infinity : Float := Float.ofBits 0x7FF0000000000000

/-- The NaN that arithmetic writes down. -/
def nan : Float := Float.ofBits 0x7FF8000000000000

/-- The same magnitude under the given sign. -/
def withSign (negative : Bool) (x : Float) : Float :=
  let magnitude := x.toBits &&& 0x7FFFFFFFFFFFFFFF
  Float.ofBits (if negative then magnitude ||| 0x8000000000000000 else magnitude)

/-- The double `m * 2 ^ q` for `m < 2 ^ 53` in lowest position (`q = -1074`, or `2 ^ 52 ≤ m`);
infinity when it is out of range. -/
def encode (m : Nat) (q : Int) : Float :=
  if m < twoTo 52 then Float.ofBits m.toUInt64
  else
    let e := (q + 1075).toNat
    if e ≥ 2047 then infinity
    else Float.ofBits ((e.toUInt64 <<< 52) ||| (m - twoTo 52).toUInt64)

/-! ## Rounding -/

/-- The quotient `n / d` rounded to the nearest integer, a half to the even one. -/
def roundDiv (n d : Nat) : Nat :=
  let k := n / d
  let r := n % d
  if 2 * r < d then k
  else if 2 * r > d then k + 1
  else k + k % 2

/-- The double nearest to `n / d` (with `d > 0`), infinity when it is out of range. -/
def ofRatio (n d : Nat) : Float :=
  if n == 0 then 0.0
  else
    -- an exponent under which the quotient has 53 or 54 bits, never below the least one
    let guess : Int := max ((n.log2 : Int) - d.log2 - 53) (-1074)
    let scaled (q : Int) : Nat := roundDiv (n * twoTo (-q).toNat) (d * twoTo q.toNat)
    -- whether the exact quotient at this exponent needs more than 53 bits
    let tooLong (q : Int) : Bool := n * twoTo (-q).toNat ≥ twoTo 53 * (d * twoTo q.toNat)
    let q := if tooLong guess then guess + 1 else guess
    let m := scaled q
    if m ≥ twoTo 53 then encode (m / 2) (q + 1) else encode m q

/-- The double nearest to an integer, or nothing when the integer is out of range. -/
def ofInt? (n : Int) : Option Float :=
  let x := ofRatio n.natAbs 1
  if x.isInf then none else some (withSign (n < 0) x)

/-- The double nearest to `digits * 10 ^ exp`. Exponents far outside the range are decided without
building the power. -/
def ofDecimal (digits : Nat) (exp : Int) : Float :=
  let size : Int := (Nat.repr digits).length
  if digits == 0 then 0.0
  else if size + exp > 400 then infinity
  else if size + exp < -400 then 0.0
  else ofRatio (digits * tenTo exp.toNat) (tenTo (-exp).toNat)

/-! ## Integers beside a double -/

/-- Numerator and denominator of the magnitude. -/
def Finite.ratio (x : Finite) : Nat × Nat := (x.m * twoTo x.q.toNat, twoTo (-x.q).toNat)

/-- The integer part. -/
def Finite.truncInt (x : Finite) : Int :=
  let (n, d) := x.ratio
  if x.negative then -(n / d : Nat) else (n / d : Nat)

/-- The greatest integer not above. -/
def Finite.floorInt (x : Finite) : Int :=
  let (n, d) := x.ratio
  if x.negative then -((n + d - 1) / d : Nat) else (n / d : Nat)

/-- The least integer not below. -/
def Finite.ceilInt (x : Finite) : Int :=
  let (n, d) := x.ratio
  if x.negative then -(n / d : Nat) else ((n + d - 1) / d : Nat)

/-- The nearest integer, a half to the even one. -/
def Finite.roundInt (x : Finite) : Int :=
  let (n, d) := x.ratio
  if x.negative then -(roundDiv n d : Nat) else (roundDiv n d : Nat)

/-- Exact comparison of a finite double with an integer. -/
def Finite.compareInt (x : Finite) (k : Int) : Ordering :=
  let (n, d) := x.ratio
  compare (if x.negative then -(n : Int) else n) (k * d)

/-- Exact comparison with an integer; nothing for NaN. -/
def compareInt (x : Float) (k : Int) : Option Ordering :=
  match decode x with
  | .nan => none
  | .infinite negative => some (if negative then .lt else .gt)
  | .finite f => some (f.compareInt k)

/-! ## Remainder -/

/-- The exact remainder of `x / y` with the sign of `x`, for finite `x` and finite non-zero `y`. -/
def Finite.remainder (x y : Finite) : Float :=
  let q := min x.q y.q
  let r := (x.m * twoTo (x.q - q).toNat) % (y.m * twoTo (y.q - q).toNat)
  withSign x.negative (ofRatio (r * twoTo q.toNat) (twoTo (-q).toNat))

/-- The remainder that division of `x` by `y` leaves, with the sign of `x`. -/
def remainder (x y : Float) : Float :=
  match decode x, decode y with
  | .finite a, .finite b => if b.m == 0 then nan else a.remainder b
  | .finite _, .infinite _ => x
  | _, _ => nan

end Patchbay.Binary64
