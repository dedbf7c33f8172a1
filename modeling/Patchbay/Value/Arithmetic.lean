import Patchbay.Fault
import Patchbay.Value.Basic

/-!
# Arithmetic of values

Integers are unbounded; an operation with a double is done in doubles, and an integer out of the
range of doubles is then an overflow. Quotients of integers are correctly rounded doubles. Floor
division rounds down and the remainder has the sign of the divisor. Addition also joins sequences,
and multiplication repeats them.

Contents:
* `Value.add`, `Value.sub`, `Value.mul`, `Value.div`, `Value.floorDiv`, `Value.mod`, `Value.pow`.
* `Value.neg`, `Value.pos`, `Value.abs`.
-/

namespace Patchbay.Value

/-! ## Numbers -/

/-- A number as arithmetic sees it. -/
inductive Num where
  | int (n : Int)
  | float (x : Float)
  | complex (re im : Float)

/-- The number a value is. -/
def num? : Value → Option Num
  | bool b => some (.int (if b then 1 else 0))
  | int n => some (.int n)
  | float x => some (.float x)
  | complex re im => some (.complex re im)
  | _ => none

/-- The double nearest to an integer, an overflow out of range. -/
def floatOfInt (n : Int) : Except Fault Float :=
  match Binary64.ofInt? n with
  | some x => .ok x
  | none => .error .overflow

/-- An operation given on integers, doubles and complex numbers, at the wider of its arguments. -/
def widen (onInt : Int → Int → Except Fault Value) (onFloat : Float → Float → Except Fault Value)
    (onComplex : Float × Float → Float × Float → Except Fault Value) (a b : Num) :
    Except Fault Value :=
  match a, b with
  | .int m, .int n => onInt m n
  | .int m, .float y => do onFloat (← floatOfInt m) y
  | .float x, .int n => do onFloat x (← floatOfInt n)
  | .float x, .float y => onFloat x y
  | .complex p q, .complex r s => onComplex (p, q) (r, s)
  | .complex p q, .int n => do onComplex (p, q) (← floatOfInt n, 0.0)
  | .complex p q, .float y => onComplex (p, q) (y, 0.0)
  | .int m, .complex r s => do onComplex (← floatOfInt m, 0.0) (r, s)
  | .float x, .complex r s => onComplex (x, 0.0) (r, s)

/-- Product of two complex numbers. -/
def complexMul (a b : Float × Float) : Float × Float :=
  (a.1 * b.1 - a.2 * b.2, a.1 * b.2 + a.2 * b.1)

/-- Quotient of two complex numbers, scaled by the larger part of the divisor. -/
def complexDiv (a b : Float × Float) : Except Fault (Float × Float) :=
  if b.1.abs >= b.2.abs then
    if b.1.abs == 0.0 then .error .zeroDivision
    else
      let ratio := b.2 / b.1
      let denom := b.1 + b.2 * ratio
      .ok ((a.1 + a.2 * ratio) / denom, (a.2 - a.1 * ratio) / denom)
  else if b.2.abs >= b.1.abs then
    let ratio := b.1 / b.2
    let denom := b.1 * ratio + b.2
    .ok ((a.1 * ratio + a.2) / denom, (a.2 * ratio - a.1) / denom)
  else .ok (Binary64.nan, Binary64.nan)

/-- A complex value from its parts. -/
def ofParts (p : Float × Float) : Value := complex p.1 p.2

/-! ## Sums and products -/

/-- Sum of two numbers, or joined sequences of one type. -/
def add (u v : Value) : Except Fault Value :=
  match u, v with
  | str s, str t => .ok (str (s ++ t))
  | list xs, list ys => .ok (list (xs ++ ys))
  | tuple xs, tuple ys => .ok (tuple (xs ++ ys))
  | u, v => match u.num?, v.num? with
    | some a, some b => widen (fun m n => .ok (int (m + n))) (fun x y => .ok (float (x + y)))
        (fun p q => .ok (complex (p.1 + q.1) (p.2 + q.2))) a b
    | _, _ => .error .type

/-- Difference of two numbers. -/
def sub (u v : Value) : Except Fault Value :=
  match u.num?, v.num? with
  | some a, some b => widen (fun m n => .ok (int (m - n))) (fun x y => .ok (float (x - y)))
      (fun p q => .ok (complex (p.1 - q.1) (p.2 - q.2))) a b
  | _, _ => .error .type

/-- Counts and positions beyond this have no place in a sequence. -/
def maxIndex : Int := twoTo 63 - 1

/-- A list repeated `n` times. -/
def repeatList {α : Type} (xs : List α) (n : Int) : List α :=
  if xs.isEmpty then [] else (List.replicate n.toNat xs).flatten

/-- A sequence repeated; a count that is no position is an overflow. -/
def repeated (u : Value) (n : Int) : Except Fault Value :=
  if n > maxIndex || n < -maxIndex - 1 then .error .overflow
  else match u with
    | str s => .ok (str (String.ofList (repeatList s.toList n)))
    | list xs => .ok (list (repeatList xs n))
    | tuple xs => .ok (tuple (repeatList xs n))
    | _ => .error .type

/-- Whether a value is a text, list or tuple. -/
def isSequence : Value → Bool
  | str _ | list _ | tuple _ => true
  | _ => false

/-- Product of two numbers, or a sequence repeated. -/
def mul (u v : Value) : Except Fault Value :=
  match u.num?, v.num? with
  | some a, some b => widen (fun m n => .ok (int (m * n))) (fun x y => .ok (float (x * y)))
      (fun p q => .ok (ofParts (complexMul p q))) a b
  | _, _ =>
    if u.isSequence then match v.asInt? with
      | some n => u.repeated n
      | none => .error .type
    else if v.isSequence then match u.asInt? with
      | some n => v.repeated n
      | none => .error .type
    else .error .type

/-! ## Quotients -/

/-- The correctly rounded quotient of two integers. -/
def divInt (m n : Int) : Except Fault Value :=
  if n == 0 then .error .zeroDivision
  else
    let x := Binary64.ofRatio m.natAbs n.natAbs
    if x.isInf then .error .overflow
    else .ok (float (Binary64.withSign ((m < 0) != (n < 0)) x))

/-- Quotient of two numbers. -/
def div (u v : Value) : Except Fault Value :=
  match u.num?, v.num? with
  | some a, some b => widen divInt
      (fun x y => if y == 0.0 then .error .zeroDivision else .ok (float (x / y)))
      (fun p q => return ofParts (← complexDiv p q)) a b
  | _, _ => .error .type

/-- Remainder of doubles, with the sign of the divisor. -/
def modFloat (x y : Float) : Float :=
  let r := Binary64.remainder x y
  if r != 0.0 then (if (y < 0.0) != (r < 0.0) then r + y else r)
  else Binary64.withSign (Binary64.signBit y) 0.0

/-- Floor division of doubles. -/
def floorDivFloat (x y : Float) : Float :=
  let r := Binary64.remainder x y
  let q := (x - r) / y
  let q := if r != 0.0 && (y < 0.0) != (r < 0.0) then q - 1.0 else q
  if q != 0.0 then
    let f := q.floor
    if q - f > 0.5 then f + 1.0 else f
  else Binary64.withSign (Binary64.signBit (x / y)) 0.0

/-- Quotient rounded down. -/
def floorDiv (u v : Value) : Except Fault Value :=
  match u.num?, v.num? with
  | some a, some b => widen
      (fun m n => if n == 0 then .error .zeroDivision else .ok (int (m.fdiv n)))
      (fun x y => if y == 0.0 then .error .zeroDivision else .ok (float (floorDivFloat x y)))
      (fun _ _ => .error .type) a b
  | _, _ => .error .type

/-- Remainder of floor division. -/
def modNumber (u v : Value) : Except Fault Value :=
  match u.num?, v.num? with
  | some a, some b => widen
      (fun m n => if n == 0 then .error .zeroDivision else .ok (int (m.fmod n)))
      (fun x y => if y == 0.0 then .error .zeroDivision else .ok (float (modFloat x y)))
      (fun _ _ => .error .type) a b
  | _, _ => .error .type

/-! ## Powers -/

/-- Whether a double is an odd whole number. -/
def isOddFloat (x : Float) : Bool := Binary64.remainder x.abs 2.0 == 1.0

/-- Power of doubles. A negative base with a fractional exponent gives a complex number. -/
def powFloat (x y : Float) : Except Fault Value :=
  if y == 0.0 then .ok (float 1.0)
  else if x.isNaN then .ok (float x)
  else if y.isNaN then .ok (float (if x == 1.0 then 1.0 else y))
  else if y.isInf then
    let a := x.abs
    if a == 1.0 then .ok (float 1.0)
    else if (y > 0.0) == (a > 1.0) then .ok (float y.abs)
    else .ok (float 0.0)
  else if x.isInf then
    let odd := isOddFloat y
    if y > 0.0 then .ok (float (if odd then x else x.abs))
    else .ok (float (if odd then Binary64.withSign (Binary64.signBit x) 0.0 else 0.0))
  else if x == 0.0 then
    if y < 0.0 then .error .zeroDivision
    else .ok (float (if isOddFloat y then x else 0.0))
  else if x < 0.0 && y != y.floor then
    let length := Float.pow x.abs y
    let phase := Float.atan2 0.0 x * y
    .ok (complex (length * phase.cos) (length * phase.sin))
  else
    let negate := x < 0.0 && isOddFloat y
    let r := if x.abs == 1.0 then 1.0 else Float.pow x.abs y
    if r.isInf then .error .overflow
    else .ok (float (if negate then -r else r))

/-- A complex number raised to a small whole exponent by repeated squaring; `fuel` bounds the bits of
the exponent. -/
def complexPowNat : Nat → Float × Float → Float × Float → Nat → Float × Float
  | 0, acc, _, _ => acc
  | fuel + 1, acc, p, n =>
    if n == 0 then acc
    else complexPowNat fuel (if n % 2 == 1 then complexMul acc p else acc) (complexMul p p) (n / 2)

/-- Power of complex numbers. -/
def powComplex (a b : Float × Float) : Except Fault Value :=
  if b.1 == 0.0 && b.2 == 0.0 then .ok (complex 1.0 0.0)
  else if a.1 == 0.0 && a.2 == 0.0 then
    if b.2 != 0.0 || b.1 < 0.0 then .error .zeroDivision else .ok (complex 0.0 0.0)
  else if b.2 == 0.0 && b.1 == b.1.floor && b.1.abs <= 100.0 then
    let n := b.1.abs.toUInt64.toNat
    let p := complexPowNat 8 (1.0, 0.0) a n
    if b.1 > 0.0 then .ok (ofParts p) else return ofParts (← complexDiv (1.0, 0.0) p)
  else
    let size := Float.sqrt (a.1 * a.1 + a.2 * a.2)
    let angle := Float.atan2 a.2 a.1
    let length := Float.pow size b.1
    let length := if b.2 != 0.0 then length * Float.exp (-(angle * b.2)) else length
    let phase := angle * b.1
    let phase := if b.2 != 0.0 then phase + b.2 * Float.log size else phase
    .ok (complex (length * phase.cos) (length * phase.sin))

/-- Power of two numbers; integers stay integers under exponents that are not negative. -/
def pow (u v : Value) : Except Fault Value :=
  match u.num?, v.num? with
  | some a, some b => widen
      (fun m n =>
        if n ≥ 0 then .ok (int (Int.pow m n.toNat))
        else do powFloat (← floatOfInt m) (← floatOfInt n))
      powFloat powComplex a b
  | _, _ => .error .type

/-! ## Signs -/

/-- The number with the other sign. -/
def neg (u : Value) : Except Fault Value :=
  match u.num? with
  | some (.int n) => .ok (int (-n))
  | some (.float x) => .ok (float (-x))
  | some (.complex re im) => .ok (complex (-re) (-im))
  | none => .error .type

/-- The number itself; a truth value becomes an integer. -/
def pos (u : Value) : Except Fault Value :=
  match u.num? with
  | some (.int n) => .ok (int n)
  | some _ => .ok u
  | none => .error .type

/-- The size of a number. -/
def abs (u : Value) : Except Fault Value :=
  match u.num? with
  | some (.int n) => .ok (int n.natAbs)
  | some (.float x) => .ok (float x.abs)
  | some (.complex re im) =>
    let size := Float.sqrt (re * re + im * im)
    if size.isInf && !re.isInf && !im.isInf then .error .overflow else .ok (float size)
  | none => .error .type

end Patchbay.Value
