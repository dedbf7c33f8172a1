import Patchbay.Decimal.Layout
import Patchbay.Value.Arithmetic

/-!
# Rounding of values

Rounding to a number of decimal places goes to the nearest decimal of the exact value, a half to the
even digit. Without places the result is an integer. Negative places round to tens and hundreds.

Contents:
* `Value.truncated`, `Value.floored`, `Value.ceiled`: the integers beside a number.
* `Value.rounded`: rounding with and without places.
-/

namespace Patchbay.Value

/-- The integer that a function picks beside a double. -/
def integerBeside (pick : Binary64.Finite → Int) (x : Float) : Except Fault Value :=
  match Binary64.decode x with
  | .nan => .error .value
  | .infinite _ => .error .overflow
  | .finite f => .ok (int (pick f))

/-- The greatest integer not above a number. -/
def floored (v : Value) : Except Fault Value :=
  match v with
  | float x => integerBeside Binary64.Finite.floorInt x
  | v => match v.asInt? with
    | some n => .ok (int n)
    | none => .error .type

/-- The least integer not below a number. -/
def ceiled (v : Value) : Except Fault Value :=
  match v with
  | float x => integerBeside Binary64.Finite.ceilInt x
  | v => match v.asInt? with
    | some n => .ok (int n)
    | none => .error .type

/-- An integer rounded to a multiple of a power of ten, a half to the even multiple. -/
def roundInt (n : Int) (places : Int) : Int :=
  if places ≥ 0 then n
  else
    let k := places.natAbs
    if k > (Nat.repr n.natAbs).length + 1 then 0
    else
      let p := tenTo k
      let q : Int := Binary64.roundDiv n.natAbs p
      (if n < 0 then -q else q) * p

/-- A double rounded to places after the point. -/
def roundFloat (x : Float) (places : Int) : Except Fault Value :=
  match Binary64.decode x with
  | .finite f =>
    if places > 323 then .ok (float x)
    else if places < -308 then .ok (float (Binary64.withSign f.negative 0.0))
    else
      let units := Decimal.unitsAt f places
      let r := Binary64.ofRatio (units * tenTo (-places).toNat) (tenTo places.toNat)
      if r.isInf then .error .overflow else .ok (float (Binary64.withSign f.negative r))
  | _ => .ok (float x)

/-- A number rounded, to an integer when no places are given. -/
def rounded (v : Value) (places : Option Value) : Except Fault Value :=
  match v with
  | float x => match places with
    | none | some null => integerBeside Binary64.Finite.roundInt x
    | some p => match p.asInt? with
      | some k => roundFloat x k
      | none => .error .type
  | v => match v.asInt? with
    | none => .error .type
    | some n => match places with
      | none | some null => .ok (int n)
      | some p => match p.asInt? with
        | some k => .ok (int (roundInt n k))
        | none => .error .type

end Patchbay.Value
