import Patchbay.Expr.Function
import Patchbay.Library.Palette
import Patchbay.Value.Arithmetic

/-!
# Numbers

Data-only kinds that read numbers and yield one.
-/

namespace Patchbay.Library

open Patchbay.Action

/-- A number input with a literal. -/
def number (id : String) (literal : Int) : Port := given id .number (.int literal)

/-- A data-only kind with one number. -/
def numberEntry (kind name : String) (inputs : List Port) (about : Option String)
    (value : Action Value) : Declaration Behavior :=
  entry kind name "Math" .expression inputs [yields "value" .number] about
    (fun _ => toScript do
      let v ← value
      pure (outputs [("value", v)]))

/-- A kind that combines the numbers `a` and `b`. -/
def binaryEntry (kind name : String) (literal : Int) (about : Option String)
    (f : Value → Value → Except Fault Value) : Declaration Behavior :=
  numberEntry kind name [number "a" literal, number "b" literal] about do
    let a ← pullNumber "a"
    let b ← pullNumber "b"
    primitive (f a b)

/-- The sum. -/
def sum : Declaration Behavior := binaryEntry "math.add" "Add" 0 none Value.add

/-- The difference. -/
def difference : Declaration Behavior := binaryEntry "math.sub" "Subtract" 0 none Value.sub

/-- The product. -/
def product : Declaration Behavior := binaryEntry "math.mul" "Multiply" 1 none Value.mul

/-- The quotient; zero is no divisor. -/
def quotient : Declaration Behavior :=
  binaryEntry "math.div" "Divide" 1 (some "Divide a by b; dividing by zero fails the node.") Value.div

/-- A number between two bounds; where it lies between them is of no concern here, and it is their
midpoint. -/
def between (low high : Value) : Except Fault Value := do
  let span ← Value.sub high low
  Value.add low (← Value.mul span (.float 0.5))

/-- Some number between two bounds. -/
def someNumber : Declaration Behavior :=
  numberEntry "math.random" "Random Float" [number "min" 0, number "max" 1]
    (some "Uniform float in [min, max), drawn once per trigger.") do
    let low ← pullNumber "min"
    let high ← pullNumber "max"
    primitive (between low high)

/-- A number moved into a range: the lower bound first, then the upper one. -/
def clampTo (v low high : Value) : Value :=
  let raised := if Value.related? .gt low v == some true then low else v
  if Value.related? .lt high raised == some true then high else raised

/-- A number moved into a range. -/
def clamp : Declaration Behavior :=
  numberEntry "math.clamp" "Clamp" [number "val" 0, number "min" 0, number "max" 100] none do
    let v ← pullNumber "val"
    let low ← pullNumber "min"
    let high ← pullNumber "max"
    return clampTo v low high

/-- The sine of an angle in degrees; an infinite angle has none. -/
def sineOf (degrees : Value) : Except Fault Value := do
  let x ← Expr.realOf degrees
  let radians := x * (3.141592653589793 / 180.0)
  if radians.isInf then throw .value
  return .float radians.sin

/-- The sine of an angle in degrees. -/
def sine : Declaration Behavior :=
  numberEntry "math.sin" "Sine" [number "deg" 0] (some "Sine of an angle given in degrees.") do
    primitive (sineOf (← pullNumber "deg"))

end Patchbay.Library
