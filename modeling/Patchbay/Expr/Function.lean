import Patchbay.Text.Casing
import Patchbay.Value.Order
import Patchbay.Value.Rounding
import Patchbay.Value.Sequence
import Patchbay.Value.Show

/-!
# Functions of expressions

The fixed table of pure functions that an expression may call, and the constants it may name.

Contents:
* `Function`, `Function.ofName?`, `Function.apply`.
* `constant?`: the constants.
* `toInteger`, `toFloat`: conversions, which the built-in kinds use too.
-/

namespace Patchbay.Expr

/-- The functions of the table. -/
inductive Function where
  | abs
  | min
  | max
  | round
  | len
  | str
  | int
  | float
  | bool
  | sum
  | sorted
  | upper
  | lower
  | sqrt
  | floor
  | ceil
  | sin
  | cos
deriving DecidableEq

/-- The name of a function. -/
def Function.name : Function → String
  | .abs => "abs"
  | .min => "min"
  | .max => "max"
  | .round => "round"
  | .len => "len"
  | .str => "str"
  | .int => "int"
  | .float => "float"
  | .bool => "bool"
  | .sum => "sum"
  | .sorted => "sorted"
  | .upper => "upper"
  | .lower => "lower"
  | .sqrt => "sqrt"
  | .floor => "floor"
  | .ceil => "ceil"
  | .sin => "sin"
  | .cos => "cos"

/-- All functions. -/
def Function.all : List Function :=
  [.abs, .min, .max, .round, .len, .str, .int, .float, .bool, .sum, .sorted, .upper, .lower, .sqrt,
    .floor, .ceil, .sin, .cos]

/-- The function with a name. -/
def Function.ofName? (s : String) : Option Function := Function.all.find? fun f => f.name == s

/-- The constants. -/
def constants : Named :=
  [("true", .bool true), ("false", .bool false), ("null", .null),
    ("pi", .float 3.141592653589793)]

/-! ## Conversions -/

/-- A value as an integer: doubles are cut, texts are read. -/
def toInteger (v : Value) : Except Fault Value :=
  match v with
  | .float x => Value.integerBeside Binary64.Finite.truncInt x
  | .str s => match Decimal.intOfText? 10 s with
    | some n => .ok (.int n)
    | none => .error .value
  | v => match v.asInt? with
    | some n => .ok (.int n)
    | none => .error .type

/-- A text as an integer in a base. -/
def toIntegerIn (v base : Value) : Except Fault Value :=
  match base.asInt? with
  | none => .error .type
  | some b =>
    if (b != 0 && b < 2) || b > 36 then .error .value
    else match v with
      | .str s => match Decimal.intOfText? b.toNat s with
        | some n => .ok (.int n)
        | none => .error .value
      | _ => .error .type

/-- A value as a double: texts are read. -/
def toFloat (v : Value) : Except Fault Float :=
  match v with
  | .float x => .ok x
  | .str s => match Decimal.floatOfText? s with
    | some x => .ok x
    | none => .error .value
  | v => match v.asInt? with
    | some n => Value.floatOfInt n
    | none => .error .type

/-- A number as a double. -/
def realOf (v : Value) : Except Fault Float :=
  match v with
  | .str _ => .error .type
  | v => toFloat v

/-! ## Application -/

/-- What an extreme is taken of: several arguments, or the items of a single one. -/
def candidates : List Value → Except Fault (List Value)
  | [] => .error .type
  | [v] => v.items
  | vs => .ok vs

/-- The extreme of several arguments, or of the items of a single one. -/
def extremeOf (r : Relation) (args : List Value) : Except Fault Value := do
  match ← candidates args with
  | [] => .error .value
  | x :: rest => match Value.extreme? r x rest with
    | some v => .ok v
    | none => .error .type

/-- The sum of items from a start, which must not be text. -/
def sumFrom (start : Value) (v : Value) : Except Fault Value := do
  let xs ← v.items
  match start with
  | .str _ => .error .type
  | start => xs.foldlM Value.add start

/-- A function on doubles that has no value at infinities. -/
def onFinite (f : Float → Float) (v : Value) : Except Fault Value := do
  let x ← realOf v
  if x.isInf then .error .value else return .float (f x)

/-- The square root of a number. -/
def squareRoot (v : Value) : Except Fault Value := do
  let x ← realOf v
  if x < 0.0 then .error .value else return .float x.sqrt

/-- The value of a function at its arguments. -/
def Function.apply (f : Function) (args : List Value) : Except Fault Value :=
  match f, args with
  | .min, args => extremeOf .lt args
  | .max, args => extremeOf .gt args
  | .abs, [v] => v.abs
  | .round, [v] => v.rounded none
  | .round, [v, p] => v.rounded (some p)
  | .len, [v] => return .int (← v.size)
  | .str, [] => .ok (.str "")
  | .str, [v] => return .str (← v.toText)
  | .int, [] => .ok (.int 0)
  | .int, [v] => toInteger v
  | .int, [v, b] => toIntegerIn v b
  | .float, [] => .ok (.float 0.0)
  | .float, [v] => return .float (← toFloat v)
  | .bool, [] => .ok (.bool false)
  | .bool, [v] => .ok (.bool v.truthy)
  | .sum, [v] => sumFrom (.int 0) v
  | .sum, [v, start] => sumFrom start v
  | .sorted, [v] => do
    let xs ← v.items
    match Value.sort? xs with
    | some ys => return .list ys
    | none => .error .type
  | .upper, [v] => return .str (Text.upper (← v.toText))
  | .lower, [v] => return .str (Text.lower (← v.toText))
  | .sqrt, [v] => squareRoot v
  | .floor, [v] => v.floored
  | .ceil, [v] => v.ceiled
  | .sin, [v] => onFinite Float.sin v
  | .cos, [v] => onFinite Float.cos v
  | _, _ => .error .type

end Patchbay.Expr
