import Patchbay.Fault
import Patchbay.Value.Basic

/-!
# Ports

A node has input and output ports. A port carries control flow or values of a declared type; a data
input may declare the literal it has when nothing is wired to it.

Contents:
* `ValueType`, `Direction`, `Shape` with their names.
* `Port`, `Port.declare`.
-/

namespace Patchbay

/-- What a port carries. -/
inductive ValueType where
  | exec
  | string
  | number
  | boolean
  | object
  | array
  | any
deriving DecidableEq

/-- The name of a value type. -/
def ValueType.name : ValueType → String
  | .exec => "exec"
  | .string => "string"
  | .number => "number"
  | .boolean => "boolean"
  | .object => "object"
  | .array => "array"
  | .any => "any"

/-- The value type with a name. -/
def ValueType.ofName? (s : String) : Option ValueType :=
  [.exec, .string, .number, .boolean, .object, .array, .any].find? fun t => t.name == s

/-- Whether a port receives or produces. -/
inductive Direction where
  | input
  | output
deriving DecidableEq

/-- The name of a direction. -/
def Direction.name : Direction → String
  | .input => "in"
  | .output => "out"

/-- The direction with a name. -/
def Direction.ofName? (s : String) : Option Direction :=
  [.input, .output].find? fun d => d.name == s

/-- How nodes of a kind take part in control flow: statements are reached and left by it,
expressions only carry data, events start it. -/
inductive Shape where
  | statement
  | expression
  | event
deriving DecidableEq

/-- The name of a shape. -/
def Shape.name : Shape → String
  | .statement => "statement"
  | .expression => "expression"
  | .event => "event"

/-- The shape with a name. -/
def Shape.ofName? (s : String) : Option Shape :=
  [.statement, .expression, .event].find? fun x => x.name == s

/-- The port that control flow takes when nothing else is said. -/
def execPort : String := "exec"

/-- One declared port. -/
structure Port where
  id : String
  direction : Direction := .input
  valueType : ValueType := .any
  /-- the literal of an input to which nothing is wired -/
  default : Option Value := none
  description : Value := .null

namespace Port

/-- Whether a port carries control flow. -/
def isExec (p : Port) : Bool := p.valueType == .exec

/-- An input for control flow. -/
def execIn : Port := { id := execPort, direction := .input, valueType := .exec }

/-- An output for control flow. -/
def execOut : Port := { id := execPort, direction := .output, valueType := .exec }

/-- The direction that a value names. -/
def directionOf : Value → Except Fault Direction
  | .str s => match Direction.ofName? s with
    | some d => .ok d
    | none => .error .value
  | _ => .error .value

/-- The value type that a value names. -/
def valueTypeOf : Value → Except Fault ValueType
  | .str s => match ValueType.ofName? s with
    | some t => .ok t
    | none => .error .value
  | _ => .error .value

/-- Declares a port; direction and type are given by name. A port for control flow has no literal. -/
def declare (id : String) (direction : Value := .str "in") (valueType : Value := .str "any")
    (default : Option Value := none) (description : Value := .null) : Except Fault Port := do
  let d ← directionOf direction
  let t ← valueTypeOf valueType
  if t == .exec && default.isSome then
    throw (.valueSaying s!"Exec port '{id}' cannot declare a default literal")
  return ⟨id, d, t, default, description⟩

end Port

end Patchbay
