import Patchbay.Behavior.Action

/-!
# Palette entries

How the kinds of the library are declared.

Contents:
* `given`: inputs with a literal; `yields`, `leads`: data and control flow outputs.
* `entry`: a kind with a behaviour.
-/

namespace Patchbay.Library

/-- A data input with a literal. -/
def given (id : String) (t : ValueType) (literal : Value) : Port :=
  { id := id, direction := .input, valueType := t, default := some literal }

/-- A data output. -/
def yields (id : String) (t : ValueType) : Port := { id := id, direction := .output, valueType := t }

/-- A control flow output. -/
def leads (id : String) : Port := { id := id, direction := .output, valueType := .exec }

/-- A kind with a behaviour, in a category of the palette. -/
def entry (kind name category : String) (shape : Shape) (inputs outputs : List Port)
    (about : Option String) (behavior : Behavior) : Declaration Behavior where
  kind := kind
  displayName := some name
  category := some category
  inputs := .listed inputs
  outputs := .listed outputs
  behavior := some behavior
  shape := shape.name
  description := about

end Patchbay.Library
