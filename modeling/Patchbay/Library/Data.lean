import Patchbay.Json.Reader
import Patchbay.Library.Palette

/-!
# Data

Variables, JSON and arrays.
-/

namespace Patchbay.Library

open Patchbay.Action

/-- Writes a variable. -/
def setVariable : Declaration Behavior :=
  entry "var.set" "Set Variable" "Data" .statement
    [given "name" .string (.str "myVar"), given "value" .any (.int 0)] []
    (some "Write a value into the global variable store.")
    (fun _ => toScript do
      let name ← pullText "name"
      let v ← pull "value"
      ask (.setVariable name v)
      pure .null)

/-- Reads a variable. -/
def getVariable : Declaration Behavior :=
  entry "var.get" "Get Variable" "Data" .expression
    [given "name" .string (.str "myVar")] [yields "value" .any]
    (some "Read a global variable; None when it was never set.")
    (fun _ => toScript do
      let name ← pullText "name"
      let v ← ask (.readVariable name)
      pure (outputs [("value", v.getD .null)]))

/-- The value of a JSON text. -/
def parseJson (text : String) : Except Fault Value :=
  match Json.read .literal text with
  | .ok v => .ok v
  | .error .malformed => .error .json
  | .error .tooManyDigits => .error .value

/-- Reads JSON; what is no text passes through. -/
def jsonParse : Declaration Behavior :=
  entry "data.json_parse" "JSON Parse" "Data" .expression
    [given "json" .string (.str "\x7b\x7d")] [yields "value" .any] none
    (fun _ => toScript do
      let v ← match ← pull "json" with
        | .str s => primitive (parseJson s)
        | v => pure v
      pure (outputs [("value", v)]))

/-- An array input. -/
def arrayInput : Port := given "array" .array (.list [])

/-- Splits off the last item. -/
def arrayPop : Declaration Behavior :=
  entry "array.pop" "Array Pop" "Data" .expression
    [arrayInput] [yields "value" .any, yields "rest" .array]
    (some ("Split off the last element. Both outputs are produced by one invocation,\n" ++
      "    so pulling ``value`` and ``rest`` in the same trigger sees one pop.\n    The input array is not modified."))
    (fun _ => toScript do
      let items ← pullItems "array"
      pure (outputs [("value", items.getLast?.getD .null), ("rest", .list items.dropLast)]))

/-- Adds an item at the end. -/
def arrayPush : Declaration Behavior :=
  entry "array.push" "Array Push" "Data" .expression
    [arrayInput, given "item" .any .null] [yields "value" .array] none
    (fun _ => toScript do
      let items ← pullItems "array"
      let item ← pull "item"
      pure (outputs [("value", .list (items ++ [item]))]))

end Patchbay.Library
