import Patchbay.Library.Palette
import Patchbay.Value.Order

/-!
# Truth values

Connectives and comparison. The second input of a connective is only pulled when the first does not
decide.
-/

namespace Patchbay.Library

open Patchbay.Action

/-- A data-only kind with one truth value. -/
def truthEntry (kind name : String) (inputs : List Port) (value : Action Value) :
    Declaration Behavior :=
  entry kind name "Logic" .expression inputs [yields "value" .boolean] none
    (fun _ => toScript do
      let v ← value
      pure (outputs [("value", v)]))

/-- Both inputs hold. -/
def both : Declaration Behavior :=
  truthEntry "logic.and" "And" [given "a" .boolean (.bool true), given "b" .boolean (.bool true)] do
    if ← pullTruth "a" then return .bool (← pullTruth "b") else return .bool false

/-- One of the inputs holds. -/
def either : Declaration Behavior :=
  truthEntry "logic.or" "Or" [given "a" .boolean (.bool false), given "b" .boolean (.bool false)] do
    if ← pullTruth "a" then return .bool true else return .bool (← pullTruth "b")

/-- The input does not hold. -/
def negation : Declaration Behavior :=
  truthEntry "logic.not" "Not" [given "val" .boolean (.bool true)] do
    return .bool (!(← pullTruth "val"))

/-- What a comparison operator finds of two values. -/
def comparison? (op : String) : Option (Value → Value → Except Fault Bool) :=
  let ordered (r : Relation) (u v : Value) : Except Fault Bool :=
    match Value.related? r u v with
    | some b => .ok b
    | none => .error .type
  match op with
  | "==" => some fun u v => .ok (u.same v)
  | "!=" => some fun u v => .ok (!u.same v)
  | "<" => some (ordered .lt)
  | "<=" => some (ordered .le)
  | ">" => some (ordered .gt)
  | ">=" => some (ordered .ge)
  | _ => none

/-- The comparison that a value names. -/
def comparisonOf (op : Value) : Action (Value → Value → Except Fault Bool) :=
  match op with
  | .str s => match comparison? s with
    | some f => pure f
    | none => unknown op
  | _ => if op.hashable then unknown op else fail (.fault .type)
where
  /-- Ends with the operator in words. -/
  unknown (op : Value) : Action (Value → Value → Except Fault Bool) := do
    let shown ← primitive (Value.worded op.repr)
    fail (.fault (.valueSaying s!"Unknown comparison operator {shown}"))

/-- Compares two values by a named operator. -/
def comparison : Declaration Behavior :=
  truthEntry "logic.compare" "Compare"
    [given "a" .any (.int 0), given "op" .string (.str "=="), given "b" .any (.int 0)] do
    let holds ← comparisonOf (← pull "op")
    let a ← pull "a"
    let b ← pull "b"
    return .bool (← primitive (holds a b))

end Patchbay.Library
