import Patchbay.Behavior.Script
import Patchbay.Coerce

/-!
# Actions

A way to write scripts step by step: an action is given what follows it. Errors of a step end the
script.

Contents:
* `Action`, its monad, `Action.toScript`.
* One action for each request, `Action.primitive` for operations that may be a fault.
* `Action.again`: starting over.
* `Behavior.ofExpression`: the behaviour of a kind given by an expression.
-/

namespace Patchbay

/-- A step of a script that yields an `α`: the script, for every script that follows it. -/
def Action (α : Type) := (α → Script) → Script

namespace Action

instance : Monad Action where
  pure a := fun k => k a
  bind m f := fun k => m fun a => f a k

variable {α : Type}

/-- The script of an action that yields a result. -/
def toScript (a : Action Value) : Script := a .finish

/-- Ends the script with an error. -/
def fail (e : Raised) : Action α := fun _ => .fail e

/-- Ends the script, which starts over with a local state. -/
def again (s : Value) : Action α := fun _ => .again s

/-- Goes on with a result, or ends with an error. -/
def ofExcept (r : Except Raised α) : Action α := fun k => match r with
  | .ok a => k a
  | .error e => .fail e

/-- An operation that may be a fault. -/
def primitive (r : Except Fault α) : Action α := ofExcept (Fault.lift r)

/-- Asks, and ends with the error if that is the answer. -/
def ask (q : Query) : Action q.Reply := fun k => .ask q fun r => ofExcept r k

/-- Waits, and ends with the error if that is the answer. -/
def wait (w : Wait) : Action w.Reply := fun k => .wait w fun r => ofExcept r k

/-- The value of a data input. -/
def pull (port : String) : Action Value := wait (.pull port)

/-- Runs what a control flow output leads to. -/
def advance (port : String) : Action Unit := wait (.advance port)

/-- Lets others run; whether execution goes on. -/
def checkpoint : Action Bool := wait .checkpoint

/-- Lets a time pass; whether it elapsed and execution goes on. -/
def sleep (seconds : Value) : Action Bool := wait (.sleep seconds)

/-- The value of a data input in the representation of a type. -/
def pullAs (t : ValueType) (port : String) : Action Value := do
  let v ← pull port
  primitive (coerce v t)

/-- The text of a data input. -/
def pullText (port : String) : Action String := do
  let v ← pullAs .string port
  match v with
  | .str s => pure s
  | _ => fail (.fault .type)

/-- Whether a data input counts as true. -/
def pullTruth (port : String) : Action Bool := do
  let v ← pullAs .boolean port
  pure v.truthy

/-- The number at a data input; anything else is a fault in words. -/
def pullNumber (port : String) : Action Value := do
  let v ← pullAs .number port
  match v with
  | .int _ => pure v
  | .float _ => pure v
  | v => do
    let shown ← primitive (Value.worded v.repr)
    fail (.fault (.typeSaying s!"Input '{port}' is not a number: {shown}"))

/-- The items at a data input; anything but a list is a fault in words. -/
def pullItems (port : String) : Action (List Value) := do
  let v ← pullAs .array port
  match v with
  | .list xs => pure xs
  | .tuple xs => pure xs
  | v => do
    let shown ← primitive (Value.worded v.repr)
    fail (.fault (.typeSaying s!"Input '{port}' is not an array: {shown}"))

/-- The outputs of a node under their ports. -/
def outputs (os : Named) : Value := os.toValue

/-- The values of several inputs, under their names. -/
def pullAll : List String → Action Named
  | [] => pure []
  | port :: rest => do
    let v ← pull port
    let vs ← pullAll rest
    pure ((port, v) :: vs)

end Action

/-- The behaviour of a kind given by an expression: it sees the inputs under their names. -/
def Behavior.ofExpression (e : Expr.Expression) (inputs : List String) : Behavior := fun _ =>
  Action.toScript do
    let names ← Action.pullAll inputs
    let v ← Action.ofExcept (e.evaluate (Named.ofEntries names))
    pure (Action.outputs [("value", v)])

end Patchbay
