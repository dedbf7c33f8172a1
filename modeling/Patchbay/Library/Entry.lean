import Patchbay.Library.Palette
import Patchbay.Expr.Function

/-!
# Entry points

Kinds at which triggers begin: the start of a run, intervals, and external events. An interval and a
listener keep their registration in the node's state.
-/

namespace Patchbay.Library

open Patchbay.Action

/-- The key under which an entry point keeps its registration. -/
def registrationKey : String := "registration"

/-- The start of a run. -/
def start : Declaration Behavior where
  kind := "event.start"
  displayName := some "On Start"
  category := some "Events"
  shape := Shape.event.name
  description := some "Entry point; every start node runs as its own root trigger."

/-- Milliseconds as seconds. -/
def secondsOf (ms : Value) : Action Value := do
  let x ← primitive (Expr.toFloat ms)
  pure (.float (x / 1000.0))

/-- A trigger every so many milliseconds. -/
def interval : Declaration Behavior :=
  { entry "time.interval" "On Interval" "Time" .event
      [given "ms" .number (.int 1000)] [yields "tick" .number]
      (some "Start a new root trigger every ``ms`` milliseconds.")
      (fun _ => toScript do
        let seconds ← secondsOf (← pull "ms")
        let id ← ask (.every seconds execPort)
        ask (.keep registrationKey (.registration id))
        pure .null) with
    autoContinue := false
    teardown := some (.forget registrationKey) }

/-- A trigger at each event of a name; an empty name is none. -/
def listener : Declaration Behavior :=
  { entry "event.listen" "On Event" "Events" .event
      [given "name" .string (.str "")] [yields "payload" .any]
      (some "Start a new root trigger each time the named external event arrives.")
      (fun _ => toScript do
        let name ← pull "name"
        if name.truthy then
          let id ← ask (.listen name execPort)
          ask (.keep registrationKey (.registration id))
        pure .null) with
    autoContinue := false
    teardown := some (.forget registrationKey) }

end Patchbay.Library
