import Patchbay.Node
import Patchbay.Notice
import Patchbay.Scope

/-!
# Requests of behaviours

What a behaviour may ask of the engine that runs it. Questions are answered at once. Waits may take
time: other triggers run meanwhile.

Contents:
* `Situation`: what a behaviour may know about its own invocation.
* `Query` and `Query.Reply`.
* `Wait` and `Wait.Reply`.
-/

namespace Patchbay

/-- What a behaviour may know about its own invocation. -/
structure Situation where
  node : String
  kind : String
  mode : Mode
  running : Bool
  /-- outputs it has continued control flow along -/
  advanced : List String
  halted : Bool

/-- A request that is answered at once. -/
inductive Query where
  /-- the literal of an input, whatever is wired to it -/
  | input (port : String)
  /-- publishes an output for the rest of the trigger -/
  | memoize (port : String) (v : Value)
  /-- writes to the program log -/
  | log (level message : Value)
  | setVariable (name : String) (v : Value)
  | readVariable (name : String)
  | readVariables
  /-- what the node keeps under a key -/
  | kept (key : String)
  | keep (key : String) (c : Cell)
  /-- control flow shall not continue by itself -/
  | halt
  /-- starts a trigger from an output again and again -/
  | every (seconds : Value) (port : String)
  /-- starts one trigger from an output later -/
  | fireLater (seconds : Value) (port : String)
  /-- starts a trigger from an output at each event of a name -/
  | listen (event : Value) (port : String)
  /-- cancels what the node has registered -/
  | cancelOwn
  | situation
  | dependencies
  /-- milliseconds since the epoch -/
  | clock

/-- What a request is answered with. -/
abbrev Query.Reply : Query → Type
  | input _ => Option Value
  | memoize _ _ => Unit
  | log _ _ => Unit
  | setVariable _ _ => Unit
  | readVariable _ => Option Value
  | readVariables => Named
  | kept _ => Option Cell
  | keep _ _ => Unit
  | halt => Unit
  | every _ _ => Nat
  | fireLater _ _ => Nat
  | listen _ _ => Nat
  | cancelOwn => Nat
  | situation => Situation
  | dependencies => Dependencies
  | clock => Int

/-- A request that may take time. -/
inductive Wait where
  /-- the value of a data input -/
  | pull (port : String)
  /-- runs everything that a control flow output leads to -/
  | advance (port : String)
  /-- lets others run, and tells whether execution goes on -/
  | checkpoint
  /-- lets a time pass, and tells whether it elapsed and execution goes on -/
  | sleep (seconds : Value)

/-- What a wait ends with. -/
abbrev Wait.Reply : Wait → Type
  | pull _ => Value
  | advance _ => Unit
  | checkpoint => Bool
  | sleep _ => Bool

end Patchbay
