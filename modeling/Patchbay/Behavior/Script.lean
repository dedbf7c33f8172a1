import Patchbay.Behavior.Request
import Patchbay.Graph
import Patchbay.Scheduler
import Patchbay.Validation

/-!
# Scripts

A behaviour is a script: a tree of requests, each with what follows for every answer. So it waits for
one thing at a time: behaviours that gather several pulls or continuations, and wait for all of them
together, are no scripts, and nothing that is proved of behaviours is about them. A script ends
with a value or an error, or starts over with a new local state, which is how loops are written. A
script may also edit the engine it runs in, with the same commands that an editor uses; a command that
registers a kind holds the scripts of that kind.

Contents:
* `Firing`: what a registration of the engine starts.
* `Answer`: what a command is answered with.
* `Script`, `Command`, and `Behavior`.
-/

namespace Patchbay

/-- Which output a firing publishes in the trigger it starts. -/
inductive Carried where
  | nothing
  /-- how often the registration has fired, as `tick` -/
  | tick
  /-- the payload of the event, as `payload` -/
  | payload
deriving DecidableEq

/-- What a registration of the engine starts: a trigger that continues from an output of a node. -/
structure Firing where
  node : String
  port : String
  carried : Carried := .nothing

/-- Whole-graph checks that can be asked for one by one. -/
inductive Check where
  | issues
  | unknownKinds
  | danglingEdges
  | unboundInputs
deriving DecidableEq

/-- What a command is answered with. -/
inductive Answer where
  | nothing
  | flag (b : Bool)
  | count (n : Nat)
  | text (s : String)
  | texts (ss : List String)
  | value (v : Value)
  | node (id : String) (literals : Named)
  | nodes (ns : List Node)
  | edge (e : Option Edge)
  | edges (es : List Edge)
  | kind (k : Kind Unit)
  | document (d : Document)
  | issues (is : List Issue)
  | cycle (c : Option (List (String × String)))
  | status (running : Bool) (active : List (Registration Firing))

mutual

/-- A tree of requests and what follows their answers. -/
inductive Script where
  | finish (v : Value)
  | fail (e : Raised)
  /-- starts over with a local state -/
  | again (s : Value)
  | ask (q : Query) (k : Except Raised q.Reply → Script)
  | wait (w : Wait) (k : Except Raised w.Reply → Script)
  | edit (c : Command) (k : Except Raised Answer → Script)

/-- What an editor may ask of an engine, answered at once. -/
inductive Command where
  | addNode (kind : String) (literals : Named) (id : Option String)
  | removeNode (id : String)
  | addEdge (e : Edge)
  | connect (e : Edge)
  | removeEdge (e : Edge)
  | setLiteral (id port : String) (v : Value)
  /-- nodes in a row, each joined to the one before it -/
  | chain (stem kind : String) (n : Nat) (literals : Named) (input output : String)
  | retag (id kind : String)
  | register (d : Declaration (Value → Script))
  /-- a data-only kind whose behaviour is an expression -/
  | registerExpression (d : Declaration (Value → Script)) (source : Value) (outputType : Value)
  | kindOf (id : String)
  | incoming (id port : String)
  | outgoing (id : String) (port : Option String)
  | ofKind (kind : String)
  | isExecEdge (e : Edge)
  | edges
  | nodes
  | document (globals : Named)
  | replaceGraph (text : String)
  | validate (startKind : String)
  | check (c : Check) (startKind : String)
  | findCycle
  | stop
  | fire (id port : String) (outputs : Named)
  | dispatch (event payload : Value)
  | setVariable (name : String) (v : Value)
  | deleteVariable (name : String)
  | listVariables
  | load (text : String)
  | snapshot
  | status

end

instance : Inhabited Script := ⟨.finish .null⟩

/-- What runs when a node executes: a script for every local state, begun with nothing. -/
abbrev Behavior := Value → Script

end Patchbay
