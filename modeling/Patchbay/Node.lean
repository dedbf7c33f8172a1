import Patchbay.Expr.Eval

/-!
# Nodes

A node placed in a graph. It names its kind by id only, so a kind that is registered again changes the
node from its next execution on. Behaviours may keep state in a node across triggers.

Contents:
* `Cell`: what a node's state holds under a key.
* `Node`.
-/

namespace Patchbay

/-- What a node keeps under a key of its state. -/
inductive Cell where
  | value (v : Value)
  | expression (e : Expr.Expression)
  /-- a registration with the scheduler, by number -/
  | registration (id : Nat)

/-- A node of a graph. -/
structure Node where
  /-- distinguishes nodes that had the same id one after another -/
  serial : Nat
  id : String
  kind : String
  literals : Named := []
  state : List (String × Cell) := []
  lastOutputs : Dict := []
  /-- the message of the error the node failed with last -/
  error : Option String := none

namespace Node

/-- What the state holds under a key. -/
def cell? (n : Node) (key : String) : Option Cell := n.state.lookup key

/-- Puts a cell under a key, in its place if there is one. -/
def putCell (key : String) (c : Cell) : List (String × Cell) → List (String × Cell)
  | [] => [(key, c)]
  | e :: rest => if e.1 == key then (key, c) :: rest else e :: putCell key c rest

/-- Keeps a cell under a key. -/
def keep (n : Node) (key : String) (c : Cell) : Node := { n with state := putCell key c n.state }

/-- Drops a key of the state. -/
def forget (n : Node) (key : String) : Node :=
  { n with state := n.state.filter fun e => e.1 != key }

end Node

end Patchbay
