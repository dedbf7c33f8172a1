import Patchbay.Value.Basic

/-!
# Trigger scopes

What one root trigger remembers: every output computed or published in it, how often each output was
published, and for each data-only node that ran what its computation read. A cached node is used again
until something it read has moved.

Contents:
* `Dependency`: something a computation read; `Dependencies`: each with the version seen.
* `Scope`, `Scope.publish`, `Scope.resetNode`.
-/

namespace Patchbay

/-- Something that a computation may read. -/
inductive Dependency where
  | output (node : String) (port : Value)
  | oneVariable (name : String)
  | allVariables

/-- Whether two dependencies are the same. -/
def Dependency.same : Dependency → Dependency → Bool
  | output n p, output m q => n == m && p.same q
  | oneVariable a, oneVariable b => a == b
  | allVariables, allVariables => true
  | _, _ => false

/-- What a computation read, each with the version it saw, in the order of the first read. -/
abbrev Dependencies := List (Dependency × Nat)

/-- Notes a read; a dependency that is there keeps its place and takes the new version. -/
def Dependencies.note (ds : Dependencies) (d : Dependency) (version : Nat) : Dependencies :=
  match ds with
  | [] => [(d, version)]
  | e :: rest => if d.same e.1 then (e.1, version) :: rest else e :: Dependencies.note rest d version

/-- Notes all reads of another computation. -/
def Dependencies.merge (ds es : Dependencies) : Dependencies :=
  es.foldl (fun acc (d, version) => Dependencies.note acc d version) ds

/-- What one root trigger remembers. -/
structure Scope where
  /-- the number of the trigger, zero outside any trigger -/
  trigger : Nat := 0
  /-- outputs by node and port -/
  outputs : List (String × Dict) := []
  /-- how often each output was published -/
  epochs : List ((String × Value) × Nat) := []
  /-- what each node that ran in this trigger had read -/
  cached : List (String × Dependencies) := []
  /-- the outputs being resolved, outermost first -/
  path : List (String × String) := []
  /-- the nodes whose outputs are being resolved, in no order that matters -/
  resolving : List String := []
  /-- nodes that have run to their end -/
  executed : Nat := 0

namespace Scope

/-- The outputs of a node. -/
def outputsOf (s : Scope) (node : String) : Dict := (s.outputs.lookup node).getD []

/-- Whether a node has an entry among the outputs, which may be empty. -/
def hasOutputs (s : Scope) (node : String) : Bool := s.outputs.any fun e => e.1 == node

/-- Puts the outputs of a node. -/
def putOutputs (node : String) (d : Dict) : List (String × Dict) → List (String × Dict)
  | [] => [(node, d)]
  | e :: rest => if e.1 == node then (node, d) :: rest else e :: putOutputs node d rest

/-- How often an output was published. -/
def epoch (s : Scope) (node : String) (port : Value) : Nat :=
  match s.epochs.find? fun e => e.1.1 == node && port.same e.1.2 with
  | some e => e.2
  | none => 0

/-- Counts a publication of an output. -/
def bump (node : String) (port : Value) :
    List ((String × Value) × Nat) → List ((String × Value) × Nat)
  | [] => [((node, port), 1)]
  | e :: rest =>
    if e.1.1 == node && port.same e.1.2 then (e.1, e.2 + 1) :: rest else e :: bump node port rest

/-- Publishes an output; what was computed from it before is out of date. -/
def publish (s : Scope) (node : String) (port v : Value) : Scope :=
  { s with
    outputs := putOutputs node ((s.outputsOf node).set port v) s.outputs
    epochs := bump node port s.epochs }

/-- Forgets what a node has computed. -/
def resetNode (s : Scope) (node : String) : Scope :=
  { s with
    cached := s.cached.filter fun e => e.1 != node
    outputs := putOutputs node [] s.outputs }

/-- Replaces the outputs of a node, without a publication. -/
def withOutputs (s : Scope) (node : String) (d : Dict) : Scope :=
  { s with outputs := putOutputs node d s.outputs }

/-- Whether an output of a node is being resolved. -/
def isResolving (s : Scope) (node : String) : Bool := s.resolving.contains node

/-- Begins to resolve an output. -/
def enter (s : Scope) (node port : String) : Scope :=
  { s with path := s.path ++ [(node, port)], resolving := s.resolving.insert node }

/-- Ends the resolution begun last, which is of an output of the given node. -/
def leave (s : Scope) (node : String) : Scope :=
  { s with path := s.path.dropLast, resolving := s.resolving.filter fun m => m != node }

/-- What a cached node had read. -/
def cached? (s : Scope) (node : String) : Option Dependencies := s.cached.lookup node

/-- Marks a node as cached, with what it had read. -/
def cache (s : Scope) (node : String) (ds : Dependencies) : Scope :=
  { s with cached := (node, ds) :: s.cached.filter fun e => e.1 != node }

end Scope

end Patchbay
