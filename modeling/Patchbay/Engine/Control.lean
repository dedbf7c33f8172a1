import Patchbay.Engine.Invocation

/-!
# Control flow

Control flow is pushed: a trigger starts at a node and follows the control flow edges depth first, one
at a time. The nodes still to be reached stand on an agenda, so a long chain of nodes does not nest.
Once execution is stopped no further node starts.

Contents:
* `Engine.walk`: reaches the first node of an agenda.
* `Engine.continueFrom`: what a node leads to after its behaviour has ended.
* `Engine.startTrigger`, `Engine.endTrigger`.
-/

namespace Patchbay.Engine

/-- The nodes that control flow edges lead to, from one output or from any. -/
def execTargets (e : Engine) (node : String) (k : Kind Behavior) (port : Option String) :
    List String :=
  ((e.graph.outgoing node port).filter fun x => (k.execOutputs.map Port.id).contains x.sourcePort).map
    Edge.dest

/-- The node with an id, and its current kind. -/
def nodeWithKind (e : Engine) (id : String) : Except Raised (Node × Kind Behavior) := do
  let n ← e.graph.requireNode id
  let k ← e.registry.lookup n.kind
  return (n, k)

/-- Control flow reaches the first node of an agenda. A node without a behaviour only passes it on. -/
def walk (e : Engine) (s : Strand) (agenda : List String) : Turn :=
  match agenda with
  | [] => e.go s (.back .nothing)
  | node :: rest =>
    if !e.running then e.go s (.back .nothing)
    else match e.nodeWithKind node with
      | .error err => e.go s (.raise err)
      | .ok (n, k) =>
        let i : Invocation := { serial := n.serial, node := node, kind := k, mode := .exec }
        match k.behavior with
        | some _ => e.nest s (.walk rest) (.invoke i)
        | none =>
          let e := e.emitStarted s.scope i
          let sc := { s.scope with executed := s.scope.executed + 1 }
          let e := e.emitFinished sc i
          e.go { s with scope := sc } (.call (.walk (e.execTargets node k none ++ rest)))

/-- The output by which control flow leaves a node whose behaviour did not choose one. -/
def defaultExit (i : Invocation) : Option String :=
  if i.advanced.isEmpty && !i.halted && i.kind.autoContinue then i.kind.defaultExecOutput else none

/-- Control flow goes on after a behaviour has ended with a result: by the output that the result
names, or by the default one. A result with outputs publishes them. An output that the behaviour has
already continued along is not followed again. -/
def continueFrom (e : Engine) (s : Strand) (i : Invocation) (v : Value) (rest : List String) : Turn :=
  let follow (sc : Scope) (exit : Option String) : Turn :=
    let targets := match exit with
      | some port => if i.advanced.contains port then [] else e.execTargets i.node i.kind (some port)
      | none => []
    e.go { s with scope := sc } (.call (.walk (targets ++ rest)))
  match v with
  | .str port =>
    match i.kind.execOutput port with
    | some _ => follow s.scope (some port)
    | none =>
      let (f, e) := e.report s.scope i {
        cause := .notAnExecOutput i.node port i.kind.id
        node := some i.node
        trigger := some (.serial s.scope.trigger) }
      e.go s (.raise (.failure f))
  | .dict es =>
    follow (es.foldl (fun sc (port, v) => sc.publish i.node port v) s.scope) (defaultExit i)
  | _ => follow s.scope (defaultExit i)

/-! ## Triggers -/

/-- Begins a root trigger in a new scope. While execution is stopped it is cancelled at once. A trigger
that sets up an event node replaces what the node had registered before. -/
def startTrigger (e : Engine) (s : Strand) (node : String) (origin : Origin) (port : Option String)
    (seeds : Dict) : Turn :=
  let (sc, e) := e.freshScope
  if !e.running then
    e.go s (.back (.response (.trigger { trigger := sc.trigger, origin := node, status := .cancelled })))
  else
    let armed : Except Raised Unit × Engine :=
      if origin == .arm then match e.graph.requireNode node with
        | .error err => (.error err, e)
        | .ok n => e.disarm n
      else (.ok (), e)
    match armed with
    | (.error err, e) => e.go s (.raise err)
    | (.ok (), e) =>
      let sc := seeds.foldl (fun sc (p, v) => sc.publish node p v) sc
      let e := e.emit (.triggerStarted sc.trigger node origin)
      let agenda := match port with
        | some p => e.destinations node (some p)
        | none => [node]
      e.nest { s with scope := sc } (.trigger node origin) (.walk agenda)

/-- Ends a root trigger, with the error that ended it. -/
def endTrigger (e : Engine) (s : Strand) (node : String) (origin : Origin) (error : Option Failure) :
    Turn :=
  let error := error.map fun f => f.inTrigger (.serial s.scope.trigger)
  let status : Status := if error.isSome then .error else if !e.running then .cancelled else .ok
  let e := e.emit (.triggerFinished s.scope.trigger node status s.scope.executed origin)
  e.go s (.back (.response (.trigger ⟨s.scope.trigger, node, status, s.scope.executed, error⟩)))

end Patchbay.Engine
