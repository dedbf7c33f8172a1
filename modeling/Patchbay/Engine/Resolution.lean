import Patchbay.Engine.Control

/-!
# Data flow

Data flow is pulled: a behaviour asks for an input, and the engine resolves it through the edges. A
data-only node runs on the first pull of a trigger, and what it yielded is used again until something
it read has moved. Other nodes are never run by a pull; their outputs exist once published.

Contents:
* `Engine.stillCurrent`: whether nothing that was read has moved.
* `Engine.pullInput`: the value of a data input.
* `Engine.pullOutput`: the value of an output; `Engine.finishOutput`: after its node has run.
-/

namespace Patchbay.Engine

/-- How many nested resolutions run on one task. -/
def nestedPulls : Nat := 32

/-- The version that something readable has now. -/
def currentVersion (e : Engine) (sc : Scope) : Dependency → Nat
  | .output node port => sc.epoch node port
  | .oneVariable name => e.store.versionOf name
  | .allVariables => e.store.version

/-- Whether nothing that was read has moved. -/
def stillCurrent (e : Engine) (sc : Scope) (ds : Dependencies) : Bool :=
  ds.all fun (d, seen) => e.currentVersion sc d == seen

/-- The value of a literal in the representation of its port. -/
def literalResult (p : Port) (v : Value) : Signal :=
  match coerce v p.valueType with
  | .ok w => .back (.pulled w [])
  | .error f => .raise (.fault f)

/-- Begins to resolve a data input: through its edge, or by its literal. -/
def pullInput (e : Engine) (s : Strand) (node port : String) : Turn :=
  match e.nodeWithKind node with
  | .error err => e.go s (.raise err)
  | .ok (n, k) => match k.dataInput port with
    | none => e.go s (.raise (.cause (.kindHasNoDataInput k.id port)))
    | some p => match e.graph.incoming? node port with
      | some x => e.go s (.call (.output x.source x.sourcePort))
      | none => match n.literals.get? port, p.default with
        | some v, _ => e.go s (literalResult p v)
        | none, some v => e.go s (literalResult p v)
        | none, none =>
          if e.config.missingLiteralPolicy.same (.str "none") then e.go s (.back (.pulled .null []))
          else e.go s (.raise (.cause (.missingLiteral port node)))

/-- The value that a data-only node has for an output, with what it was computed from. -/
def outputResult (sc : Scope) (node port : String) (ds : Dependencies) : Signal :=
  match (sc.outputsOf node).get? (.str port) with
  | some v => .back (.pulled v ds)
  | none => .raise (.cause (.notProduced node port))

/-- Whether the path of a scope has reached the bound on its length. -/
def atDepthBound (e : Engine) (sc : Scope) : Bool :=
  Value.related? .ge (.int sc.path.length) e.config.maxPullDepth == some true

/-- The error of a resolution that is nested too deep. -/
def tooDeep (e : Engine) (node port : String) : Raised :=
  match e.config.maxPullDepth.toText with
  | .ok bound => .cause (.tooDeep bound node port)
  | .error f => .fault f

/-- Begins to run a data-only node for one of its outputs. Nested resolutions change to a task of their
own now and then, which lets other strands run. -/
def runForOutput (e : Engine) (s : Strand) (n : Node) (k : Kind Behavior) (port : String) : Turn :=
  let sc := (s.scope.resetNode n.id).enter n.id port
  let s := { s with scope := sc }
  let i : Invocation := { serial := n.serial, node := n.id, kind := k, mode := .pull }
  if sc.path.length % nestedPulls == 0 then
    ⟨e.parkTurn { s with frames := .hop :: .output n.id port n.serial :: s.frames }
      (.call (.invoke i)), none⟩
  else e.nest s (.output n.id port n.serial) (.invoke i)

/-- Begins to resolve an output. -/
def pullOutput (e : Engine) (s : Strand) (node port : String) : Turn :=
  match e.nodeWithKind node with
  | .error err => e.go s (.raise err)
  | .ok (n, k) =>
    if (k.outputPort port).isNone then e.go s (.raise (.cause (.nodeHasNoOutput node k.id port)))
    else if !k.dataOnly then
      match (s.scope.outputsOf node).get? (.str port) with
      | some v => e.go s (.back (.pulled v [(.output node (.str port), s.scope.epoch node (.str port))]))
      | none => e.go s (.raise (.cause (.notProducedYet port node)))
    else match (s.scope.cached? node).filter (e.stillCurrent s.scope) with
      | some ds => e.go s (outputResult s.scope node port ds)
      | none =>
        if s.scope.isResolving node then
          e.go s (.raise (.cause (.cyclic (s.scope.path ++ [(node, port)]))))
        else if e.atDepthBound s.scope then e.go s (.raise (e.tooDeep node port))
        else e.runForOutput s n k port

/-- The outputs of a data-only node after a result: the result's own entries, or the result itself for
a node with a single output. -/
def mergedOutputs (k : Kind Behavior) (before : Dict) : Value → Dict
  | .dict es => before.update es
  | .null => before
  | v => match k.dataOutputs with
    | [p] => before.set (.str p.id) v
    | _ => before

/-- A data-only node has run: its outputs are stored, with what it read. -/
def finishOutput (e : Engine) (s : Strand) (node port : String) (serial : Nat) (v : Value)
    (i : Invocation) : Turn :=
  let outputs := mergedOutputs i.kind (s.scope.outputsOf node) v
  let sc := ((s.scope.leave node).withOutputs node outputs).cache node i.dependencies
  let e := e.modifyNode serial fun n => { n with lastOutputs := outputs }
  e.go { s with scope := sc } (outputResult sc node port i.dependencies)

end Patchbay.Engine
