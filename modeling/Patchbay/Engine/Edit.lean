import Patchbay.Engine.State

/-!
# Editing an engine

The commands of an editor: changes to the graph and the registry, checks, variables, documents, and
stopping, firing and dispatching. A command is answered at once and starts at most new strands.

Contents:
* `Engine.tearDown`, `Engine.disarm`: what happens to a node that stops or goes.
* `Engine.fire`, `Engine.stop`, `Engine.loadDocument`, `Engine.load`.
* `Engine.command`: every command, with its answer.
-/

namespace Patchbay.Engine

/-! ## Nodes that stop or go -/

/-- Calls the teardown of a node's kind; whether it fails makes no difference. -/
def tearDown (e : Engine) (n : Node) : Engine :=
  match (e.registry.find? n.kind).bind Kind.teardown with
  | none => e
  | some (.forget key) => e.modifyNode n.serial fun n => n.forget key
  | some (.note _) => e.emit (.tornDown n.id)

/-- Cancels what a node has registered, and tears it down. -/
def disarm (e : Engine) (n : Node) : Except Raised Unit × Engine :=
  match e.scheduler.cancelOwner n.id with
  | (.error f, s) => (.error (.fault f), { e with scheduler := s })
  | (.ok _, s) => (.ok (), { e with scheduler := s }.tearDown n)

/-- Removes a node, its edges and what it has registered. -/
def removeNode (e : Engine) (id : String) : Except Raised Node × Engine :=
  match e.graph.node? id with
  | none => (.error (.causeAt (.nodeNotFound id) id), e)
  | some n => match e.disarm n with
    | (.error err, e) => (.error err, e)
    | (.ok (), e) => match e.graph.removeNode id with
      | .error err => (.error err, e)
      | .ok (n, g) => (.ok n, { e with graph := g, retired := n :: e.retired })

/-! ## Running -/

/-- Marks the beginning of a run. -/
def beginRun (e : Engine) : Engine :=
  { e with
    running := true
    graph := { e.graph with nodes := e.graph.nodes.map fun n => { n with error := none } } }

/-- Starts a trigger that continues from an output of a node, and tells whether it did. -/
def fire (e : Engine) (node port : String) (seeds : Dict) : Bool × Engine :=
  if e.running && e.graph.hasNode node then
    (true, (e.spawn (.trigger node .event (some port) seeds)).2)
  else (false, e)

/-- What a registration of the engine does when it fires. -/
def runFiring (r : Registration Firing) (payload : Value) (e : Engine) : Engine :=
  let seeds : Dict := match r.callback.carried with
    | .nothing => []
    | .tick => [(.str "tick", .int r.fired)]
    | .payload => [(.str "payload", payload)]
  (e.fire r.callback.node r.callback.port seeds).2

/-- Stops execution: everything registered is cancelled, sleeps end, and every node is torn down. -/
def stop (e : Engine) : Except Raised Unit × Engine :=
  let e := { e with running := false }
  match e.scheduler.cancelAll with
  | (.error f, s) => (.error (.fault f), { e with scheduler := s })
  | (.ok cancelled, s) =>
    let e := { e with scheduler := s.wakeAll.2 }
    let e := e.graph.nodes.foldl tearDown e
    (.ok (), { e with stepQueue := [] }.emit (.runStopped cancelled))

/-- Delivers an event to its listeners. -/
def dispatch (e : Engine) (event payload : Value) : Except Fault Nat × Engine :=
  Scheduler.dispatch withScheduler runFiring event payload e

/-! ## Documents -/

/-- Puts another graph in the place of the current one. -/
def swapGraph (e : Engine) (g : Graph) : Engine :=
  { e with graph := g, retired := e.graph.nodes ++ e.retired }

/-- The graph of a document's text. -/
def readGraph (e : Engine) (matcher : Matcher) (text : String) :
    Except Raised (Document × Graph) := do
  let d ← Fault.lift (Document.ofText text)
  let g ← Graph.ofDocument e.registry matcher e.graph.nextSerial d
  return (d, g)

/-- Replaces graph and variables by those of a document. -/
def loadDocument (e : Engine) (d : Document) : Except Raised Unit × Engine :=
  match Graph.ofDocument e.registry .byType e.graph.nextSerial d with
  | .error err => (.error err, e)
  | .ok g => match e.stop with
    | (.error err, e) => (.error err, e)
    | (.ok (), e) => (.ok (), { e.swapGraph g with store := e.store.load d.globals })

/-- Replaces graph and variables by those of a document's text. -/
def load (e : Engine) (text : String) : Except Raised Unit × Engine :=
  match Fault.lift (Document.ofText text) with
  | .error err => (.error err, e)
  | .ok d => e.loadDocument d

/-! ## Changes of the graph -/

/-- The id for a new node: the given one, or one that is made up. -/
def nodeId (e : Engine) (id : Option String) : String × Engine :=
  match nonEmpty? id with
  | some id => (id, e)
  | none => ("n_" ++ Decimal.padZeros 9 (toString (e.minted + 1)), { e with minted := e.minted + 1 })

/-- Adds a node. -/
def addNode (e : Engine) (kind : String) (literals : Named) (id : Option String) :
    Except Raised Node × Engine :=
  match e.registry.lookup kind with
  | .error err => (.error err, e)
  | .ok k =>
    let (id, e) := e.nodeId id
    match e.graph.addNode k literals id with
    | .error err => (.error err, e)
    | .ok (n, g) => (.ok n, { e with graph := g })

/-- Adds an edge, and yields the one it evicts. -/
def addEdge (e : Engine) (x : Edge) : Except Raised (Option Edge) × Engine :=
  match e.graph.addEdge e.registry x with
  | .error err => (.error err, e)
  | .ok (old, g) => (.ok old, { e with graph := g })

/-- Adds `count` nodes in a row, from a number on, each joined to the one before it. -/
def addChain (e : Engine) (stem kind : String) (literals : Named) (input output : String)
    (number : Nat) : Nat → Except Raised Unit × Engine
  | 0 => (.ok (), e)
  | count + 1 =>
    let id := stem ++ toString number
    match e.addNode kind literals (some id) with
    | (.error err, e) => (.error err, e)
    | (.ok _, e) =>
      let joined := if number == 0 then (.ok none, e)
        else e.addEdge ⟨stem ++ toString (number - 1), output, id, input⟩
      match joined with
      | (.error err, e) => (.error err, e)
      | (.ok _, e) => e.addChain stem kind literals input output (number + 1) count

/-- A new graph, if the change succeeded. -/
def putGraph (e : Engine) (r : Except Raised Graph) : Except Raised Answer × Engine :=
  match r with
  | .error err => (.error err, e)
  | .ok g => (.ok .nothing, { e with graph := g })

/-! ## Kinds -/

/-- A kind without its behaviour. -/
def outline (k : Kind Behavior) : Kind Unit := { k with behavior := k.behavior.map fun _ => () }

/-- Registers a kind. -/
def register (e : Engine) (d : Declaration Behavior) : Except Raised Answer × Engine :=
  match d.build with
  | .error f => (.error (.fault f), e)
  | .ok k => (.ok (.kind (outline k)), { e with registry := e.registry.register k })

/-- The declaration of a data-only kind whose behaviour is an expression. -/
def expressionKind (d : Declaration Behavior) (source outputType : Value) :
    Except Raised (Declaration Behavior) := do
  let expression ← match Expr.Expression.compile source with
    | .ok x => pure x
    | .error c => throw (.cause c)
  let inputs ← Fault.lift (portList .input d.inputs)
  let output ← Fault.lift (Port.declare "value" (.str "out") outputType)
  return { d with
    inputs := .listed inputs
    outputs := .listed [output]
    behavior := some (.ofExpression expression (inputs.map Port.id))
    shape := Shape.expression.name
    description := some ((nonEmpty? d.description).getD expression.source) }

/-! ## Commands -/

/-- An answer that needs no change. -/
def answering (e : Engine) (r : Except Raised Answer) : Except Raised Answer × Engine := (r, e)

/-- The issues that a check finds. -/
def checkIssues (e : Engine) (startKind : String) : Check → List Issue
  | .issues => e.graph.issues e.registry startKind
  | .unknownKinds => e.graph.unknownKinds e.registry
  | .danglingEdges => e.graph.danglingEdges e.registry
  | .unboundInputs => e.graph.unboundInputs e.registry

/-- Carries out a command. -/
def command (e : Engine) (c : Command) : Except Raised Answer × Engine :=
  match c with
  | .addNode kind literals id => match e.addNode kind literals id with
    | (.error err, e) => (.error err, e)
    | (.ok n, e) => (.ok (.node n.id n.literals), e)
  | .removeNode id => match e.removeNode id with
    | (.error err, e) => (.error err, e)
    | (.ok n, e) => (.ok (.text n.kind), e)
  | .addEdge x => match e.addEdge x with
    | (.error err, e) => (.error err, e)
    | (.ok old, e) => (.ok (.edge old), e)
  | .connect x => match e.addEdge x with
    | (.error err, e) => (.error err, e)
    | (.ok _, e) => (.ok (.edge (some x)), e)
  | .removeEdge x => (.ok .nothing, { e with graph := e.graph.removeEdge x })
  | .setLiteral id port v => e.putGraph (e.graph.setLiteral e.registry id port v)
  | .chain stem kind n literals input output => match e.addChain stem kind literals input output 0 n with
    | (.error err, e) => (.error err, e)
    | (.ok (), e) => (.ok (.count e.graph.nodes.length), e)
  | .retag id kind => e.putGraph (e.graph.retag id kind)
  | .register d => e.register d
  | .registerExpression d source outputType => match expressionKind d source outputType with
    | .error err => (.error err, e)
    | .ok d => e.register d
  | .kindOf id => e.answering do return .text (← e.graph.kindOf e.registry id).id
  | .incoming id port => e.answering (.ok (.edge (e.graph.incoming? id port)))
  | .outgoing id port => e.answering (.ok (.edges (e.graph.outgoing id port)))
  | .ofKind kind => e.answering (.ok (.texts ((e.graph.ofKind (.str kind)).map Node.id)))
  | .isExecEdge x => e.answering do return .flag (← e.graph.isExecEdge e.registry x)
  | .edges => e.answering (.ok (.edges e.graph.edges))
  | .nodes => e.answering (.ok (.nodes e.graph.nodes))
  | .document globals => e.answering do return .document (← e.graph.toDocument globals)
  | .replaceGraph text => match e.readGraph e.graph.matcher text with
    | .error err => (.error err, e)
    | .ok (_, g) => (.ok (.count g.nodes.length), e.swapGraph g)
  | .validate startKind => e.answering do
    e.graph.validate e.registry startKind
    return .nothing
  | .check which startKind => e.answering (.ok (.issues (e.checkIssues startKind which)))
  | .findCycle => e.answering (.ok (.cycle (e.graph.dataCycle? e.registry)))
  | .stop => match e.stop with
    | (.error err, e) => (.error err, e)
    | (.ok (), e) => (.ok .nothing, e)
  | .fire id port outputs =>
    let (started, e) := e.fire id port (Dict.ofNamed outputs)
    (.ok (.flag started), e)
  | .dispatch event payload => match e.dispatch event payload with
    | (.error f, e) => (.error (.fault f), e)
    | (.ok n, e) => (.ok (.count n), e)
  | .setVariable name v => (.ok .nothing, { e with store := e.store.set name v })
  | .deleteVariable name => (.ok .nothing, { e with store := e.store.delete name })
  | .listVariables => e.answering (.ok (.value e.store.values.toValue))
  | .load text => match e.load text with
    | (.error err, e) => (.error err, e)
    | (.ok (), e) => (.ok .nothing, e)
  | .snapshot => e.answering do return .document (← e.graph.toDocument e.store.values)
  | .status => e.answering (.ok (.status e.running (e.scheduler.active none)))

end Patchbay.Engine
