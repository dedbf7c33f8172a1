import Patchbay.Document
import Patchbay.Node
import Patchbay.Registry

/-!
# Graphs

Nodes and edges, both in insertion order. Every change is checked against the registry when it is
made: an edge joins ports that exist and fit, and a data input has one writer, so that a new edge
evicts the one that ended there.

Contents:
* `Matcher`: which ports may be joined.
* `Graph`, look-ups of nodes and edges.
* `Graph.addNode`, `Graph.removeNode`, `Graph.addEdge`, `Graph.removeEdge`, `Graph.setLiteral`.
* `Graph.toDocument`, `Graph.ofDocument`.
-/

namespace Patchbay

/-- Which ports may be joined. -/
inductive Matcher where
  /-- control flow with control flow, `any` with every data type, other data types with themselves -/
  | byType
  /-- every output with every input -/
  | anything
deriving DecidableEq

/-- Whether an output may be joined to an input. -/
def Matcher.accepts (m : Matcher) (source dest : Port) : Bool :=
  match m with
  | .anything => true
  | .byType =>
    if source.isExec || dest.isExec then source.isExec && dest.isExec
    else source.valueType == .any || dest.valueType == .any || source.valueType == dest.valueType

/-- Nodes and edges in insertion order. -/
structure Graph where
  nodes : List Node := []
  edges : List Edge := []
  matcher : Matcher := .byType
  /-- serial of the next node -/
  nextSerial : Nat := 0

namespace Graph

variable {β : Type}

/-! ## Look-ups -/

/-- The node with an id. -/
def node? (g : Graph) (id : String) : Option Node := g.nodes.find? fun n => n.id == id

/-- Whether there is a node with an id. -/
def hasNode (g : Graph) (id : String) : Bool := g.nodes.any fun n => n.id == id

/-- The node with an id, an error when there is none. -/
def requireNode (g : Graph) (id : String) : Except Raised Node :=
  match g.node? id with
  | some n => .ok n
  | none => .error (.causeAt (.nodeNotFound id) id)

/-- The current kind of a node. -/
def kindOf (g : Graph) (r : Registry β) (id : String) : Except Raised (Kind β) := do
  let n ← g.requireNode id
  r.lookup n.kind

/-- The first edge that ends at an input. -/
def incoming? (g : Graph) (node port : String) : Option Edge := g.edges.find? fun e => e.endsAt node port

/-- The edges that leave a node, by one port or by any. -/
def outgoing (g : Graph) (node : String) (port : Option String) : List Edge :=
  g.edges.filter fun e => e.source == node && match port with
    | some p => e.sourcePort == p
    | none => true

/-- The nodes of a kind. -/
def ofKind (g : Graph) (kind : Value) : List Node := g.nodes.filter fun n => kind.same (.str n.kind)

/-- Whether an edge carries control flow, by the current kind of its source. The source must exist. -/
def isExecEdge (g : Graph) (r : Registry β) (e : Edge) : Except Raised Bool :=
  match g.node? e.source with
  | none => .error (.fault .key)
  | some n => match r.find? n.kind with
    | none => .ok false
    | some k => .ok (k.execOutput e.sourcePort).isSome

/-! ## Changes -/

/-- Changes the node with an id. -/
def modifyNode (g : Graph) (id : String) (f : Node → Node) : Graph :=
  { g with nodes := g.nodes.map fun n => if n.id == id then f n else n }

/-- The literals of a new node: the declared ones, with others over them. -/
def startingLiterals (k : Kind β) (id : String) (overrides : Named) : Except Raised Named :=
  overrides.foldlM (fun literals (port, v) =>
    match k.dataInput port with
    | some _ => .ok (literals.set port v)
    | none => .error (.causeAt (.kindHasNoDataInput k.id port) id)) k.defaultLiterals

/-- Adds a node of a kind under an id that is not taken. -/
def addNode (g : Graph) (k : Kind β) (overrides : Named) (id : String) :
    Except Raised (Node × Graph) := do
  if g.hasNode id then throw (.causeAt (.nodeExists id) id)
  let literals ← startingLiterals k id overrides
  let n : Node := { serial := g.nextSerial, id := id, kind := k.id, literals := literals }
  return (n, { g with nodes := g.nodes ++ [n], nextSerial := g.nextSerial + 1 })

/-- Removes a node and every edge that touches it. -/
def removeNode (g : Graph) (id : String) : Except Raised (Node × Graph) := do
  let n ← g.requireNode id
  return (n, { g with
    nodes := g.nodes.filter fun m => m.id != id
    edges := g.edges.filter fun e => !e.touches id })

/-- Adds an edge and yields the one it evicts. An edge that is present already changes nothing. -/
def addEdge (g : Graph) (r : Registry β) (e : Edge) : Except Raised (Option Edge × Graph) := do
  let sourceKind ← g.kindOf r e.source
  let destKind ← g.kindOf r e.dest
  match sourceKind.outputPort e.sourcePort, destKind.inputPort e.destPort with
  | none, _ => throw (.causeAt (.nodeHasNoOutput e.source sourceKind.id e.sourcePort) e.source)
  | some _, none => throw (.causeAt (.nodeHasNoInput e.dest destKind.id e.destPort) e.dest)
  | some source, some dest =>
    if !g.matcher.accepts source dest then
      throw (.causeAt (.incompatible e source.valueType dest.valueType) e.dest)
    else if g.edges.contains e then return (none, g)
    else if dest.isExec then return (none, { g with edges := g.edges ++ [e] })
    else match g.incoming? e.dest e.destPort with
      | some old => return (some old, { g with edges := g.edges.erase old ++ [e] })
      | none => return (none, { g with edges := g.edges ++ [e] })

/-- Removes an edge, if it is there. -/
def removeEdge (g : Graph) (e : Edge) : Graph := { g with edges := g.edges.erase e }

/-- Sets the literal of a data input. -/
def setLiteral (g : Graph) (r : Registry β) (id port : String) (v : Value) : Except Raised Graph := do
  let n ← g.requireNode id
  let k ← r.lookup n.kind
  match k.dataInput port with
  | some _ => return g.modifyNode id fun n => { n with literals := n.literals.set port v }
  | none => throw (.causeAt (.nodeHasNoDataInput id n.kind port) id)

/-- Gives a node another kind, without any check. -/
def retag (g : Graph) (id kind : String) : Except Raised Graph :=
  match g.node? id with
  | some _ => .ok (g.modifyNode id fun n => { n with kind := kind })
  | none => .error (.fault .key)

/-! ## Documents -/

/-- The record of a node. -/
def record (n : Node) : NodeRecord := ⟨n.id, n.kind, n.literals⟩

/-- The document of a graph with the given variables. Records with an empty field are refused. -/
def toDocument (g : Graph) (globals : Named) : Except Raised Document := do
  let nodes ← g.nodes.mapM fun n => Fault.lift (rejecting (record n).rejections (record n))
  let edges ← g.edges.mapM fun e => Fault.lift (rejecting e.rejections e)
  return { nodes := nodes, edges := edges, globals := globals }

/-- Adds the node of a record. Literals for inputs that the kind does not have are kept. -/
def addRecord (g : Graph) (r : Registry β) (x : NodeRecord) : Except Raised Graph := do
  let k ← r.lookup x.kind
  let (_, g) ← g.addNode k [] x.id
  return g.modifyNode x.id fun n => { n with literals := n.literals.update x.literals }

/-- The graph of a document: its nodes and edges are added one after another. -/
def ofDocument (r : Registry β) (matcher : Matcher) (firstSerial : Nat) (d : Document) :
    Except Raised Graph := do
  let empty : Graph := { matcher := matcher, nextSerial := firstSerial }
  let g ← d.nodes.foldlM (fun g x => addRecord g r x) empty
  d.edges.foldlM (fun g e => do
    let (_, g) ← g.addEdge r e
    return g) g

end Graph

end Patchbay
