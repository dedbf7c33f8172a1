import Patchbay.Graph

/-!
# Whole-graph checks

What can only be judged on a whole graph: edges left dangling after a kind was registered again, nodes
of unknown kinds, a missing entry point, cycles of data, and inputs that nothing gives a value.

Contents:
* `Issue`: a problem, with the failure that reports it.
* `Graph.danglingEdges`, `Graph.unknownKinds`, `Graph.unboundInputs`.
* `Graph.dataCycle?`: one cycle among the data edges.
* `Graph.issues`: all problems in a fixed order; `Graph.validate`: the first of them.
-/

namespace Patchbay

/-- A problem of a graph. -/
structure Issue where
  code : String
  nodes : List String
  edge : Option Edge := none
  failure : Failure

/-- An issue at one node. -/
def Issue.atNode (code : String) (c : Cause) (node : String) (edge : Option Edge := none) : Issue :=
  ⟨code, [node], edge, { cause := c, node := some node }⟩

namespace Graph

variable {β : Type}

/-! ## Single places -/

/-- The issue of one end of an edge whose port is gone. -/
def danglingEnd? (g : Graph) (r : Registry β) (e : Edge) (node port : String) (leaving : Bool) :
    Option Issue := do
  let n ← g.node? node
  let k ← r.find? n.kind
  let found := if leaving then k.outputPort port else k.inputPort port
  if found.isSome then none
  else some (.atNode "dangling_edge" (.danglingEdge e port node n.kind) node (some e))

/-- Ends of edges whose ports are gone. -/
def danglingEdges (g : Graph) (r : Registry β) : List Issue :=
  g.edges.flatMap fun e =>
    (g.danglingEnd? r e e.source e.sourcePort true).toList
      ++ (g.danglingEnd? r e e.dest e.destPort false).toList

/-- Nodes whose kind is not registered. -/
def unknownKinds (g : Graph) (r : Registry β) : List Issue :=
  g.nodes.filterMap fun n =>
    if r.contains n.kind then none
    else some (.atNode "unknown_kind" (.unknownKind n.kind) n.id)

/-- Data inputs with neither an edge nor a literal. -/
def unboundInputs (g : Graph) (r : Registry β) : List Issue :=
  g.nodes.flatMap fun n => match r.find? n.kind with
    | none => []
    | some k => k.dataInputs.filterMap fun p =>
      if (g.incoming? n.id p.id).isSome || n.literals.has p.id then none
      else some (.atNode "unbound_input" (.unboundInput p.id n.id) n.id)

/-! ## Cycles of data -/

/-- Whether an edge counts as data: its source port is no control flow output now. -/
def isDataEdge (g : Graph) (r : Registry β) (e : Edge) : Bool :=
  match g.isExecEdge r e with
  | .ok b => !b
  | .error _ => true

/-- What a node pulls: the input and the source of every data edge that ends at it. -/
def pulls (g : Graph) (r : Registry β) (node : String) : List (String × String) :=
  (g.edges.filter fun e => e.dest == node && g.isDataEdge r e).map fun e => (e.destPort, e.source)

/-- The state of a depth-first search along pulls. -/
structure Search where
  /-- nodes being explored with what is left of their pulls, innermost first -/
  stack : List (String × List (String × String))
  /-- the pulls that lead to the innermost node, last first -/
  path : List (String × String) := []
  /-- nodes explored completely -/
  finished : List String := []

/-- A step of the search: a cycle, or the next state. -/
def Search.step (pulls : String → List (String × String)) (s : Search) :
    List (String × String) ⊕ Search :=
  match s.stack with
  | [] => .inr s
  | (node, []) :: rest =>
    .inr { stack := rest, path := s.path.drop 1, finished := node :: s.finished }
  | (node, (port, source) :: more) :: rest =>
    if s.stack.any fun f => f.1 == source then
      .inl ((s.path.reverse ++ [(node, port)]).dropWhile fun e => e.1 != source)
    else if s.finished.contains source then .inr { s with stack := (node, more) :: rest }
    else .inr { s with
      stack := (source, pulls source) :: (node, more) :: rest
      path := (node, port) :: s.path }

/-- The search run until its stack is empty, for at most `bound` steps: a cycle, or the nodes that
were explored. -/
def Search.run (pulls : String → List (String × String)) :
    Nat → Search → List (String × String) ⊕ List String
  | 0, s => .inr s.finished
  | bound + 1, s =>
    if s.stack.isEmpty then .inr s.finished
    else match s.step pulls with
      | .inl cycle => .inl cycle
      | .inr s => Search.run pulls bound s

/-- A bound on the steps of a search: every node is left once and every edge is taken once. -/
def searchBound (g : Graph) : Nat := g.nodes.length + g.edges.length + 1

/-- Searches from each node that is not explored yet. -/
def cycleFrom (g : Graph) (r : Registry β) (finished : List String) :
    List Node → Option (List (String × String))
  | [] => none
  | n :: rest =>
    if finished.contains n.id then cycleFrom g r finished rest
    else match Search.run (g.pulls r) g.searchBound
        { stack := [(n.id, g.pulls r n.id)], finished := finished } with
      | .inl cycle => some cycle
      | .inr finished => cycleFrom g r finished rest

/-- One cycle among the data edges, as inputs in the order in which they pull. -/
def dataCycle? (g : Graph) (r : Registry β) : Option (List (String × String)) :=
  g.cycleFrom r [] g.nodes

/-! ## All issues -/

/-- The issue of a graph without a node to start from. -/
def missingEntry (g : Graph) (startKind : String) : List Issue :=
  if (g.ofKind (.str startKind)).isEmpty then
    [⟨"no_entry_point", [], none, { cause := .noEntryPoint startKind }⟩]
  else []

/-- The issue of a cycle of data. -/
def cyclicData (g : Graph) (r : Registry β) : List Issue :=
  match g.dataCycle? r with
  | some cycle => [⟨"cyclic_dependency", cycle.map Prod.fst, none, { cause := .cyclic cycle }⟩]
  | none => []

/-- All issues: dangling edges, unknown kinds, a missing entry point, a cycle, unbound inputs. -/
def issues (g : Graph) (r : Registry β) (startKind : String) : List Issue :=
  g.danglingEdges r ++ g.unknownKinds r ++ g.missingEntry startKind ++ g.cyclicData r
    ++ g.unboundInputs r

/-- Fails with the first issue, if there is one. -/
def validate (g : Graph) (r : Registry β) (startKind : String) : Except Raised Unit :=
  match g.issues r startKind with
  | [] => .ok ()
  | i :: _ => .error (.failure i.failure)

end Graph

end Patchbay
