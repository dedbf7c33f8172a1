import Patchbay.Engine.Turn

/-!
# What a step comes to

A command comes to its answer and to what it makes of the engine, which is one of a few edits. Inside a trigger control
flow walks along an agenda, and data flow resolves an input or an output, and runs the node of an output whose value is
not at hand: for each of these steps the turns are listed that it may come to, with what is known where it does. What
holds of every command and of every turn is proved by cases on these lists.

Contents:
* `Engine.CommandCases`: what a command makes of the engine; `Engine.answered`: how the strand goes on that has asked
  for it.
* `Engine.WalkCases`, `Engine.InputCases`, `Engine.OutputCases`, `Engine.RunCases`: the turns that control flow, an
  input, an output and a run for an output come to.

Results:
* `Engine.command_addNode`, ..., `Engine.request_command`, `Engine.command_cases`: what a command comes to.
* `Engine.walk_cases`, `Engine.pullInput_cases`, `Engine.pullOutput_cases`, `Engine.runForOutput_cases`: the turn of a
  step is one of those.
-/

namespace Patchbay.Engine

/-! ## Commands -/

section Commands

variable (e : Engine)

attribute [local simp] command Except.map

@[simp]
theorem command_addNode (kind : String) (literals : Named) (id : Option String) :
    e.command (.addNode kind literals id) =
      ((e.addNode kind literals id).1.map fun n => .node n.id n.literals, (e.addNode kind literals id).2) := by
  rcases h : e.addNode kind literals id with ⟨_ | _, _⟩ <;> simp [h]

@[simp]
theorem command_removeNode (id : String) :
    e.command (.removeNode id) = ((e.removeNode id).1.map fun n => .text n.kind, (e.removeNode id).2) := by
  rcases h : e.removeNode id with ⟨_ | _, _⟩ <;> simp [h]

@[simp]
theorem command_addEdge (x : Edge) : e.command (.addEdge x) = ((e.addEdge x).1.map .edge, (e.addEdge x).2) := by
  rcases h : e.addEdge x with ⟨_ | _, _⟩ <;> simp [h]

@[simp]
theorem command_connect (x : Edge) :
    e.command (.connect x) = ((e.addEdge x).1.map fun _ => .edge (some x), (e.addEdge x).2) := by
  rcases h : e.addEdge x with ⟨_ | _, _⟩ <;> simp [h]

@[simp]
theorem command_chain (stem kind : String) (n : Nat) (literals : Named) (input output : String) :
    e.command (.chain stem kind n literals input output) =
      ((e.addChain stem kind literals input output 0 n).1.map fun _ =>
          .count (e.addChain stem kind literals input output 0 n).2.graph.nodes.length,
        (e.addChain stem kind literals input output 0 n).2) := by
  rcases h : e.addChain stem kind literals input output 0 n with ⟨_ | _, _⟩ <;> simp [h]

@[simp]
theorem command_stop : e.command .stop = (e.stop.1.map fun _ => .nothing, e.stop.2) := by
  rcases h : e.stop with ⟨_ | _, _⟩ <;> simp [h]

@[simp]
theorem command_dispatch (event payload : Value) :
    e.command (.dispatch event payload) =
      ((Fault.lift (e.dispatch event payload).1).map .count, (e.dispatch event payload).2) := by
  rcases h : e.dispatch event payload with ⟨_ | _, _⟩ <;> simp [h, Fault.lift]

@[simp]
theorem command_load (text : String) :
    e.command (.load text) = ((e.load text).1.map fun _ => .nothing, (e.load text).2) := by
  rcases h : e.load text with ⟨_ | _, _⟩ <;> simp [h]

/-- What a command makes of the engine. Questions leave it as it is, and so do commands that are refused at once. -/
inductive CommandCases (e : Engine) : Command → Engine → Prop
  | unchanged (c : Command) : CommandCases e c e
  | addNode (kind : String) (literals : Named) (id : Option String) :
      CommandCases e (.addNode kind literals id) (e.addNode kind literals id).2
  | removeNode (id : String) : CommandCases e (.removeNode id) (e.removeNode id).2
  | addEdge (x : Edge) : CommandCases e (.addEdge x) (e.addEdge x).2
  | connect (x : Edge) : CommandCases e (.connect x) (e.addEdge x).2
  | removeEdge (x : Edge) : CommandCases e (.removeEdge x) { e with graph := e.graph.removeEdge x }
  | chain (stem kind : String) (n : Nat) (literals : Named) (input output : String) :
      CommandCases e (.chain stem kind n literals input output) (e.addChain stem kind literals input output 0 n).2
  | setLiteral {id port : String} {v : Value} {g : Graph} (hset : e.graph.setLiteral e.registry id port v = .ok g) :
      CommandCases e (.setLiteral id port v) { e with graph := g }
  | retag {id kind : String} {g : Graph} (hretag : e.graph.retag id kind = .ok g) :
      CommandCases e (.retag id kind) { e with graph := g }
  | register {d : Declaration Behavior} {k : Kind Behavior} (hbuild : d.build = .ok k) :
      CommandCases e (.register d) { e with registry := e.registry.register k }
  | registerExpression {d d' : Declaration Behavior} {source outputType : Value} {k : Kind Behavior}
      (hd : expressionKind d source outputType = .ok d') (hbuild : d'.build = .ok k) :
      CommandCases e (.registerExpression d source outputType) { e with registry := e.registry.register k }
  | replaceGraph {text : String} {d : Document} {g : Graph} (hread : e.readGraph e.graph.matcher text = .ok (d, g)) :
      CommandCases e (.replaceGraph text) (e.swapGraph g)
  | stop : CommandCases e .stop e.stop.2
  | fire (id port : String) (outputs : Named) :
      CommandCases e (.fire id port outputs) (e.fire id port (Dict.ofNamed outputs)).2
  | dispatch (event payload : Value) : CommandCases e (.dispatch event payload) (e.dispatch event payload).2
  | setVariable (name : String) (v : Value) : CommandCases e (.setVariable name v) { e with store := e.store.set name v }
  | deleteVariable (name : String) : CommandCases e (.deleteVariable name) { e with store := e.store.delete name }
  | load (text : String) : CommandCases e (.load text) (e.load text).2

theorem register_cases (d : Declaration Behavior) :
    (e.register d).2 = e ∨ ∃ k, d.build = .ok k ∧ (e.register d).2 = { e with registry := e.registry.register k } := by
  unfold Engine.register
  split
  · exact .inl rfl
  · next k hbuild => exact .inr ⟨k, hbuild, rfl⟩

theorem command_cases (c : Command) : e.CommandCases c (e.command c).2 := by
  cases c with
  | addNode kind literals id =>
    rw [command_addNode]
    exact .addNode kind literals id
  | removeNode id =>
    rw [command_removeNode]
    exact .removeNode id
  | addEdge x =>
    rw [command_addEdge]
    exact .addEdge x
  | connect x =>
    rw [command_connect]
    exact .connect x
  | removeEdge x => exact .removeEdge x
  | chain stem kind n literals input output =>
    rw [command_chain]
    exact .chain stem kind n literals input output
  | setLiteral id port v =>
    simp only [command, putGraph]
    split
    · exact .unchanged _
    · next hset => exact .setLiteral hset
  | retag id kind =>
    simp only [command, putGraph]
    split
    · exact .unchanged _
    · next hretag => exact .retag hretag
  | register d =>
    simp only [command]
    rcases e.register_cases d with heq | ⟨k, hbuild, heq⟩
    · rw [heq]
      exact .unchanged _
    · rw [heq]
      exact .register hbuild
  | registerExpression d source outputType =>
    simp only [command]
    split
    · exact .unchanged _
    · next d' hd =>
      rcases e.register_cases d' with heq | ⟨k, hbuild, heq⟩
      · rw [heq]
        exact .unchanged _
      · rw [heq]
        exact .registerExpression hd hbuild
  | replaceGraph text =>
    simp only [command]
    split
    · exact .unchanged _
    · next hread => exact .replaceGraph hread
  | stop =>
    rw [command_stop]
    exact .stop
  | fire id port outputs => exact .fire id port outputs
  | dispatch event payload =>
    rw [command_dispatch]
    exact .dispatch event payload
  | setVariable name v => exact .setVariable name v
  | deleteVariable name => exact .deleteVariable name
  | load text =>
    rw [command_load]
    exact .load text
  | _ => exact .unchanged _

/-- How a strand goes on that has asked for a command. -/
def answered : Except Raised Answer → Signal
  | .ok a => .back (.response (.answer a))
  | .error err => .raise err

theorem request_command (s : Strand) (c : Command) :
    e.request s (.command c) = (e.command c).2.go s (answered (e.command c).1) := by
  simp only [request]
  split <;> next h => rw [h]; rfl

end Commands

/-! ## Control flow -/

/-- What it comes to that control flow reaches the nodes of an agenda. -/
inductive WalkCases (e : Engine) (s : Strand) : List String → Turn → Prop
  | done : WalkCases e s [] (e.go s (.back .nothing))
  | stopped {node : String} {rest : List String} (hrun : e.running = false) :
      WalkCases e s (node :: rest) (e.go s (.back .nothing))
  | unknown {node : String} {rest : List String} {err : Raised} (hrun : e.running = true)
      (hn : e.nodeWithKind node = .error err) : WalkCases e s (node :: rest) (e.go s (.raise err))
  | invokes {node : String} {rest : List String} {n : Node} {k : Kind Behavior} {b : Behavior} (hrun : e.running = true)
      (hn : e.nodeWithKind node = .ok (n, k)) (hb : k.behavior = some b) :
      WalkCases e s (node :: rest)
        (e.nest s (.walk rest) (.invoke { serial := n.serial, node := node, kind := k, mode := .exec }))
  | passes {node : String} {rest : List String} {n : Node} {k : Kind Behavior} (hrun : e.running = true)
      (hn : e.nodeWithKind node = .ok (n, k)) (hb : k.behavior = none) :
      WalkCases e s (node :: rest)
        (((e.emitStarted s.scope { serial := n.serial, node := node, kind := k, mode := .exec }).emitFinished
            { s.scope with executed := s.scope.executed + 1 }
            { serial := n.serial, node := node, kind := k, mode := .exec }).go
          { s with scope := { s.scope with executed := s.scope.executed + 1 } }
          (.call (.walk (e.execTargets node k none ++ rest))))

theorem walk_cases (e : Engine) (s : Strand) (agenda : List String) : e.WalkCases s agenda (e.walk s agenda) := by
  cases agenda with
  | nil => exact .done
  | cons node rest =>
    cases hrun : e.running with
    | false =>
      simp only [walk, hrun, Bool.not_false, if_true]
      exact .stopped hrun
    | true =>
      simp only [walk, hrun, Bool.not_true, Bool.false_eq_true, if_false]
      cases hn : e.nodeWithKind node with
      | error err => exact .unknown hrun hn
      | ok x =>
        cases hb : x.2.behavior with
        | some b =>
          simp only [hb]
          exact .invokes hrun hn hb
        | none =>
          simp only [hb]
          exact .passes hrun hn hb

/-! ## Data flow -/

/-- What it comes to that a data input is resolved. -/
inductive InputCases (e : Engine) (s : Strand) (node port : String) : Turn → Prop
  | unknown {err : Raised} (hn : e.nodeWithKind node = .error err) : InputCases e s node port (e.go s (.raise err))
  | portless {n : Node} {k : Kind Behavior} (hn : e.nodeWithKind node = .ok (n, k)) (hport : k.dataInput port = none) :
      InputCases e s node port (e.go s (.raise (.cause (.kindHasNoDataInput k.id port))))
  | wired {n : Node} {k : Kind Behavior} {q : Port} {x : Edge} (hn : e.nodeWithKind node = .ok (n, k))
      (hport : k.dataInput port = some q) (hx : e.graph.incoming? node port = some x) :
      InputCases e s node port (e.go s (.call (.output x.source x.sourcePort)))
  | literal {n : Node} {k : Kind Behavior} {q : Port} {v : Value} (hn : e.nodeWithKind node = .ok (n, k))
      (hport : k.dataInput port = some q) (hx : e.graph.incoming? node port = none)
      (hv : (n.literals.get? port).or q.default = some v) : InputCases e s node port (e.go s (literalResult q v))
  | null {n : Node} {k : Kind Behavior} {q : Port} (hn : e.nodeWithKind node = .ok (n, k))
      (hport : k.dataInput port = some q) (hx : e.graph.incoming? node port = none)
      (hv : (n.literals.get? port).or q.default = none)
      (hpolicy : e.config.missingLiteralPolicy.same (.str "none") = true) :
      InputCases e s node port (e.go s (.back (.pulled .null [])))
  | missing {n : Node} {k : Kind Behavior} {q : Port} (hn : e.nodeWithKind node = .ok (n, k))
      (hport : k.dataInput port = some q) (hx : e.graph.incoming? node port = none)
      (hv : (n.literals.get? port).or q.default = none)
      (hpolicy : e.config.missingLiteralPolicy.same (.str "none") = false) :
      InputCases e s node port (e.go s (.raise (.cause (.missingLiteral port node))))

theorem pullInput_cases (e : Engine) (s : Strand) (node port : String) :
    e.InputCases s node port (e.pullInput s node port) := by
  unfold pullInput
  split
  · next err hn => exact .unknown hn
  · next n k hn =>
    split
    · next hport => exact .portless hn hport
    · next q hport =>
      split
      · next x hx => exact .wired hn hport hx
      · next hx =>
        split
        · next v _ hv => exact .literal hn hport hx (by rw [hv, Option.some_or])
        · next v hnone hv => exact .literal hn hport hx (by rw [hnone, hv, Option.none_or])
        · next hnone hdefault =>
          have hv : (n.literals.get? port).or q.default = none := by rw [hnone, hdefault, Option.none_or]
          split
          · next hpolicy => exact .null hn hport hx hv hpolicy
          · next hpolicy => exact .missing hn hport hx hv (Bool.eq_false_iff.mpr hpolicy)

/-- What it comes to that an output is resolved. -/
inductive OutputCases (e : Engine) (s : Strand) (node port : String) : Turn → Prop
  | unknown {err : Raised} (hn : e.nodeWithKind node = .error err) : OutputCases e s node port (e.go s (.raise err))
  | portless {n : Node} {k : Kind Behavior} (hn : e.nodeWithKind node = .ok (n, k)) (hport : k.outputPort port = none) :
      OutputCases e s node port (e.go s (.raise (.cause (.nodeHasNoOutput node k.id port))))
  | published {n : Node} {k : Kind Behavior} {v : Value} (hn : e.nodeWithKind node = .ok (n, k))
      (hport : k.outputPort port ≠ none) (hdata : k.dataOnly = false)
      (hv : (s.scope.outputsOf node).get? (.str port) = some v) :
      OutputCases e s node port
        (e.go s (.back (.pulled v [(.output node (.str port), s.scope.epoch node (.str port))])))
  | unpublished {n : Node} {k : Kind Behavior} (hn : e.nodeWithKind node = .ok (n, k))
      (hport : k.outputPort port ≠ none) (hdata : k.dataOnly = false)
      (hv : (s.scope.outputsOf node).get? (.str port) = none) :
      OutputCases e s node port (e.go s (.raise (.cause (.notProducedYet port node))))
  | current {n : Node} {k : Kind Behavior} {ds : Dependencies} (hn : e.nodeWithKind node = .ok (n, k))
      (hport : k.outputPort port ≠ none) (hdata : k.dataOnly = true)
      (hds : (s.scope.cached? node).filter (e.stillCurrent s.scope) = some ds) :
      OutputCases e s node port (e.go s (outputResult s.scope node port ds))
  | circular {n : Node} {k : Kind Behavior} (hn : e.nodeWithKind node = .ok (n, k))
      (hport : k.outputPort port ≠ none) (hdata : k.dataOnly = true)
      (hds : (s.scope.cached? node).filter (e.stillCurrent s.scope) = none)
      (hbusy : s.scope.isResolving node = true) :
      OutputCases e s node port (e.go s (.raise (.cause (.cyclic (s.scope.path ++ [(node, port)])))))
  | deep {n : Node} {k : Kind Behavior} (hn : e.nodeWithKind node = .ok (n, k))
      (hport : k.outputPort port ≠ none) (hdata : k.dataOnly = true)
      (hds : (s.scope.cached? node).filter (e.stillCurrent s.scope) = none)
      (hidle : s.scope.isResolving node = false) (hfull : e.atDepthBound s.scope = true) :
      OutputCases e s node port (e.go s (.raise (e.tooDeep node port)))
  | runs {n : Node} {k : Kind Behavior} (hn : e.nodeWithKind node = .ok (n, k))
      (hport : k.outputPort port ≠ none) (hdata : k.dataOnly = true)
      (hds : (s.scope.cached? node).filter (e.stillCurrent s.scope) = none)
      (hidle : s.scope.isResolving node = false) (hroom : e.atDepthBound s.scope = false) :
      OutputCases e s node port (e.runForOutput s n k port)

theorem pullOutput_cases (e : Engine) (s : Strand) (node port : String) :
    e.OutputCases s node port (e.pullOutput s node port) := by
  unfold pullOutput
  split
  · next err hn => exact .unknown hn
  · next n k hn =>
    split
    · next hport => exact .portless hn (Option.isNone_iff_eq_none.mp hport)
    · next hsome =>
      have hport : k.outputPort port ≠ none := fun hnone => hsome (Option.isNone_iff_eq_none.mpr hnone)
      split
      · next hdata =>
        have hdata : k.dataOnly = false := by simpa using hdata
        split
        · next v hv => exact .published hn hport hdata hv
        · next hv => exact .unpublished hn hport hdata hv
      · next hdata =>
        have hdata : k.dataOnly = true := by simpa using hdata
        split
        · next ds hds => exact .current hn hport hdata hds
        · next hds =>
          split
          · next hbusy => exact .circular hn hport hdata hds hbusy
          · next hidle =>
            have hidle : s.scope.isResolving node = false := Bool.eq_false_iff.mpr hidle
            split
            · next hfull => exact .deep hn hport hdata hds hidle hfull
            · next hroom => exact .runs hn hport hdata hds hidle (Bool.eq_false_iff.mpr hroom)

/-- What it comes to that a node runs for one of its outputs: every so often its strand is parked first. -/
inductive RunCases (e : Engine) (s : Strand) (n : Node) (k : Kind Behavior) (port : String) : Turn → Prop
  | hops (hlength : (s.scope.path.length + 1) % nestedPulls = 0) :
      RunCases e s n k port
        ⟨e.parkTurn
          { s with
            scope := (s.scope.resetNode n.id).enter n.id port
            frames := .hop :: .output n.id port n.serial :: s.frames }
          (.call (.invoke { serial := n.serial, node := n.id, kind := k, mode := .pull })), none⟩
  | nests (hlength : (s.scope.path.length + 1) % nestedPulls ≠ 0) :
      RunCases e s n k port
        (e.nest { s with scope := (s.scope.resetNode n.id).enter n.id port } (.output n.id port n.serial)
          (.invoke { serial := n.serial, node := n.id, kind := k, mode := .pull }))

theorem runForOutput_cases (e : Engine) (s : Strand) (n : Node) (k : Kind Behavior) (port : String) :
    e.RunCases s n k port (e.runForOutput s n k port) := by
  unfold runForOutput
  dsimp only
  split
  · next h => exact .hops (by simpa [Scope.enter, Scope.resetNode] using h)
  · next h => exact .nests (by simpa [Scope.enter, Scope.resetNode] using h)

end Patchbay.Engine
