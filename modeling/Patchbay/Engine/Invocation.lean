import Patchbay.Engine.Context

/-!
# Invocations

Running the behaviour of a node. Observers are told when an invocation starts and how it ends. An
error is reported once, at the node where it arose: errors that come up through inputs or control flow
from other nodes have been reported there and pass unchanged.

Contents:
* `Engine.report`: tells observers of an error and marks the node.
* `Engine.invoke`, `Engine.behave`: the steps of an invocation.
* `Engine.finishInvocation`, `Engine.failInvocation`: its two ends.
-/

namespace Patchbay.Engine

/-- Tells observers that a node started. -/
def emitStarted (e : Engine) (sc : Scope) (i : Invocation) : Engine :=
  e.emit (.nodeStarted sc.trigger i.node i.kind.id i.mode)

/-- Tells observers that a node finished, and which outputs it has so far. -/
def emitFinished (e : Engine) (sc : Scope) (i : Invocation) : Engine :=
  e.emit (.nodeFinished sc.trigger i.node i.kind.id ((sc.outputsOf i.node).map Prod.fst))

/-- Reports an error at a node. -/
def report (e : Engine) (sc : Scope) (i : Invocation) (f : Failure) : Failure × Engine :=
  let e := e.modifyNode i.serial fun n => { n with error := some f.message }
  ({ f with reported := true }, e.emit (.nodeErrored sc.trigger i.node f.family.name f.message))

/-- An error ends an invocation. A fault becomes an error of the behaviour. One without a text does not come so far:
its message cannot be written, and it is this that goes on, before anything is reported. -/
def failInvocation (e : Engine) (s : Strand) (i : Invocation) (err : Raised) : Turn :=
  match err with
  | .failure f =>
    if f.reported then e.go s (.raise err)
    else
      let (f, e) := e.report s.scope i ((f.atNode i.node).inTrigger (.serial s.scope.trigger))
      e.go s (.raise (.failure f))
  | .fault f =>
    let (f, e) := e.report s.scope i {
      cause := .behaviorFailed i.node i.kind.id f
      node := some i.node
      trigger := some (.serial s.scope.trigger)
      metadata := [("error_type", .str f.kind.name)] }
    e.go s (.raise (.failure f))
  | .mute _ => e.go s (.raise (.fault .value))

/-- The outputs that a node shows after an invocation with a result: those it returned, else those
that it has in the trigger, if any. -/
def shownOutputs? (sc : Scope) (node : String) : Value → Option Dict
  | .dict es => some es
  | _ => if sc.hasOutputs node then some (sc.outputsOf node) else none

/-- A result ends an invocation. -/
def finishInvocation (e : Engine) (s : Strand) (i : Invocation) (v : Value) : Turn :=
  let sc := { s.scope with executed := s.scope.executed + 1 }
  let e := match shownOutputs? sc i.node v with
    | some os => e.modifyNode i.serial fun n => { n with lastOutputs := os }
    | none => e
  (e.emitFinished sc i).go { s with scope := sc } (.back (.invoked v i))

/-- Begins an invocation. -/
def invoke (e : Engine) (s : Strand) (i : Invocation) : Turn :=
  let e := e.emitStarted s.scope i
  match i.kind.behavior with
  | some b => e.go s (.call (.behave i (b .null)))
  | none => e.failInvocation s i (.fault .type)

/-- The nodes that the edges from an output lead to. -/
def destinations (e : Engine) (node : String) (port : Option String) : List String :=
  (e.graph.outgoing node port).map Edge.dest

/-- A behaviour begins to wait. -/
def awaitFor (e : Engine) (s : Strand) (i : Invocation) (w : Wait)
    (k : Except Raised w.Reply → Script) : Turn :=
  match w with
  | .pull port => e.nest s (.behavior i (.pull port) k) (.input i.node port)
  | .advance port =>
    match i.kind.execOutput port with
    | none => e.go s (.call (.behave i (k (.error (.cause (.kindHasNoExecOutput i.kind.id port))))))
    | some _ =>
      let i := { i with advanced := i.advanced ++ [port] }
      e.nest s (.behavior i (.advance port) k) (.walk (e.destinations i.node (some port)))
  | .checkpoint =>
    ⟨e.parkTurn { s with frames := .behavior i .checkpoint k :: s.frames } (.back .nothing), none⟩
  | .sleep seconds =>
    match e.scheduler.sleep seconds .elapse fun _ => .resume s.id with
    | .error f => e.go s (.call (.behave i (k (.error (.fault f)))))
    | .ok (id, scheduler) =>
      ⟨{ e with scheduler := scheduler }.park
        { s with frames := .behavior i (.sleep seconds) k :: s.frames } (.sleep id), none⟩

/-- One step of a behaviour. -/
def behave (e : Engine) (s : Strand) (i : Invocation) (script : Script) : Turn :=
  match script with
  | .finish v => e.finishInvocation s i v
  | .fail err => e.failInvocation s i err
  | .again state => match i.kind.behavior with
    | some b => e.go s (.call (.behave i (b state)))
    | none => e.failInvocation s i (.fault .type)
  | .ask q k =>
    let p := e.perform i s.scope q
    p.engine.go { s with scope := p.scope } (.call (.behave p.invocation (k p.reply)))
  | .edit c k =>
    let (r, e) := e.command c
    e.go s (.call (.behave i (k r)))
  | .wait w k => e.awaitFor s i w k

/-- A behaviour goes on with what it waited for. -/
def resumeBehavior (e : Engine) (s : Strand) (i : Invocation) (w : Wait)
    (k : Except Raised w.Reply → Script) (r : Result) : Turn :=
  match w, k, r with
  | .pull _, k, .pulled v ds =>
    let i := { i with dependencies := i.dependencies.merge ds }
    e.go s (.call (.behave i (k (.ok v))))
  | .pull _, k, _ => e.go s (.call (.behave i (k (.ok .null))))
  | .advance _, k, _ => e.go s (.call (.behave i (k (.ok ()))))
  | .checkpoint, k, _ => e.go s (.call (.behave i (k (.ok e.running))))
  | .sleep _, k, .flag elapsed => e.go s (.call (.behave i (k (.ok (elapsed && e.running)))))
  | .sleep _, k, _ => e.go s (.call (.behave i (k (.ok false))))

end Patchbay.Engine
