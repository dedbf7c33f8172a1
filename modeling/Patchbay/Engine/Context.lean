import Patchbay.Engine.Edit

/-!
# Answering behaviours

How an engine answers the questions of a behaviour it runs.

Contents:
* `Engine.Performed`: an answer with everything it may have changed.
* `Engine.perform`.
-/

namespace Patchbay.Engine

/-- An answer of type `ρ` with everything it may have changed. -/
structure Performed (ρ : Type) where
  reply : Except Raised ρ
  invocation : Invocation
  scope : Scope
  engine : Engine

/-- When the clock of a loop starts, in milliseconds since the epoch. -/
def clockStart : Int := 1700000000000

/-- Registers something for the node of an invocation. -/
def registering (e : Engine) (i : Invocation) (sc : Scope)
    (r : Except Fault Nat × Scheduler Firing Job) : Performed Nat :=
  ⟨Fault.lift r.1, i, sc, { e with scheduler := r.2 }⟩

/-- Answers a question of the behaviour of an invocation. -/
def perform (e : Engine) (i : Invocation) (sc : Scope) (q : Query) : Performed q.Reply :=
  match q with
  | .input port => ⟨.ok ((e.nodeBySerial? i.serial).bind fun n => n.literals.get? port), i, sc, e⟩
  | .memoize port v => ⟨.ok (), i, sc.publish i.node (.str port) v, e⟩
  | .log level message => ⟨.ok (), i, sc, e.emit (.log sc.trigger i.node (levelWord level) message)⟩
  | .setVariable name v => ⟨.ok (), i, sc, { e with store := e.store.set name v }⟩
  | .readVariable name =>
    let ds := i.dependencies.note (.oneVariable name) (e.store.versionOf name)
    ⟨.ok (e.store.get? name), { i with dependencies := ds }, sc, e⟩
  | .readVariables =>
    let ds := i.dependencies.note .allVariables e.store.version
    ⟨.ok e.store.values, { i with dependencies := ds }, sc, e⟩
  | .kept key => ⟨.ok ((e.nodeBySerial? i.serial).bind fun n => n.cell? key), i, sc, e⟩
  | .keep key c => ⟨.ok (), i, sc, e.modifyNode i.serial fun n => n.keep key c⟩
  | .halt => ⟨.ok (), { i with halted := true }, sc, e⟩
  | .every seconds port =>
    e.registering i sc (e.scheduler.every .fire i.node seconds ⟨i.node, port, .tick⟩)
  | .fireLater seconds port =>
    e.registering i sc (e.scheduler.callLater .fire i.node seconds ⟨i.node, port, .nothing⟩)
  | .listen event port =>
    e.registering i sc (e.scheduler.listen i.node event ⟨i.node, port, .payload⟩)
  | .cancelOwn => e.registering i sc (e.scheduler.cancelOwner i.node)
  | .situation => ⟨.ok ⟨i.node, i.kind.id, i.mode, e.running, i.advanced, i.halted⟩, i, sc, e⟩
  | .dependencies => ⟨.ok i.dependencies, i, sc, e⟩
  | .clock => ⟨.ok (clockStart + e.scheduler.loop.now / 1000), i, sc, e⟩

end Patchbay.Engine
