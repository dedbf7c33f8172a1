import Patchbay.Behavior.Script
import Patchbay.Config
import Patchbay.Library
import Patchbay.Variables

/-!
# Engine state

An engine holds a graph, the variables and the scheduler, and runs triggers as strands on one loop. A
strand is a chain of things in progress: a behaviour that waits for an input, the nodes that control
flow still has to reach, a trigger that ends when they are done. Strands take turns: one runs until it
has to wait, and is then parked.

Contents:
* `Invocation`: a behaviour being run for a node.
* `Call`, `Result`, `Signal`: what a strand does next.
* `Frame`: one thing in progress; `Parked`: what a strand waits for; `Strand`.
* `Task`, `Gather`: strands that others wait for.
* `Job`: what the loop runs; `Engine`: the whole state.
-/

namespace Patchbay

/-- What an editor may ask of an engine that takes time. -/
inductive Request where
  | run
  | step
  | runNode (id : String)
  | pull (id port : String)
  | join
  /-- a run that goes on by itself, under a name -/
  | startRun (name : String)
  | waitRun (name : String)
  /-- lets others run a number of times -/
  | tick (n : Nat)
  /-- lets a number of milliseconds pass -/
  | advance (ms : Value)
  /-- a command, answered at once -/
  | command (c : Command)
  /-- a request that could not be made out, with the reason -/
  | refused (e : Raised)

/-- What a request is answered with. -/
inductive Response where
  | answer (a : Answer)
  | run (r : RunResult)
  | trigger (t : TriggerResult)
  | triggers (ts : List TriggerResult)
  | value (v : Value)
  | time (us : Int)

/-- A behaviour being run for a node. -/
structure Invocation where
  /-- serial of the node -/
  serial : Nat
  node : String
  /-- the kind as it was when the invocation began -/
  kind : Kind Behavior
  mode : Mode
  /-- outputs that control flow was continued along -/
  advanced : List String := []
  halted : Bool := false
  /-- what has been read -/
  dependencies : Dependencies := []

/-- Something a strand begins. -/
inductive Call where
  /-- a root trigger, from a node or from one of its outputs -/
  | trigger (node : String) (origin : Origin) (port : Option String) (seeds : Dict)
  /-- control flow through the given nodes, one after another -/
  | walk (agenda : List String)
  /-- the invocation of a behaviour -/
  | invoke (i : Invocation)
  /-- the rest of a behaviour -/
  | behave (i : Invocation) (s : Script)
  /-- the value of a data input -/
  | input (node port : String)
  /-- the value of an output -/
  | output (node port : String)
  | run
  | request (r : Request)

/-- What something that was begun ends with. -/
inductive Result where
  | nothing
  | flag (b : Bool)
  | pulled (v : Value) (ds : Dependencies)
  | invoked (v : Value) (i : Invocation)
  | response (r : Response)

/-- What a strand does next. -/
inductive Signal where
  | call (c : Call)
  | back (r : Result)
  | raise (e : Raised)

/-- One thing in progress. -/
inductive Frame where
  /-- a behaviour that waits -/
  | behavior (i : Invocation) (w : Wait) (k : Except Raised w.Reply → Script)
  /-- nodes that control flow reaches after the current one -/
  | walk (agenda : List String)
  /-- an output being computed by its node -/
  | output (node port : String) (serial : Nat)
  /-- what was begun runs on a task of its own -/
  | hop
  | trigger (node : String) (origin : Origin)
  /-- a run that sets up its event nodes -/
  | arming (rest starts : List String) (results : List TriggerResult)
  /-- a run that waits for its start triggers -/
  | gathering (results : List TriggerResult)
  /-- a request to run one node -/
  | direct
  /-- a request that waits for every trigger in flight -/
  | joining (results : List TriggerResult)
  /-- a request for a value -/
  | value
  /-- a request to let others run -/
  | ticking (left : Nat)
  /-- a request to let time pass -/
  | advancing
  /-- the end of a task -/
  | task (id : Nat)
  /-- the list of requests -/
  | session

/-- What a strand waits for. -/
inductive Parked where
  /-- its turn -/
  | turn (s : Signal)
  | sleep (id : Nat)
  | task (id : Nat)
  | gather (id : Nat)

/-- A chain of things in progress, innermost first, with the scope of the trigger it runs. -/
structure Strand where
  id : Nat
  scope : Scope := {}
  frames : List Frame

/-- What happens when a task is done. -/
inductive Callback where
  /-- it is no longer in flight -/
  | discard
  | gather (id : Nat)
  | strand (id : Nat)

/-- A strand that others may wait for. -/
structure Task where
  id : Nat
  outcome : Option (Except Raised Response) := none
  callbacks : List Callback := []

/-- Waiting for several tasks at once. -/
structure Gather where
  id : Nat
  members : List Nat
  /-- how many of them are done -/
  done : Nat := 0
  strand : Nat
  outcome : Option (Except Raised (List TriggerResult)) := none

/-- What the loop of an engine runs. -/
inductive Job where
  /-- the next turn of a strand -/
  | resume (strand : Nat)
  /-- the time of a plain wait is over -/
  | timeout (strand : Nat)
  /-- a timer or interval fires -/
  | fire (registration : Nat)
  /-- the time of a sleep is over -/
  | elapse (sleeper : Nat)
  | discard (task : Nat)
  | gather (id task : Nat)

/-- The job that a callback of a task becomes. -/
def Callback.job (task : Nat) : Callback → Job
  | .discard => .discard task
  | .gather g => .gather g task
  | .strand s => .resume s

/-- The answer to one request, with what observers were told meanwhile. -/
structure Outcome where
  result : Except Raised Response
  notices : List Notice

/-- An engine. -/
structure Engine where
  config : Config := {}
  registry : Registry Behavior := {}
  graph : Graph := {}
  /-- nodes that are in no graph any more, but whose behaviours may still run -/
  retired : List Node := []
  store : Variables := {}
  scheduler : Scheduler Firing Job := {}
  running : Bool := false
  /-- nodes that `step` has still to run -/
  stepQueue : List String := []
  /-- how many node ids were made up -/
  minted : Nat := 0
  /-- the number of the next trigger; zero is no trigger -/
  nextTrigger : Nat := 1
  nextStrand : Nat := 0
  /-- strands that wait, and for what -/
  strands : List (Strand × Parked) := []
  tasks : List Task := []
  /-- tasks of triggers in flight -/
  inFlight : List Nat := []
  gathers : List Gather := []
  /-- runs that go on by themselves -/
  runs : List (String × Nat) := []
  /-- what observers were told, oldest first -/
  trace : Array Notice := #[]
  /-- triggers in the order in which observers first heard of them -/
  known : Array Nat := #[]
  /-- requests still to be answered -/
  todo : List Request := []
  outcomes : Array Outcome := #[]
  /-- how much of the trace belongs to answered requests -/
  reported : Nat := 0
  /-- whether all requests are answered -/
  closed : Bool := false

namespace Engine

/-- A new engine. Its shortest interval must be a number of milliseconds. -/
def create (config : Config) (registry : Registry Behavior) (graph : Graph) :
    Except Raised Engine := do
  let shortest ← Fault.lift (Scheduler.minIntervalOf config.minIntervalMs)
  let scheduler : Scheduler Firing Job := { minInterval := shortest }
  return { config, registry, graph, scheduler }

/-- The scope of a new trigger. -/
def freshScope (e : Engine) : Scope × Engine :=
  ({ trigger := e.nextTrigger }, { e with nextTrigger := e.nextTrigger + 1 })

/-- Tells observers. -/
def emit (e : Engine) (n : Notice) : Engine :=
  { e with
    trace := e.trace.push n
    known := match n.trigger? with
      | some t => if e.known.contains t then e.known else e.known.push t
      | none => e.known }

/-- The place of a trigger among those that observers have heard of, from one. -/
def label? (e : Engine) (trigger : Nat) : Option Nat :=
  (e.known.findIdx? fun t => t == trigger).map fun i => i + 1

/-- Adds a job at the end of the queue. -/
def soon (e : Engine) (j : Job) : Engine :=
  { e with scheduler := { e.scheduler with loop := e.scheduler.loop.soon j } }

/-- Changes a node, whether it is in the graph or not. -/
def modifyNode (e : Engine) (serial : Nat) (f : Node → Node) : Engine :=
  let change (n : Node) : Node := if n.serial == serial then f n else n
  { e with
    graph := { e.graph with nodes := e.graph.nodes.map change }
    retired := e.retired.map change }

/-- The node with a serial, whether it is in the graph or not. -/
def nodeBySerial? (e : Engine) (serial : Nat) : Option Node :=
  match e.graph.nodes.find? fun n => n.serial == serial with
  | some n => some n
  | none => e.retired.find? fun n => n.serial == serial

/-- How the engine holds its scheduler. -/
def withScheduler : Scheduler.Within Firing Job Engine where
  get e := e.scheduler
  put e s := { e with scheduler := s }

/-! ## Strands and tasks -/

/-- The state after a turn, and what the strand that had it does next, unless it is parked or over. -/
structure Turn where
  engine : Engine
  next : Option (Strand × Signal) := none

/-- The strand goes on. -/
def go (e : Engine) (s : Strand) (next : Signal) : Turn := ⟨e, some (s, next)⟩

/-- The strand begins something, above what it has in progress. -/
def nest (e : Engine) (s : Strand) (f : Frame) (c : Call) : Turn :=
  e.go { s with frames := f :: s.frames } (.call c)

/-- Parks a strand. -/
def park (e : Engine) (s : Strand) (p : Parked) : Engine := { e with strands := (s, p) :: e.strands }

/-- Parks a strand until its next turn. -/
def parkTurn (e : Engine) (s : Strand) (next : Signal) : Engine :=
  (e.park s (.turn next)).soon (.resume s.id)

/-- Starts a strand that others may wait for, and yields the id of its task. -/
def startTask (e : Engine) (c : Call) (callbacks : List Callback) : Nat × Engine :=
  let id := e.nextStrand
  let s : Strand := { id := id, frames := [.task id] }
  let t : Task := { id := id, callbacks := callbacks }
  let e := { e with nextStrand := id + 1, tasks := e.tasks ++ [t] }
  (id, e.parkTurn s (.call c))

/-- Starts a trigger on a strand of its own. -/
def spawn (e : Engine) (c : Call) : Nat × Engine :=
  let (id, e) := e.startTask c [.discard]
  (id, { e with inFlight := e.inFlight ++ [id] })

/-- The task with an id. -/
def task? (e : Engine) (id : Nat) : Option Task := e.tasks.find? fun t => t.id == id

/-- A task is done: everyone who waits for it is told, one after another. -/
def completeTask (e : Engine) (id : Nat) (outcome : Except Raised Response) : Engine :=
  match e.task? id with
  | none => e
  | some t =>
    let e := { e with tasks := e.tasks.map fun t =>
      if t.id == id then { t with outcome := some outcome, callbacks := [] } else t }
    t.callbacks.foldl (fun e c => e.soon (c.job id)) e

/-- Adds a callback to a task; one that is done already calls it at once. -/
def onDone (e : Engine) (id : Nat) (c : Callback) : Engine :=
  match e.task? id with
  | none => e
  | some t =>
    if t.outcome.isSome then e.soon (c.job id)
    else { e with tasks := e.tasks.map fun t =>
      if t.id == id then { t with callbacks := t.callbacks ++ [c] } else t }

/-- Starts to wait for several tasks. -/
def gather (e : Engine) (members : List Nat) (strand : Nat) : Nat × Engine :=
  let id := e.gathers.length
  let g : Gather := { id := id, members := members, strand := strand }
  let e := { e with gathers := e.gathers ++ [g] }
  (id, members.foldl (fun e t => e.onDone t (.gather id)) e)

/-- The results of tasks that are all done. -/
def resultsOf (e : Engine) (members : List Nat) : List TriggerResult :=
  members.filterMap fun id => match (e.task? id).bind Task.outcome with
    | some (.ok (.trigger t)) => some t
    | _ => none

/-- One more task of a gather is done. The first error ends the waiting, else the last task does. -/
def gatherDone (e : Engine) (id task : Nat) : Engine :=
  match e.gathers.find? fun g => g.id == id with
  | none => e
  | some g =>
    let done := g.done + 1
    let outcome := match g.outcome, (e.task? task).bind Task.outcome with
      | some o, _ => some o
      | none, some (.error err) => some (.error err)
      | none, _ => if done == g.members.length then some (.ok (e.resultsOf g.members)) else none
    let e := { e with gathers := e.gathers.map fun x =>
      if x.id == id then { x with done := done, outcome := outcome } else x }
    if g.outcome.isNone && outcome.isSome then e.soon (.resume g.strand) else e

end Engine

end Patchbay
