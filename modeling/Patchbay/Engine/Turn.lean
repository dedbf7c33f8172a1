import Patchbay.Engine.Resolution

/-!
# Turns

What a strand does in a turn: it begins something, or what it had begun ends with a result or an error
and the thing in progress below goes on. The loop picks which strand has the next turn.

Contents:
* `Engine.startRun`, `Engine.armNext`: a run sets up event nodes one by one, then starts all start
  nodes and waits for them.
* `Engine.nextStep`: the node that `step` runs next.
* `Engine.request`: begins a request.
* `Engine.back`, `Engine.raise`: a result or an error reaches a frame.
* `Engine.turn`, `Engine.handle`: one turn of a strand, one job of the loop.
-/

namespace Patchbay.Engine

/-! ## Runs -/

/-- The nodes that a run starts from. -/
def entryPoints (e : Engine) : Except Raised (List Node) :=
  match e.graph.ofKind e.config.startKind with
  | [] => do throw (.cause (.nothingToStart (← Fault.lift e.config.startKind.toText)))
  | starts => .ok starts

/-- Whether a node is an event node that a run does not start from. -/
def isArmed (e : Engine) (n : Node) : Bool :=
  !e.config.startKind.same (.str n.kind) && match e.registry.find? n.kind with
    | some k => k.shape == .event
    | none => false

/-- The event nodes that a run sets up. -/
def eventNodes (e : Engine) : List Node := e.graph.nodes.filter e.isArmed

/-- Starts triggers on strands of their own, and yields their tasks. -/
def spawnStarts (e : Engine) : List String → List Nat × Engine
  | [] => ([], e)
  | node :: rest =>
    let (id, e) := e.spawn (.trigger node .start none [])
    let (ids, e) := e.spawnStarts rest
    (id :: ids, e)

/-- The next part of a run: an event node is set up, or the start nodes are started together. -/
def armNext (e : Engine) (s : Strand) (rest starts : List String) (results : List TriggerResult) :
    Turn :=
  match rest with
  | node :: rest => e.nest s (.arming rest starts results) (.trigger node .arm none [])
  | [] =>
    let (ids, e) := e.spawnStarts starts
    let (id, e) := e.gather ids s.id
    ⟨e.park { s with frames := .gathering results :: s.frames } (.gather id), none⟩

/-- Begins a run. -/
def startRun (e : Engine) (s : Strand) : Turn :=
  match e.entryPoints with
  | .error err => e.go s (.raise err)
  | .ok starts =>
    let ids := starts.map Node.id
    let e := e.beginRun.emit (.runStarted ids)
    e.armNext s (e.eventNodes.map Node.id) ids []

/-- The node that `step` runs next: the first one queued that is still in the graph. An empty queue is
filled with the start nodes and then the other event nodes. -/
def nextStep (e : Engine) : Except Raised (String × Engine) := do
  match e.stepQueue.dropWhile fun id => !e.graph.hasNode id with
  | id :: rest => return (id, { e with stepQueue := rest })
  | [] =>
    let starts ← e.entryPoints
    let e := e.beginRun
    match starts.map Node.id ++ e.eventNodes.map Node.id with
    | id :: rest => return (id, { e with stepQueue := rest })
    | [] => throw (.fault .index)

/-- Runs the next queued node. -/
def step (e : Engine) (s : Strand) : Turn :=
  match e.nextStep with
  | .error err => { e with stepQueue := [] }.go s (.raise err)
  | .ok (id, e) =>
    let origin : Origin := match e.graph.node? id with
      | some n => if e.config.startKind.same (.str n.kind) then .start else .arm
      | none => .arm
    e.go s (.call (.trigger id origin none []))

/-- Waits until no trigger is in flight. -/
def join (e : Engine) (s : Strand) (results : List TriggerResult) : Turn :=
  if e.inFlight.isEmpty then e.go s (.back (.response (.triggers results)))
  else
    let (id, e) := e.gather e.inFlight s.id
    ⟨e.park { s with frames := .joining results :: s.frames } (.gather id), none⟩

/-! ## Requests -/

/-- Begins to wait for a run that goes on by itself. -/
def waitRun (e : Engine) (s : Strand) (name : String) : Turn :=
  match (e.runs.lookup name).bind e.task? with
  | none => e.go s (.raise (.fault .key))
  | some t => match t.outcome with
    | some (.ok r) => e.go s (.back (.response r))
    | some (.error err) => e.go s (.raise err)
    | none => ⟨(e.onDone t.id (.strand s.id)).park s (.task t.id), none⟩

/-- Begins to let a time in milliseconds pass; without any time others still have a turn. -/
def pass (e : Engine) (s : Strand) (ms : Value) : Turn :=
  let waiting := { s with frames := .advancing :: s.frames }
  match Value.div ms (.int 1000) with
  | .ok (.float seconds) =>
    if seconds ≤ 0.0 then ⟨e.parkTurn waiting (.back .nothing), none⟩
    else match Loop.dueAt (e.scheduler.loop.seconds + seconds) with
      | .error f => e.go s (.raise (.fault f))
      | .ok due =>
        let (_, loop) := e.scheduler.loop.addTimer due (.timeout s.id)
        ⟨{ e with scheduler := { e.scheduler with loop := loop } }.park waiting
          (.turn (.back .nothing)), none⟩
  | .ok _ => e.go s (.raise (.fault .type))
  | .error f => e.go s (.raise (.fault f))

/-- Lets others run a number of times. -/
def tick (e : Engine) (s : Strand) : Nat → Turn
  | 0 => e.go s (.back .nothing)
  | n + 1 => ⟨e.parkTurn { s with frames := .ticking n :: s.frames } (.back .nothing), none⟩

/-- Begins a request. -/
def request (e : Engine) (s : Strand) (r : Request) : Turn :=
  match r with
  | .command c => match e.command c with
    | (.ok a, e) => e.go s (.back (.response (.answer a)))
    | (.error err, e) => e.go s (.raise err)
  | .run => e.go s (.call .run)
  | .step => e.step s
  | .runNode id =>
    let e := if e.running then e else e.beginRun
    e.nest s .direct (.trigger id .direct none [])
  | .pull id port =>
    let (sc, e) := e.freshScope
    e.nest { s with scope := sc } .value (.input id port)
  | .join => e.join s []
  | .startRun name =>
    let (id, e) := e.startTask .run []
    { e with runs := (name, id) :: e.runs }.go s (.back .nothing)
  | .waitRun name => e.waitRun s name
  | .tick n => e.tick s n
  | .advance ms => e.pass s ms
  | .refused err => e.go s (.raise err)

/-- Begins the next request, or ends the session. -/
def nextRequest (e : Engine) (s : Strand) : Turn :=
  match e.todo with
  | [] => ⟨{ e with closed := true }, none⟩
  | r :: rest => { e with todo := rest }.go { s with frames := [.session] } (.call (.request r))

/-- Notes the answer to a request, and goes on with the next one. -/
def answerRequest (e : Engine) (s : Strand) (result : Except Raised Response) : Turn :=
  let notices := (e.trace.extract e.reported e.trace.size).toList
  { e with
    outcomes := e.outcomes.push ⟨result, notices⟩
    reported := e.trace.size }.nextRequest s

/-! ## Frames -/

/-- The response that a result is. -/
def responseOf : Result → Response
  | .response r => r
  | .pulled v _ => .value v
  | _ => .answer .nothing

/-- A result reaches the frame that waited for it. -/
def back (e : Engine) (s : Strand) (f : Frame) (r : Result) : Turn :=
  match f, r with
  | .behavior i w k, r => e.resumeBehavior s i w k r
  | .walk rest, .invoked v i => e.continueFrom s i v rest
  | .walk rest, _ => e.go s (.call (.walk rest))
  | .output node port serial, .invoked v i => e.finishOutput s node port serial v i
  | .output _ _ _, r => e.go s (.back r)
  | .hop, r => ⟨e.parkTurn s (.back r), none⟩
  | .trigger node origin, _ => e.endTrigger s node origin none
  | .arming rest starts results, .response (.trigger t) => e.armNext s rest starts (results ++ [t])
  | .arming rest starts results, _ => e.armNext s rest starts results
  | .gathering results, .response (.triggers ts) =>
    let all := results ++ ts
    e.go s (.back (.response (.run ⟨RunResult.statusOf e.running all, all⟩)))
  | .gathering _, r => e.go s (.back r)
  | .direct, .response (.trigger t) => match t.error with
    | some f => e.go s (.raise (.failure f))
    | none => e.go s (.back r)
  | .direct, r => e.go s (.back r)
  | .joining results, .response (.triggers ts) => e.join s (results ++ ts)
  | .joining results, _ => e.join s results
  | .value, r => e.go s (.back (.response (responseOf r)))
  | .ticking n, _ => e.tick s n
  | .advancing, _ => e.go s (.back (.response (.time e.scheduler.loop.now)))
  | .task id, r => ⟨e.completeTask id (.ok (responseOf r)), none⟩
  | .session, r => e.answerRequest s (.ok (responseOf r))

/-- An error reaches a frame. -/
def raise (e : Engine) (s : Strand) (f : Frame) (err : Raised) : Turn :=
  match f with
  | .behavior i _ k => e.go s (.call (.behave i (k (.error err))))
  | .output node _ _ => e.go { s with scope := s.scope.leave node } (.raise err)
  | .hop => ⟨e.parkTurn s (.raise err), none⟩
  | .trigger node origin => match err with
    | .failure f => e.endTrigger s node origin (some f)
    | _ => e.go s (.raise err)
  | .task id => ⟨e.completeTask id (.error err), none⟩
  | .session => e.answerRequest s (.error err)
  | _ => e.go s (.raise err)

/-! ## Turns -/

/-- Begins something. -/
def call (e : Engine) (s : Strand) (c : Call) : Turn :=
  match c with
  | .trigger node origin port seeds => e.startTrigger s node origin port seeds
  | .walk agenda => e.walk s agenda
  | .invoke i => e.invoke s i
  | .behave i script => e.behave s i script
  | .input node port => e.pullInput s node port
  | .output node port => e.pullOutput s node port
  | .run => e.startRun s
  | .request r => e.request s r

/-- One turn of a strand. -/
def turn (e : Engine) (s : Strand) (next : Signal) : Turn :=
  match next, s.frames with
  | .call c, _ => e.call s c
  | .back _, [] => ⟨e, none⟩
  | .back r, f :: frames => e.back { s with frames := frames } f r
  | .raise _, [] => ⟨e, none⟩
  | .raise err, f :: frames => e.raise { s with frames := frames } f err

/-- Whether what a parked strand waits for has come. -/
def hasCome (e : Engine) : Parked → Bool
  | .turn _ => true
  | .sleep id => e.scheduler.hasEnded id
  | .task id => ((e.task? id).bind Task.outcome).isSome
  | .gather id => ((e.gathers.find? fun g => g.id == id).bind Gather.outcome).isSome

/-- The signal with which a parked strand goes on. -/
def unpark (e : Engine) (p : Parked) : Signal × Engine :=
  match p with
  | .turn next => (next, e)
  | .sleep id =>
    let (elapsed, scheduler) := e.scheduler.endSleep id
    (.back (.flag elapsed), { e with scheduler := scheduler })
  | .task id => match (e.task? id).bind Task.outcome with
    | some (.ok r) => (.back (.response r), e)
    | some (.error err) => (.raise err, e)
    | none => (.back .nothing, e)
  | .gather id => match (e.gathers.find? fun g => g.id == id).bind Gather.outcome with
    | some (.ok ts) => (.back (.response (.triggers ts)), e)
    | some (.error err) => (.raise err, e)
    | none => (.back .nothing, e)

/-- One job of the loop. -/
def handle (e : Engine) (j : Job) : Turn :=
  match j with
  | .resume id => match e.strands.find? fun x => x.1.id == id with
    | none => ⟨e, none⟩
    | some (s, p) =>
      if e.hasCome p then
        let e := { e with strands := e.strands.filter fun x => x.1.id != id }
        let (next, e) := e.unpark p
        e.go s next
      else ⟨e, none⟩
  | .timeout id => ⟨e.soon (.resume id), none⟩
  | .fire id => ⟨Scheduler.expire withScheduler .fire runFiring id e, none⟩
  | .elapse id => ⟨{ e with scheduler := e.scheduler.elapse id }, none⟩
  | .discard id => ⟨{ e with inFlight := e.inFlight.filter fun t => t != id }, none⟩
  | .gather id task => ⟨e.gatherDone id task, none⟩

end Patchbay.Engine
