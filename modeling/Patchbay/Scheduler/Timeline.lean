import Patchbay.Scheduler

/-!
# Timelines

A list of scheduler operations, carried out one after another on the scheduler's loop. What is called
when a registration fires leaves a record and may carry out further operations; its faults are
dropped.

Contents:
* `Deed`: an operation; `Reaction`: what a registration calls.
* `TimelineRecord`, `DeedReply`, `TimelineStep`: what is recorded.
* `Timeline.play`.
-/

namespace Patchbay

/-- An operation on a scheduler. -/
inductive Deed where
  | callLater (id owner : String) (seconds : Value) (follow : List Deed) (fails : Bool)
  | every (id owner : String) (seconds : Value) (follow : List Deed) (fails : Bool)
  | listen (id owner : String) (event : Value) (follow : List Deed) (fails : Bool)
  | dispatch (event payload : Value)
  | sleep (id : String) (seconds : Value)
  | cancel (id : String)
  | cancelOwner (owner : String)
  | cancelAll
  | wakeAll
  | owned (owner : String)
  | state
  | advance (ms : Value)
  | tick (n : Nat)

/-- What a registration calls: it leaves a record under an id and carries out operations. -/
structure Reaction where
  id : String
  follow : List Deed
  /-- whether it fails in the end, which makes no difference -/
  fails : Bool

/-- A record of something called. -/
inductive TimelineRecord where
  | fired (id : String) (now : Int) (count : Nat) (payload : Option Value)
  | slept (id : String) (now : Int) (elapsed : Bool)

/-- What an operation yields. -/
inductive DeedReply where
  | nothing
  | count (n : Nat)
  | registrations (rs : List (Registration Reaction))
  | state (active : List (Registration Reaction)) (handles : List (String × Registration Reaction))

/-- One operation carried out: what it yields, the records made meanwhile, the clock and the number of
active registrations after it. -/
structure TimelineStep where
  result : Except Fault DeedReply
  records : List TimelineRecord
  now : Int
  active : Nat

/-- What the loop of a timeline runs. -/
inductive TimelineJob where
  | fire (registration : Nat)
  | elapse (sleeper : Nat)
  /-- a sleeper begins -/
  | beginSleep (id : String) (seconds : Value)
  /-- a sleeper goes on -/
  | woken (id : String) (sleeper : Nat)
  /-- the time that the list of operations let pass is over -/
  | timeout
  /-- the list of operations goes on -/
  | goOn (ticks : Nat)

/-- A timeline under way. -/
structure Timeline where
  scheduler : Scheduler Reaction TimelineJob
  /-- the latest registration under each id -/
  handles : List (String × Nat) := []
  /-- records of the current operation, oldest first -/
  records : List TimelineRecord := []
  todo : List Deed := []
  done : List TimelineStep := []
  /-- whether the list of operations waits -/
  waiting : Bool := false

namespace Timeline

/-- How a timeline holds its scheduler. -/
def within : Scheduler.Within Reaction TimelineJob Timeline where
  get t := t.scheduler
  put t s := { t with scheduler := s }

/-- The clock. -/
def now (t : Timeline) : Int := t.scheduler.loop.now

/-- Leaves a record. -/
def leave (t : Timeline) (r : TimelineRecord) : Timeline := { t with records := t.records ++ [r] }

/-- The latest registration under an id. -/
def handle? (t : Timeline) (id : String) : Option (Registration Reaction) :=
  (t.handles.lookup id).bind t.scheduler.find?

/-- Puts a registration under an id, in the place of an earlier one. -/
def putHandle (id : String) (n : Nat) : List (String × Nat) → List (String × Nat)
  | [] => [(id, n)]
  | e :: rest => if e.1 == id then (id, n) :: rest else e :: putHandle id n rest

/-- The timeline after a registration, which is then known under an id. -/
def registered (t : Timeline) (id : String)
    (r : Except Fault Nat × Scheduler Reaction TimelineJob) : Except Fault DeedReply × Timeline :=
  match r with
  | (.ok n, s) => (.ok .nothing, { t with scheduler := s, handles := putHandle id n t.handles })
  | (.error f, s) => (.error f, { t with scheduler := s })

/-- The timeline after a count. -/
def counted (t : Timeline) (r : Except Fault Nat × Scheduler Reaction TimelineJob) :
    Except Fault DeedReply × Timeline :=
  (r.1.map .count, { t with scheduler := r.2 })

/-- Carries out an operation that does not wait; `react` is what registrations do when they fire. -/
def deed (react : Registration Reaction → Value → Timeline → Timeline) (t : Timeline) (d : Deed) :
    Except Fault DeedReply × Timeline :=
  match d with
  | .callLater id owner seconds follow fails =>
    t.registered id (t.scheduler.callLater .fire owner seconds ⟨id, follow, fails⟩)
  | .every id owner seconds follow fails =>
    t.registered id (t.scheduler.every .fire owner seconds ⟨id, follow, fails⟩)
  | .listen id owner event follow fails =>
    t.registered id (t.scheduler.listen owner event ⟨id, follow, fails⟩)
  | .dispatch event payload =>
    let (r, t) := Scheduler.dispatch within react event payload t
    (r.map .count, t)
  | .sleep id seconds =>
    (.ok .nothing, { t with scheduler := { t.scheduler with
      loop := t.scheduler.loop.soon (.beginSleep id seconds) } })
  | .cancel id => match t.handle? id with
    | none => (.error .key, t)
    | some r =>
      let (done, s) := t.scheduler.cancel r.id
      (done.map fun _ => .nothing, { t with scheduler := s })
  | .cancelOwner owner => t.counted (t.scheduler.cancelOwner owner)
  | .cancelAll => t.counted t.scheduler.cancelAll
  | .wakeAll =>
    let (n, s) := t.scheduler.wakeAll
    (.ok (.count n), { t with scheduler := s })
  | .owned owner => (.ok (.registrations (t.scheduler.active (some owner))), t)
  | .state => (.ok (.state (t.scheduler.active none)
      (t.handles.filterMap fun (id, n) => (t.scheduler.find? n).map fun r => (id, r))), t)
  | .advance _ => (.ok .nothing, t)
  | .tick _ => (.ok .nothing, t)

/-- Carries out operations up to the first fault, which is dropped. -/
def deeds (react : Registration Reaction → Value → Timeline → Timeline) (t : Timeline) :
    List Deed → Timeline
  | [] => t
  | d :: rest => match deed react t d with
    | (.ok _, t) => deeds react t rest
    | (.error _, t) => t

/-- What a registration does when it fires; events may be dispatched in turn, to a bounded depth. -/
def react : Nat → Registration Reaction → Value → Timeline → Timeline
  | 0, _, _, t => t
  | n + 1, r, payload, t =>
    let id := r.callback.id
    let count := match t.handle? id with
      | some latest => latest.fired
      | none => r.fired
    let t := t.leave (.fired id t.now count (if r.kind == .listener then some payload else none))
    deeds (react n) t r.callback.follow

/-- The deepest nesting of events. -/
def depthBound : Nat := 1000

/-- Notes what an operation yields. -/
def finish (t : Timeline) (result : Except Fault DeedReply) : Timeline :=
  { t with
    waiting := false
    records := []
    done := t.done ++ [⟨result, t.records, t.now, t.scheduler.activeCount⟩] }

/-- The list of operations waits for its next turn. -/
def yield (t : Timeline) (ticks : Nat) : Timeline :=
  { t with
    waiting := true
    scheduler := { t.scheduler with loop := t.scheduler.loop.soon (.goOn ticks) } }

/-- The list of operations lets a time in milliseconds pass. -/
def pass (t : Timeline) (ms : Value) : Timeline :=
  match Value.div ms (.int 1000) with
  | .ok (.float seconds) =>
    if seconds ≤ 0.0 then t.yield 0
    else match Loop.dueAt (t.scheduler.loop.seconds + seconds) with
      | .ok due => { t with
          waiting := true
          scheduler := { t.scheduler with loop := (t.scheduler.loop.addTimer due .timeout).2 } }
      | .error f => t.finish (.error f)
  | .ok _ => t.finish (.error .type)
  | .error f => t.finish (.error f)

/-- Begins the next operation. -/
def start (t : Timeline) (d : Deed) : Timeline :=
  match d with
  | .advance ms => t.pass ms
  | .tick 0 => t.finish (.ok .nothing)
  | .tick (n + 1) => t.yield n
  | d =>
    let (r, t) := deed (react depthBound) t d
    t.finish r

/-- One job of the loop. -/
def handle (t : Timeline) (j : TimelineJob) : Timeline :=
  match j with
  | .fire id => Scheduler.expire within .fire (react depthBound) id t
  | .elapse id => { t with scheduler := t.scheduler.elapse id }
  | .beginSleep id seconds => match t.scheduler.sleep seconds .elapse (.woken id) with
    | .ok (_, s) => { t with scheduler := s }
    | .error _ => t
  | .woken id sleeper =>
    let (elapsed, s) := t.scheduler.endSleep sleeper
    { t with scheduler := s }.leave (.slept id t.now elapsed)
  | .timeout => t.yield 0
  | .goOn 0 => t.finish (.ok .nothing)
  | .goOn (n + 1) => t.yield n

/-- Up to a number of operations and jobs. -/
def runFor : Nat → Timeline → Timeline
  | 0, t => t
  | n + 1, t =>
    if t.waiting then match t.scheduler.loop.next? with
      | none => t
      | some (job, loop) => runFor n ({ t with scheduler := { t.scheduler with loop := loop } }.handle job)
    else match t.todo with
      | [] => t
      | d :: rest => runFor n ({ t with todo := rest }.start d)

/-- More operations and jobs than any timeline takes. -/
def jobBound : Nat := 1000000000

/-- Carries out a list of operations on a new scheduler with a shortest interval in milliseconds. -/
def play (minIntervalMs : Value) (ds : List Deed) : Except Fault (List TimelineStep) := do
  let shortest ← Scheduler.minIntervalOf minIntervalMs
  let t : Timeline := { scheduler := { minInterval := shortest }, todo := ds }
  return (runFor jobBound t).done

end Timeline

end Patchbay
