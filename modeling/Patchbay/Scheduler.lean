import Patchbay.Loop
import Patchbay.Value.Order

/-!
# Scheduler

Timers, intervals and listeners, each owned by a node, and sleeps that can be ended early. What is
called when a registration fires is of a type `κ`; jobs on the loop are of a type `α`. A registration
is found through two indexes: by its owner, and for listeners by the event they listen to.

Contents:
* `Registration`, `Sleeper`, `Scheduler`.
* `callLater`, `every`, `listen`: registering. A registration is tracked before its timer is set, so
  one whose timer cannot be set stays tracked.
* `cancel`, `cancelOwner`, `cancelAll`.
* `expire`, `dispatch`: firing.
* `sleep`, `elapse`, `wakeAll`, `hasEnded`, `endSleep`.
-/

namespace Patchbay

/-- What makes a registration fire. -/
inductive RegistrationKind where
  | timer
  | interval
  | listener
deriving DecidableEq

/-- The name of a kind of registration. -/
def RegistrationKind.name : RegistrationKind → String
  | .timer => "timer"
  | .interval => "interval"
  | .listener => "listener"

/-- A timer, interval or listener. -/
structure Registration (κ : Type) where
  id : Nat
  owner : String
  kind : RegistrationKind
  callback : κ
  /-- the period of an interval, in seconds -/
  interval : Option Value := none
  /-- the event a listener waits for -/
  event : Value := .null
  fired : Nat := 0
  cancelled : Bool := false
  /-- the job on the loop that makes it fire next -/
  handle : Option Nat := none
  /-- when an interval fires next, in seconds -/
  nextAt : Float := 0.0

/-- A sleep in progress. -/
structure Sleeper (α : Type) where
  id : Nat
  /-- the job on the loop that ends the sleep -/
  timer : Nat
  /-- the job that continues the sleeper -/
  resume : α
  /-- how the sleep ended: whether the whole time elapsed -/
  outcome : Option Bool := none

/-- Registrations and sleeps on a loop. -/
structure Scheduler (κ α : Type) where
  loop : Loop α := {}
  /-- the shortest period of an interval, in seconds -/
  minInterval : Float := 0.01
  /-- every registration ever made -/
  registrations : List (Registration κ) := []
  /-- active registrations by owner -/
  byOwner : List (String × List Nat) := []
  /-- listeners by event -/
  listeners : List (Value × List Nat) := []
  sleepers : List (Sleeper α) := []
  nextSleeper : Nat := 0

namespace Scheduler

variable {κ α : Type}

/-- The shortest period in seconds, from milliseconds. -/
def minIntervalOf (ms : Value) : Except Fault Float := do
  match ← Value.div ms (.float 1000.0) with
  | .float x => return x
  | _ => throw .type

/-! ## Look-ups -/

/-- The registration with an id. -/
def find? (s : Scheduler κ α) (id : Nat) : Option (Registration κ) :=
  s.registrations.find? fun r => r.id == id

/-- The ids of an owner's registrations. -/
def ownedBy (s : Scheduler κ α) (owner : String) : List Nat := (s.byOwner.lookup owner).getD []

/-- The ids of all active registrations, owner by owner. -/
def activeIds (s : Scheduler κ α) : List Nat := s.byOwner.flatMap Prod.snd

/-- How many registrations are active. -/
def activeCount (s : Scheduler κ α) : Nat := s.activeIds.length

/-- The active registrations, owner by owner, or those of one owner. -/
def active (s : Scheduler κ α) (owner : Option String) : List (Registration κ) :=
  (match owner with
    | some o => s.ownedBy o
    | none => s.activeIds).filterMap s.find?

/-- The listeners for an event. A name that may not be a key is a fault. -/
def listenersFor (s : Scheduler κ α) (event : Value) : Except Fault (List Nat) :=
  if event.hashable then
    .ok (match s.listeners.find? fun e => event.same e.1 with
      | some e => e.2
      | none => [])
  else .error .type

/-! ## Bookkeeping -/

/-- Changes a registration. -/
def modify (s : Scheduler κ α) (id : Nat) (f : Registration κ → Registration κ) : Scheduler κ α :=
  { s with registrations := s.registrations.map fun r => if r.id == id then f r else r }

/-- Adds an id to the list under a key, which is made if need be. -/
def indexed {γ : Type} (same : γ → γ → Bool) (key : γ) (id : Nat) :
    List (γ × List Nat) → List (γ × List Nat)
  | [] => [(key, [id])]
  | e :: rest => if same key e.1 then (e.1, e.2 ++ [id]) :: rest else e :: indexed same key id rest

/-- Removes an id from the list under a key; a list that is empty then is dropped. -/
def unindexed {γ : Type} (same : γ → γ → Bool) (key : γ) (id : Nat) :
    List (γ × List Nat) → List (γ × List Nat)
  | [] => []
  | e :: rest =>
    if same key e.1 then
      let ids := e.2.erase id
      if ids.isEmpty then rest else (e.1, ids) :: rest
    else e :: unindexed same key id rest

/-- Removes an id from the first list that holds it; a list that is empty then is dropped. -/
def withdrawn {γ : Type} (id : Nat) : List (γ × List Nat) → List (γ × List Nat)
  | [] => []
  | e :: rest =>
    if id ∈ e.2 then
      let ids := e.2.erase id
      if ids.isEmpty then rest else (e.1, ids) :: rest
    else e :: withdrawn id rest

/-- Stores a new registration under its owner, and yields its id. -/
def track (s : Scheduler κ α) (r : Registration κ) : Nat × Scheduler κ α :=
  let id := s.registrations.length
  (id, { s with
    registrations := s.registrations ++ [{ r with id := id }]
    byOwner := indexed (· == ·) r.owner id s.byOwner })

/-- Takes a registration out of the indexes. A listener for no event stays in the second one. One
whose event may not be a key is out of the first one only, and a fault. A listener's own event always
leads to the list that holds it, also when it is a number that does not equal itself. -/
def forget (s : Scheduler κ α) (r : Registration κ) : Except Fault Unit × Scheduler κ α :=
  let s := { s with byOwner := unindexed (· == ·) r.owner r.id s.byOwner }
  match r.event with
  | .null => (.ok (), s)
  | event =>
    if event.hashable then
      (.ok (), { s with listeners := withdrawn r.id s.listeners })
    else (.error .type, s)

/-! ## Registering -/

/-- The greater of a delay and a bound, the delay when neither is greater. Values that have no order
are a fault. -/
def atLeast (delay : Value) (bound : Float) : Except Fault Value :=
  match Value.related? .gt (.float bound) delay with
  | some true => .ok (.float bound)
  | some false => .ok delay
  | none => .error .type

/-- Sets the timer of a registration for a time in seconds. -/
def arm (s : Scheduler κ α) (id : Nat) (time : Float) (job : α) : Except Fault (Scheduler κ α) := do
  let due ← Loop.dueAt time
  let (handle, loop) := s.loop.addTimer due job
  return { s with loop := loop }.modify id fun r => { r with handle := some handle, nextAt := time }

/-- Sets the timer of a registration for the time after a delay. -/
def armAfter (s : Scheduler κ α) (id : Nat) (delay : Except Fault Value) (job : α) :
    Except Fault (Scheduler κ α) := do
  s.arm id (← s.loop.timeAfter (← delay)) job

/-- Registers a timer that fires once after a delay in seconds; `fire` makes its job. -/
def callLater (s : Scheduler κ α) (fire : Nat → α) (owner : String) (delay : Value) (callback : κ) :
    Except Fault Nat × Scheduler κ α :=
  let (id, s) := s.track { id := 0, owner := owner, kind := .timer, callback := callback }
  match s.armAfter id (atLeast delay 0.0) (fire id) with
  | .ok s => (.ok id, s)
  | .error f => (.error f, s)

/-- Registers an interval; its period is at least the shortest one. -/
def every (s : Scheduler κ α) (fire : Nat → α) (owner : String) (interval : Value) (callback : κ) :
    Except Fault Nat × Scheduler κ α :=
  match atLeast interval s.minInterval with
  | .error f => (.error f, s)
  | .ok period =>
    let (id, s) := s.track
      { id := 0, owner := owner, kind := .interval, callback := callback, interval := some period }
    match s.armAfter id (.ok period) (fire id) with
    | .ok s => (.ok id, s)
    | .error f => (.error f, s)

/-- Registers a listener for an event. -/
def listen (s : Scheduler κ α) (owner : String) (event : Value) (callback : κ) :
    Except Fault Nat × Scheduler κ α :=
  let (id, s) := s.track
    { id := 0, owner := owner, kind := .listener, callback := callback, event := event }
  if event.hashable then
    (.ok id, { s with listeners := indexed Value.same event id s.listeners })
  else (.error .type, s)

/-! ## Cancelling -/

/-- Cancels a registration; cancelling it again changes nothing. -/
def cancel (s : Scheduler κ α) (id : Nat) : Except Fault Unit × Scheduler κ α :=
  match s.find? id with
  | none => (.ok (), s)
  | some r =>
    if r.cancelled then (.ok (), s)
    else
      let s := s.modify id fun r => { r with cancelled := true }
      let s := match r.handle with
        | some h => { s with loop := s.loop.cancel h }
        | none => s
      s.forget r

/-- Cancels registrations one after another, up to the first fault. -/
def cancelEach (s : Scheduler κ α) : List Nat → Except Fault Unit × Scheduler κ α
  | [] => (.ok (), s)
  | id :: rest => match s.cancel id with
    | (.ok (), s) => cancelEach s rest
    | (.error f, s) => (.error f, s)

/-- Cancels every registration of an owner, and yields how many there were. -/
def cancelOwner (s : Scheduler κ α) (owner : String) : Except Fault Nat × Scheduler κ α :=
  let ids := s.ownedBy owner
  match s.cancelEach ids with
  | (.ok (), s) => (.ok ids.length, s)
  | (.error f, s) => (.error f, s)

/-- Cancels the registrations of several owners. -/
def cancelOwners (s : Scheduler κ α) (count : Nat) : List String → Except Fault Nat × Scheduler κ α
  | [] => (.ok count, s)
  | owner :: rest => match s.cancelOwner owner with
    | (.ok n, s) => cancelOwners s (count + n) rest
    | (.error f, s) => (.error f, s)

/-- Cancels every registration, and yields how many there were. -/
def cancelAll (s : Scheduler κ α) : Except Fault Nat × Scheduler κ α :=
  s.cancelOwners 0 (s.byOwner.map Prod.fst)

/-! ## Firing

What a registration calls may change the scheduler, which is part of some larger state `σ`. -/

/-- How a larger state holds a scheduler. -/
structure Within (κ α σ : Type) where
  get : σ → Scheduler κ α
  put : σ → Scheduler κ α → σ

/-- A scheduler that nothing larger holds. -/
def alone : Within κ α (Scheduler κ α) where
  get s := s
  put _ s := s

/-- Counts a firing and calls the registration. -/
def call {σ : Type} (w : Within κ α σ) (run : Registration κ → Value → σ → σ) (id : Nat)
    (payload : Value) (st : σ) : σ :=
  let s := (w.get st).modify id fun r => { r with fired := r.fired + 1 }
  match s.find? id with
  | some r => run r payload (w.put st s)
  | none => st

/-- Sets the timer of an interval for its next firing, never in the past. -/
def rearm (s : Scheduler κ α) (r : Registration κ) (fire : Nat → α) : Scheduler κ α :=
  match Value.add (.float r.nextAt) (r.interval.getD .null) with
  | .ok (.float next) =>
    let now := s.loop.seconds
    match s.arm r.id (if now > next then now else next) (fire r.id) with
    | .ok s => s.modify r.id fun r => { r with nextAt := next }
    | .error _ => s
  | _ => s

/-- A timer or an interval fires, unless it is cancelled. A timer is forgotten first, an interval is
set again first. -/
def expire {σ : Type} (w : Within κ α σ) (fire : Nat → α) (run : Registration κ → Value → σ → σ)
    (id : Nat) (st : σ) : σ :=
  let s := w.get st
  match s.find? id with
  | none => st
  | some r =>
    if r.cancelled then st
    else
      let s := match r.kind with
        | .interval => s.rearm r fire
        | _ => (s.forget r).2
      call w run id .null (w.put st s)

/-- Calls those of some listeners that are not cancelled when their turn comes. -/
def deliver {σ : Type} (w : Within κ α σ) (run : Registration κ → Value → σ → σ) (payload : Value)
    (st : σ) (ids : List Nat) : σ :=
  ids.foldl (fun st id => match (w.get st).find? id with
    | some r => if r.cancelled then st else call w run id payload st
    | none => st) st

/-- Delivers an event to its listeners, and yields how many there were at the start. -/
def dispatch {σ : Type} (w : Within κ α σ) (run : Registration κ → Value → σ → σ) (event payload : Value)
    (st : σ) : Except Fault Nat × σ :=
  match (w.get st).listenersFor event with
  | .error f => (.error f, st)
  | .ok ids => (.ok ids.length, deliver w run payload st ids)

/-! ## Sleeping -/

/-- Starts a sleep: `elapsed` makes the job of its timer, `resume` continues the sleeper. Whether it may start
depends on the delay alone. -/
def sleep (s : Scheduler κ α) (seconds : Value) (elapsed : Nat → α) (resume : Nat → α) :
    Except Fault (Nat × Scheduler κ α) := do
  let id := s.nextSleeper
  let delay ← Loop.delayOf (← atLeast seconds 0.0)
  let (timer, loop) := s.loop.addTimer (s.loop.dueAfter delay) (elapsed id)
  return (id, { s with
    loop := loop
    sleepers := s.sleepers ++ [{ id := id, timer := timer, resume := resume id }]
    nextSleeper := id + 1 })

/-- Ends a sleep that has not ended yet. -/
def settle (s : Scheduler κ α) (id : Nat) (outcome : Bool) : Scheduler κ α :=
  match s.sleepers.find? fun x => x.id == id with
  | none => s
  | some x =>
    if x.outcome.isSome then s
    else { s with
      loop := s.loop.soon x.resume
      sleepers := s.sleepers.map fun y => if y.id == id then { y with outcome := some outcome } else y }

/-- The time of a sleep has elapsed. -/
def elapse (s : Scheduler κ α) (id : Nat) : Scheduler κ α := s.settle id true

/-- Ends every sleep in progress early, and yields how many there were. -/
def wakeAll (s : Scheduler κ α) : Nat × Scheduler κ α :=
  let pending := s.sleepers.filter fun x => x.outcome.isNone
  (pending.length, pending.foldl (fun s x => s.settle x.id false) s)

/-- Whether a sleep has ended. -/
def hasEnded (s : Scheduler κ α) (id : Nat) : Bool :=
  (s.sleepers.find? fun x => x.id == id).any fun x => x.outcome.isSome

/-- Forgets a sleep that has ended, and yields whether its whole time elapsed. -/
def endSleep (s : Scheduler κ α) (id : Nat) : Bool × Scheduler κ α :=
  match s.sleepers.find? fun x => x.id == id with
  | none => (false, s)
  | some x => (x.outcome.getD false, { s with
      loop := s.loop.cancel x.timer
      sleepers := s.sleepers.filter fun y => y.id != id })

end Scheduler

end Patchbay
