import Patchbay.Value.Arithmetic

/-!
# The loop

A loop on a clock that never waits. Jobs that are ready run first in, first out; timers become ready
when the clock reaches them, and the clock jumps to the earliest timer when nothing is ready. One
iteration runs exactly the jobs that were ready at its start, so a job added meanwhile waits for the
next one. A job that is cancelled before its turn is skipped.

Contents:
* `Timer`, `Loop`.
* `Loop.soon`, `Loop.addTimer`, `Loop.cancel`: adding and removing jobs.
* `Loop.dueAt`, `Loop.dueAfter`: when a timer for a time or a delay in seconds is due.
* `Loop.next?`: the next job to run.
-/

namespace Patchbay

/-- A job that becomes ready at a time. -/
structure Timer (α : Type) where
  id : Nat
  /-- in microseconds; without a time the timer is never due -/
  due : Option Int
  job : α

/-- Whether a timer is due at a time. -/
def Timer.isDue {α : Type} (now : Int) (t : Timer α) : Bool :=
  match t.due with
  | some due => due ≤ now
  | none => false

/-- Jobs of type `α` on a clock. -/
structure Loop (α : Type) where
  /-- the clock, in microseconds -/
  now : Int := 0
  /-- what is left of the current iteration -/
  batch : List (Nat × α) := []
  /-- the jobs of the next iteration, oldest first -/
  ready : List (Nat × α) := []
  /-- the timers, oldest first -/
  timers : List (Timer α) := []
  /-- the id of the next job -/
  nextId : Nat := 0

namespace Loop

variable {α : Type}

/-- The clock in seconds. -/
def seconds (l : Loop α) : Float :=
  match Binary64.ofInt? l.now with
  | some x => x / 1000000.0
  | none => Binary64.infinity

/-- When a timer for a time in seconds is due: at the nearest microsecond, never for infinity. A time
that is no number is a fault. -/
def dueAt (time : Float) : Except Fault (Option Int) :=
  match Binary64.decode (time * 1000000.0) with
  | .nan => .error .value
  | .infinite _ => .ok none
  | .finite x => .ok (some x.roundInt)

/-- The time after a delay in seconds. -/
def timeAfter (l : Loop α) (delay : Value) : Except Fault Float := do
  match ← Value.add (.float l.seconds) delay with
  | .float x => return x
  | _ => throw .type

/-- A delay in seconds as a number. One that is no time is a fault. -/
def delayOf (v : Value) : Except Fault Float := do
  match ← Value.add (.float 0.0) v with
  | .float x => do
    let _ ← dueAt x
    return x
  | _ => throw .type

/-- When a timer for a delay is due. -/
def dueAfter (l : Loop α) (delay : Float) : Option Int :=
  match dueAt (l.seconds + delay) with
  | .ok due => due
  | .error _ => none

/-- Adds a job at the end of the next iteration. -/
def soon (l : Loop α) (job : α) : Loop α :=
  { l with ready := l.ready ++ [(l.nextId, job)], nextId := l.nextId + 1 }

/-- Adds a timer, and yields its id. -/
def addTimer (l : Loop α) (due : Option Int) (job : α) : Nat × Loop α :=
  (l.nextId, { l with timers := l.timers ++ [⟨l.nextId, due, job⟩], nextId := l.nextId + 1 })

/-- Removes a job, wherever it waits. -/
def cancel (l : Loop α) (id : Nat) : Loop α :=
  { l with
    batch := l.batch.filter fun e => e.1 != id
    ready := l.ready.filter fun e => e.1 != id
    timers := l.timers.filter fun t => t.id != id }

/-- Puts a timer behind those that are due no later. -/
def insertByDue (t : Timer α) : List (Timer α) → List (Timer α)
  | [] => [t]
  | u :: us => if t.due.getD 0 < u.due.getD 0 then t :: u :: us else u :: insertByDue t us

/-- Timers by the time they are due; those of one time stay in their order. -/
def sortByDue (ts : List (Timer α)) : List (Timer α) := ts.foldl (fun acc t => insertByDue t acc) []

/-- The earliest time at which a timer is due. -/
def earliest? (ts : List (Timer α)) : Option Int :=
  ts.foldl (fun acc t => match acc, t.due with
    | some a, some b => some (min a b)
    | none, b => b
    | a, none => a) none

/-- Starts an iteration at a time: timers that are due come after the jobs that are ready. -/
def iterate (l : Loop α) (now : Int) : Loop α :=
  { l with
    now := now
    batch := l.ready ++ (sortByDue (l.timers.filter (Timer.isDue now))).map fun t => (t.id, t.job)
    ready := []
    timers := l.timers.filter fun t => !Timer.isDue now t }

/-- The next job, and the loop without it. There is none when nothing is ready and no timer will be
due. -/
def next? (l : Loop α) : Option (α × Loop α) :=
  let l := if l.batch.isEmpty then
      if l.ready.isEmpty then match earliest? l.timers with
        | some due => l.iterate (max l.now due)
        | none => l
      else l.iterate l.now
    else l
  match l.batch with
  | [] => none
  | (_, job) :: rest => some (job, { l with batch := rest })

end Loop

end Patchbay
