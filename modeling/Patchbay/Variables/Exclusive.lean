import Patchbay.Loop
import Patchbay.Variables

/-!
# Exclusive writers

Writers that read a variable, let time pass and write back what they computed from it. A writer holds
the lock of its variable meanwhile, so that no two writers of one variable are inside together. A lock
is passed on in the order in which writers asked for it, also by a writer that fails.

Contents:
* `Writer`, `Mark`: a writer, and what it leaves in the trace.
* `Lock`: who holds a variable and who waits for it.
* `Exclusive`: writers at work on a loop; `Exclusive.run`.
-/

namespace Patchbay

/-- A writer of one variable. -/
structure Writer where
  id : String
  name : String
  /-- the times it lets pass between reading and writing, in milliseconds -/
  pauses : List Value
  /-- what it writes for what it read -/
  update : Value → Except Fault Value
  /-- whether it fails after it has written -/
  fails : Bool := false

/-- What a writer leaves in the trace, each with the clock in microseconds. -/
inductive Mark where
  | entered (id : String) (now : Int)
  | left (id : String) (now : Int) (stored : Value)

/-- The lock of a variable. -/
structure Lock where
  held : Bool := false
  /-- writers that wait, first come first -/
  waiting : List Nat := []

/-- What a writer does next. -/
inductive WriterJob where
  /-- asks for the lock -/
  | enter (writer : Nat)
  /-- has been given the lock -/
  | granted (writer : Nat)
  /-- the time of a pause is over -/
  | rested (writer : Nat) (read : Value) (pauses : List Value)
  /-- goes on after a pause -/
  | goOn (writer : Nat) (read : Value) (pauses : List Value)

/-- Writers at work. -/
structure Exclusive where
  store : Variables
  loop : Loop WriterJob
  writers : Array Writer
  locks : List (String × Lock) := []
  trace : List Mark := []
  /-- writers that are done, with the fault they ended with -/
  results : List (Nat × Option Fault) := []

namespace Exclusive

/-- The lock of a variable. -/
def lockOf (x : Exclusive) (name : String) : Lock := (x.locks.lookup name).getD {}

/-- Changes the lock of a variable. -/
def setLock (x : Exclusive) (name : String) (l : Lock) : Exclusive :=
  { x with locks := (name, l) :: x.locks.filter fun e => e.1 != name }

/-- Adds a job at the end of the queue. -/
def soon (x : Exclusive) (j : WriterJob) : Exclusive := { x with loop := x.loop.soon j }

/-- Gives the lock of a variable back; the first that waits for it is told. -/
def release (x : Exclusive) (name : String) : Exclusive :=
  let l := x.lockOf name
  let x := x.setLock name { l with held := false }
  match l.waiting with
  | next :: _ => x.soon (.granted next)
  | [] => x

/-- A writer is done. -/
def finish (x : Exclusive) (i : Nat) (w : Writer) (fault : Option Fault) : Exclusive :=
  { x with results := x.results ++ [(i, fault)] }.release w.name

/-- A writer writes back. -/
def write (x : Exclusive) (i : Nat) (w : Writer) (read : Value) : Exclusive :=
  match w.update read with
  | .error f => x.finish i w (some f)
  | .ok v =>
    let x := { x with store := x.store.set w.name v }
    if w.fails then x.finish i w (some { kind := .runtime })
    else { x with trace := x.trace ++ [Mark.left w.id x.loop.now v] }.finish i w none

/-- A writer pauses, or writes back when it has paused often enough. -/
def goOn (x : Exclusive) (i : Nat) (w : Writer) (read : Value) (pauses : List Value) : Exclusive :=
  match pauses with
  | [] => x.write i w read
  | ms :: rest => match Value.div ms (.int 1000) with
    | .ok (.float seconds) =>
      if seconds ≤ 0.0 then x.soon (.goOn i read rest)
      else match Loop.dueAt (x.loop.seconds + seconds) with
        | .ok due => { x with loop := (x.loop.addTimer due (.rested i read rest)).2 }
        | .error f => x.finish i w (some f)
    | .ok _ => x.finish i w (some .type)
    | .error f => x.finish i w (some f)

/-- A writer that holds the lock reads its variable. -/
def inside (x : Exclusive) (i : Nat) (w : Writer) : Exclusive :=
  let l := x.lockOf w.name
  let x := x.setLock w.name { held := true, waiting := l.waiting.filter fun j => j != i }
  let x := { x with trace := x.trace ++ [Mark.entered w.id x.loop.now] }
  x.goOn i w ((x.store.get? w.name).getD (.int 0)) w.pauses

/-- A writer asks for the lock, and waits if it is held or others wait already. -/
def enter (x : Exclusive) (i : Nat) (w : Writer) : Exclusive :=
  let l := x.lockOf w.name
  if l.held || !l.waiting.isEmpty then x.setLock w.name { l with waiting := l.waiting ++ [i] }
  else x.inside i w

/-- One job of the loop. -/
def handle (x : Exclusive) (j : WriterJob) : Exclusive :=
  let withWriter (i : Nat) (f : Writer → Exclusive) : Exclusive := match x.writers[i]? with
    | some w => f w
    | none => x
  match j with
  | .enter i => withWriter i (x.enter i)
  | .granted i => withWriter i (x.inside i)
  | .rested i read pauses => x.soon (.goOn i read pauses)
  | .goOn i read pauses => withWriter i fun w => x.goOn i w read pauses

/-- Up to a number of jobs, until every writer is done. -/
def runFor : Nat → Exclusive → Exclusive
  | 0, x => x
  | n + 1, x =>
    if x.results.length == x.writers.size then x
    else match x.loop.next? with
      | none => x
      | some (job, loop) => runFor n ({ x with loop := loop }.handle job)

/-- How many jobs the writers need at most: three, and two more for each pause. -/
def jobBound (writers : List Writer) : Nat :=
  writers.foldl (fun n w => n + 3 + 2 * w.pauses.length) 0

/-- Starts all writers, in order, at a time, and waits for them. -/
def run (store : Variables) (now : Int) (writers : List Writer) : Exclusive :=
  let x : Exclusive := { store := store, loop := { now := now }, writers := writers.toArray }
  let started := (List.range writers.length).foldl (fun x i => x.soon (.enter i)) x
  runFor (jobBound writers) started

/-- How the writers ended, in their order. -/
def outcomes (x : Exclusive) : List (Option Fault) :=
  (List.range x.writers.size).map fun i => (x.results.lookup i).getD none

end Exclusive

end Patchbay
