import Mathlib.Algebra.BigOperators.Group.Multiset.Basic
import Mathlib.Algebra.GroupWithZero.Nat
import Mathlib.Data.Multiset.Filter
import Patchbay.Proofs.Operations
import Patchbay.Proofs.Pending
import Patchbay.Proofs.Versions
import Patchbay.Variables.Exclusive

/-!
# Whose turn it is

To the writers of one variable the others do not matter. What they share is the lock of the variable, its value, their
own jobs and how those of them ended that are done: a view. At any time one of three things holds in a view. Nobody is
inside and nobody waits; or the lock has been given back and the first that waits is about to be told; or one of them is
inside, has a single job pending, and the value that it read is the one that is stored still. Every job leaves the view
of its own variable in one of these ways and does not change the others.

Contents:
* `View`, `Exclusive.view`: what the writers of one variable share.
* `Writer.leaves`, `replay`: what a writer makes of the value that it finds, and what several make of it in turn.
* `Turn`, `InTurn`: whose turn it is, and that the view agrees with who has entered.
* `Exclusive.Moves`: a change of one view only.
* `View.effort`: how many jobs the writers of a variable need at most.
* `Exclusive.Running`, `Exclusive.Outcome`: a writer that does not pause, and what a job comes to.
* `Exclusive.entrant?`: whom a job lets in.

Results:
* `Moves.soon`, `Moves.release` and others: each operation.
* `Running.outcome_write`, `Running.outcome_goOn`, `outcome_inside`: what the one inside does.
* `outcome_handle`: after each job it is clear whose turn it is, and less is to be done.
-/

namespace Patchbay

/-! ## Jobs in no order -/

namespace Loop

variable {α : Type} {l l' : Loop α} {j : α}

/-- The jobs that a loop still has to run, in no order. -/
def jobs (l : Loop α) : Multiset α := (l.entries.map Prod.snd : List α)

theorem jobs_of_takes (h : l.Takes j l') : l.jobs = j ::ₘ l'.jobs := by
  obtain ⟨⟨id, hperm⟩, -⟩ := h
  exact Multiset.coe_eq_coe.mpr (hperm.map Prod.snd)

theorem jobs_soon (l : Loop α) (j : α) : (l.soon j).jobs = j ::ₘ l.jobs :=
  Multiset.coe_eq_coe.mpr ((entries_soon l j).map Prod.snd)

theorem jobs_addTimer (l : Loop α) (due : Option Int) (j : α) : (l.addTimer due j).2.jobs = j ::ₘ l.jobs := by
  rw [jobs, entries_addTimer, List.map_append]
  exact Multiset.coe_eq_coe.mpr (List.perm_append_singleton _ _)

end Loop

/-! ## Views -/

/-- The writer whose job it is. -/
def WriterJob.writer : WriterJob → Nat
  | .enter i => i
  | .granted i => i
  | .rested i _ _ => i
  | .goOn i _ _ => i

/-- What the writers of one variable share: its lock, its value, their jobs, and how those ended that are done. -/
structure View where
  lock : Lock
  value : Value
  jobs : Multiset WriterJob
  dones : List (Nat × Option Fault)

namespace Exclusive

/-- The variable of a writer. -/
def nameOf? (x : Exclusive) (i : Nat) : Option String := x.writers[i]?.map Writer.name

/-- What the writers of a variable share. -/
def view (x : Exclusive) (name : String) : View where
  lock := x.lockOf name
  value := (x.store.get? name).getD (.int 0)
  jobs := x.loop.jobs.filter fun j => x.nameOf? j.writer = some name
  dones := x.results.filter fun e => x.nameOf? e.1 = some name

/-- A change of one view only, which adds no jobs and no results but those of its variable. -/
structure Moves (name : String) (x y : Exclusive) (v : View) : Prop where
  writers : y.writers = x.writers
  here : y.view name = v
  elsewhere : ∀ other, other ≠ name → y.view other = x.view other
  jobs : ∀ j ∈ y.loop.jobs, j ∈ x.loop.jobs ∨ x.nameOf? j.writer = some name
  results : ∀ e ∈ y.results, e ∈ x.results ∨ x.nameOf? e.1 = some name

namespace Moves

variable {name : String} {x y z : Exclusive} {v w : View} {i : Nat} {j : WriterJob}

theorem refl (name : String) (x : Exclusive) : Moves name x x (x.view name) :=
  ⟨rfl, rfl, fun _ _ => rfl, fun _ hj => .inl hj, fun _ he => .inl he⟩

/-- Nothing changes. -/
theorem of_view (h : x.view name = v) : Moves name x x v := h ▸ refl name x

theorem nameOf? (h : Moves name x y v) (i : Nat) : y.nameOf? i = x.nameOf? i := by
  simp only [Exclusive.nameOf?, h.writers]

theorem trans (h : Moves name x y v) (h' : Moves name y z w) : Moves name x z w where
  writers := h'.writers.trans h.writers
  here := h'.here
  elsewhere other hother := (h'.elsewhere other hother).trans (h.elsewhere other hother)
  jobs j hj := (h'.jobs j hj).elim (h.jobs j) fun hname => .inr (h.nameOf? _ ▸ hname)
  results e he := (h'.results e he).elim (h.results e) fun hname => .inr (h.nameOf? _ ▸ hname)

theorem addJob (hj : x.nameOf? j.writer = some name) {loop : Loop WriterJob} (hloop : loop.jobs = j ::ₘ x.loop.jobs) :
    Moves name x { x with loop := loop } { x.view name with jobs := j ::ₘ (x.view name).jobs } where
  writers := rfl
  here := by
    have hjobs : (loop.jobs.filter fun k => x.nameOf? k.writer = some name) = j ::ₘ (x.view name).jobs := by
      rw [hloop]
      exact Multiset.filter_cons_of_pos _ hj
    exact congrArg (fun jobs => { x.view name with jobs := jobs }) hjobs
  elsewhere other hother := by
    have hnot : x.nameOf? j.writer ≠ some other := fun h => hother (Option.some.inj (h.symm.trans hj))
    have hjobs : (loop.jobs.filter fun k => x.nameOf? k.writer = some other) = (x.view other).jobs := by
      rw [hloop]
      exact Multiset.filter_cons_of_neg _ hnot
    exact congrArg (fun jobs => { x.view other with jobs := jobs }) hjobs
  jobs k hk := by
    rcases Multiset.mem_cons.mp (hloop ▸ hk) with rfl | hk
    · exact .inr hj
    · exact .inl hk
  results _ he := .inl he

theorem soon (hj : x.nameOf? j.writer = some name) :
    Moves name x (x.soon j) { x.view name with jobs := j ::ₘ (x.view name).jobs } :=
  addJob hj (Loop.jobs_soon _ _)

theorem addTimer (hj : x.nameOf? j.writer = some name) (due : Option Int) :
    Moves name x { x with loop := (x.loop.addTimer due j).2 } { x.view name with jobs := j ::ₘ (x.view name).jobs } :=
  addJob hj (Loop.jobs_addTimer _ _ _)

theorem setLock (name : String) (x : Exclusive) (l : Lock) :
    Moves name x (x.setLock name l) { x.view name with lock := l } where
  writers := rfl
  here := by
    have hlock : (x.setLock name l).lockOf name = l := by simp [Exclusive.setLock, lockOf]
    exact congrArg (fun lock => { x.view name with lock := lock }) hlock
  elsewhere other hother := by
    have hlock : (x.setLock name l).lockOf other = x.lockOf other := by
      simp [Exclusive.setLock, lockOf, List.lookup_cons, beq_false_of_ne hother, lookup_filter_of_ne hother]
    exact congrArg (fun lock => { x.view other with lock := lock }) hlock
  jobs _ hj := .inl hj
  results _ he := .inl he

theorem trace (name : String) (x : Exclusive) (marks : List Mark) :
    Moves name x { x with trace := marks } (x.view name) :=
  ⟨rfl, rfl, fun _ _ => rfl, fun _ hj => .inl hj, fun _ he => .inl he⟩

theorem store (name : String) (x : Exclusive) (new : Value) :
    Moves name x { x with store := x.store.set name new } { x.view name with value := new } where
  writers := rfl
  here := by
    have hvalue : ((x.store.set name new).get? name).getD (.int 0) = new := by
      rw [Variables.get?, Variables.set, Variables.touch, Named.get?_set_self]
      rfl
    exact congrArg (fun value => { x.view name with value := value }) hvalue
  elsewhere other hother := by
    have hvalue : ((x.store.set name new).get? other).getD (.int 0) = (x.view other).value := by
      rw [Variables.get?, Variables.set, Variables.touch, Named.get?_set_of_ne hother]
      rfl
    exact congrArg (fun value => { x.view other with value := value }) hvalue
  jobs _ hj := .inl hj
  results _ he := .inl he

theorem addResult (hi : x.nameOf? i = some name) (fault : Option Fault) :
    Moves name x { x with results := x.results ++ [(i, fault)] }
      { x.view name with dones := (x.view name).dones ++ [(i, fault)] } where
  writers := rfl
  here := by
    have hdones : ((x.results ++ [(i, fault)]).filter fun e => x.nameOf? e.1 = some name) =
        (x.view name).dones ++ [(i, fault)] := by
      rw [List.filter_append, List.filter_cons_of_pos (by simpa using hi)]
      rfl
    exact congrArg (fun dones => { x.view name with dones := dones }) hdones
  elsewhere other hother := by
    have hnot : x.nameOf? i ≠ some other := fun h => hother (Option.some.inj (h.symm.trans hi))
    have hdones : ((x.results ++ [(i, fault)]).filter fun e => x.nameOf? e.1 = some other) = (x.view other).dones := by
      rw [List.filter_append, List.filter_cons_of_neg (by simpa using hnot), List.filter_nil, List.append_nil]
      rfl
    exact congrArg (fun dones => { x.view other with dones := dones }) hdones
  jobs _ hj := .inl hj
  results e he := (List.mem_append.mp he).imp id fun he => by rw [List.mem_singleton.mp he, hi]

end Moves

end Exclusive

/-! ## Whose turn it is -/

/-- What a writer that ended with a fault, or without one, leaves where it found a value: what it computes, unless it
failed before it wrote. -/
def Writer.leaves (w : Writer) (fault : Option Fault) (v : Value) : Value :=
  match w.update v, fault with
  | .ok new, none => new
  | .ok new, some f => if w.fails && !f.kind.isOperational then new else v
  | .error _, _ => v

/-- A writer that ends over its pauses leaves the value that it found. -/
theorem Writer.leaves_of_operational (w : Writer) {f : Fault} (hf : f.kind.isOperational = true) (v : Value) :
    w.leaves (some f) v = v := by
  unfold leaves
  split
  · next h => cases h
  · next h => cases h; simp [hf]
  · rfl

/-- What several writers make of a value, one after another. -/
def replay (writers : Array Writer) (v : Value) (dones : List (Nat × Option Fault)) : Value :=
  dones.foldl (fun v e => match writers[e.1]? with
    | some w => w.leaves e.2 v
    | none => v) v

theorem replay_append {writers : Array Writer} {i : Nat} {w : Writer} (hw : writers[i]? = some w) (v : Value)
    (dones : List (Nat × Option Fault)) (fault : Option Fault) :
    replay writers v (dones ++ [(i, fault)]) = w.leaves fault (replay writers v dones) := by
  simp [replay, hw]

/-- Whose turn it is, as lock, value, the one inside, those that wait and the jobs of those say: nobody's, that of the
first that waits, or that of the one inside, who pauses. -/
inductive Turn : Lock → Value → List Nat → List Nat → Multiset WriterJob → Prop
  | free (v : Value) : Turn ⟨false, []⟩ v [] [] 0
  | passing (v : Value) (i : Nat) (rest : List Nat) : Turn ⟨false, i :: rest⟩ v [] (i :: rest) {.granted i}
  | resting (v : Value) (i : Nat) (waiting : List Nat) (pauses : List Value) :
      Turn ⟨true, waiting⟩ v [i] waiting {.rested i v pauses}
  | going (v : Value) (i : Nat) (waiting : List Nat) (pauses : List Value) :
      Turn ⟨true, waiting⟩ v [i] waiting {.goOn i v pauses}

namespace Turn

variable {lock : Lock} {v : Value} {inside waiting : List Nat} {busy : Multiset WriterJob} {i : Nat}

theorem enter_not_mem (h : Turn lock v inside waiting busy) : WriterJob.enter i ∉ busy := by
  cases h <;> simp

/-- Another one waits. -/
theorem wait (h : Turn lock v inside waiting busy) (hbusy : (lock.held || !lock.waiting.isEmpty) = true) (i : Nat) :
    Turn { lock with waiting := lock.waiting ++ [i] } v inside (waiting ++ [i]) busy := by
  cases h with
  | free => cases hbusy
  | passing _ first rest => exact .passing v first (rest ++ [i])
  | resting _ first _ pauses => exact .resting v first (waiting ++ [i]) pauses
  | going _ first _ pauses => exact .going v first (waiting ++ [i]) pauses

theorem free_of (h : Turn lock v inside waiting busy) (hfree : ¬ (lock.held || !lock.waiting.isEmpty) = true) :
    lock = ⟨false, []⟩ ∧ inside = [] ∧ waiting = [] ∧ busy = 0 := by
  cases h with
  | free => exact ⟨rfl, rfl, rfl, rfl⟩
  | passing | resting | going => simp at hfree

theorem of_granted (h : Turn lock v inside waiting busy) (hi : .granted i ∈ busy) :
    ∃ rest, lock = ⟨false, i :: rest⟩ ∧ inside = [] ∧ waiting = i :: rest ∧ busy = {.granted i} := by
  cases h with
  | passing _ first rest =>
    cases Multiset.mem_singleton.mp hi
    exact ⟨rest, rfl, rfl, rfl, rfl⟩
  | free | resting | going => simp at hi

theorem of_rested {read : Value} {pauses : List Value} (h : Turn lock v inside waiting busy)
    (hi : .rested i read pauses ∈ busy) :
    lock = ⟨true, waiting⟩ ∧ read = v ∧ inside = [i] ∧ busy = {.rested i v pauses} := by
  cases h with
  | resting =>
    cases Multiset.mem_singleton.mp hi
    exact ⟨rfl, rfl, rfl, rfl⟩
  | free | passing | going => simp at hi

theorem of_goOn {read : Value} {pauses : List Value} (h : Turn lock v inside waiting busy)
    (hi : .goOn i read pauses ∈ busy) :
    lock = ⟨true, waiting⟩ ∧ read = v ∧ inside = [i] ∧ busy = {.goOn i v pauses} := by
  cases h with
  | going =>
    cases Multiset.mem_singleton.mp hi
    exact ⟨rfl, rfl, rfl, rfl⟩
  | free | passing | resting => simp at hi

theorem inside_unique (h : Turn lock v inside waiting busy) {j : Nat} (hi : i ∈ inside) (hj : j ∈ inside) : i = j := by
  cases h with
  | free | passing => cases hi
  | resting | going => rw [List.mem_singleton.mp hi, List.mem_singleton.mp hj]

/-- When nobody is inside, the lock has been given back and the first that waits is told. -/
theorem released (h : Turn lock v [] waiting busy) :
    lock.held = false ∧ ∀ i, lock.waiting.head? = some i → .granted i ∈ busy := by
  cases h with
  | free => exact ⟨rfl, nofun⟩
  | passing _ first => exact ⟨rfl, fun i hi => Option.some.inj hi ▸ Multiset.mem_singleton_self _⟩

/-- When nothing is pending, nobody is inside and nobody waits. -/
theorem idle (h : Turn lock v inside waiting 0) : inside = [] ∧ waiting = [] := by
  generalize hbusy : (0 : Multiset WriterJob) = busy at h
  cases h with
  | free => exact ⟨rfl, rfl⟩
  | passing | resting | going => exact absurd hbusy.symm (Multiset.singleton_ne_zero _)

end Turn

/-- Who is where, given who has entered: everybody has entered, waits or is still to come, and who has entered is done
or inside; the value is what the ones that are done have made of it, in the order in which they entered. -/
structure Arranged (writers : Array Writer) (base : Value) (members : Multiset Nat) (v : View)
    (entered inside waiting : List Nat) (coming : Multiset Nat) (busy : Multiset WriterJob) : Prop where
  stored : v.value = replay writers base v.dones
  order : entered = v.dones.map Prod.fst ++ inside
  everybody : (entered : Multiset Nat) + waiting + coming = members
  pending : v.jobs = busy + coming.map .enter

/-- A view in which it is clear whose turn it is. -/
def InTurn (writers : Array Writer) (base : Value) (members : Multiset Nat) (v : View) (entered : List Nat) : Prop :=
  ∃ inside waiting coming busy,
    Arranged writers base members v entered inside waiting coming busy ∧ Turn v.lock v.value inside waiting busy

/-! ## Effort -/

/-- How often a writer pauses. -/
def pausesOf (writers : Array Writer) (i : Nat) : Nat :=
  match writers[i]? with
  | some w => w.pauses.length
  | none => 0

/-- How many jobs it takes from a job to the end of its writer, unless the writer has to wait. One that is about to be
told that it may enter still counts among those that wait. -/
def WriterJob.effort (writers : Array Writer) : WriterJob → Nat
  | .enter i => 3 + 2 * pausesOf writers i
  | .granted _ => 0
  | .rested _ _ pauses => 2 + 2 * pauses.length
  | .goOn _ _ pauses => 1 + 2 * pauses.length

/-- How many jobs the writers of a variable need at most. -/
def View.effort (writers : Array Writer) (v : View) : Nat :=
  (v.jobs.map (WriterJob.effort writers)).sum + (v.lock.waiting.map fun i => 2 + 2 * pausesOf writers i).sum

/-! ## Operations -/

/-- The lock has been given back, and the first that waits is told. -/
def View.released (v : View) : View :=
  match v.lock.waiting with
  | next :: _ => { v with lock := { v.lock with held := false }, jobs := .granted next ::ₘ v.jobs }
  | [] => { v with lock := { v.lock with held := false } }

theorem View.effort_released (writers : Array Writer) (v : View) : v.released.effort writers = v.effort writers := by
  unfold released
  split <;> simp [effort, WriterJob.effort]

section Released

variable {writers : Array Writer} {base : Value} {members coming : Multiset Nat} {v : View} {entered waiting : List Nat}
  {i : Nat} {w : Writer}

/-- When the one inside is done, nobody is inside, or the first that waits comes next. -/
theorem Arranged.inTurn_released (h : Arranged writers base members v entered [i] waiting coming 0)
    (hwaiting : v.lock.waiting = waiting) (hw : writers[i]? = some w) {fault : Option Fault} {new : Value}
    (hnew : new = w.leaves fault v.value) :
    InTurn writers base members (View.released { v with value := new, dones := v.dones ++ [(i, fault)] }) entered := by
  obtain ⟨hvalue, hentered, hmembers, hjobs⟩ := h
  have hvalue : new = replay writers base (v.dones ++ [(i, fault)]) := by rw [hnew, hvalue, replay_append hw]
  have hentered : entered = (v.dones ++ [(i, fault)]).map Prod.fst ++ [] := by rw [hentered]; simp
  obtain ⟨⟨held, queue⟩, value, jobs, dones⟩ := v
  obtain rfl : queue = waiting := hwaiting
  rw [Multiset.zero_add] at hjobs
  cases queue with
  | nil => exact ⟨[], [], coming, 0, ⟨hvalue, hentered, hmembers, by rw [Multiset.zero_add]; exact hjobs⟩, .free new⟩
  | cons next rest =>
    have hturn : Turn ⟨false, next :: rest⟩ new [] (next :: rest) {.granted next} := .passing new next rest
    refine ⟨[], next :: rest, coming, _, ⟨hvalue, hentered, hmembers, ?_⟩, hturn⟩
    rw [Multiset.singleton_add]
    exact congrArg (WriterJob.granted next ::ₘ ·) hjobs

end Released

namespace Exclusive

variable {name : String} {x y : Exclusive} {base : Value} {members coming : Multiset Nat} {entered waiting : List Nat}
  {i : Nat} {w : Writer}

theorem release_of_nil (h : (x.lockOf name).waiting = []) :
    x.release name = x.setLock name { x.lockOf name with held := false } := by
  unfold Exclusive.release
  dsimp only
  split
  · next heq => rw [h] at heq; cases heq
  · rfl

theorem release_of_cons {next : Nat} {rest : List Nat} (h : (x.lockOf name).waiting = next :: rest) :
    x.release name = (x.setLock name { x.lockOf name with held := false }).soon (.granted next) := by
  unfold Exclusive.release
  dsimp only
  split
  · next heq => rw [h] at heq; cases heq; rfl
  · next heq => rw [h] at heq; cases heq

theorem Moves.release (hwaiting : ∀ j ∈ (x.view name).lock.waiting, x.nameOf? j = some name) :
    Moves name x (x.release name) (x.view name).released := by
  have hlock := Moves.setLock name x { x.lockOf name with held := false }
  have hview : (x.view name).lock = x.lockOf name := rfl
  cases hqueue : (x.lockOf name).waiting with
  | nil =>
    have hreleased : (x.view name).released = { x.view name with lock := { x.lockOf name with held := false } } := by
      unfold View.released
      rw [hview]
      split
      · next heq => rw [hqueue] at heq; cases heq
      · rfl
    rw [release_of_nil hqueue, hreleased]
    exact hlock
  | cons next rest =>
    have hreleased : (x.view name).released = { x.view name with
        lock := { x.lockOf name with held := false }
        jobs := .granted next ::ₘ (x.view name).jobs } := by
      unfold View.released
      rw [hview]
      split
      · next heq => rw [hqueue] at heq; cases heq; rfl
      · next heq => rw [hqueue] at heq; cases heq
    have hnext : (x.setLock name { x.lockOf name with held := false }).nameOf? next = some name :=
      hwaiting next (hqueue ▸ List.mem_cons_self)
    have hsoon := hlock.trans (Moves.soon (j := .granted next) hnext)
    rw [hlock.here] at hsoon
    rw [release_of_cons hqueue, hreleased]
    exact hsoon

/-- After a job it is clear whose turn it is, with so much effort at most still to come. -/
def Outcome (name : String) (base : Value) (members : Multiset Nat) (x y : Exclusive) (entered : List Nat)
    (bound : Nat) : Prop :=
  ∃ v, Moves name x y v ∧ InTurn x.writers base members v entered ∧ v.effort x.writers ≤ bound

theorem Outcome.mono {n m : Nat} (h : Outcome name base members x y entered n) (hnm : n ≤ m) :
    Outcome name base members x y entered m := by
  obtain ⟨v, hmoves, hinTurn, heffort⟩ := h
  exact ⟨v, hmoves, hinTurn, heffort.trans hnm⟩

/-! ## The one inside -/

variable {u : View}

/-- A writer is inside, and no job of it is pending. -/
structure Running (name : String) (base : Value) (members : Multiset Nat) (x y : Exclusive) (u : View) (i : Nat)
    (w : Writer) (entered waiting : List Nat) (coming : Multiset Nat) : Prop where
  moves : Moves name x y u
  arranged : Arranged x.writers base members u entered [i] waiting coming 0
  lock : u.lock = ⟨true, waiting⟩
  writer : x.writers[i]? = some w
  named : w.name = name
  known : ∀ j ∈ waiting, x.nameOf? j = some name

namespace Running

theorem named_self (h : Running name base members x y u i w entered waiting coming) : x.nameOf? i = some name := by
  simp [nameOf?, h.writer, h.named]

/-- Marks and a new value do not move anybody. -/
theorem outcome_finish (h : Running name base members x y u i w entered waiting coming) {z : Exclusive} {new : Value}
    (hmoves : Moves name y z { u with value := new }) {fault : Option Fault} (hnew : new = w.leaves fault u.value) :
    Outcome name base members x (z.finish i w fault) entered (u.effort x.writers) := by
  have hxz := h.moves.trans hmoves
  have hresults := hxz.trans (Moves.addResult ((hxz.nameOf? i).trans h.named_self) fault)
  rw [hxz.here] at hresults
  have hwaiting : ({ u with value := new, dones := u.dones ++ [(i, fault)] } : View).lock.waiting = waiting := by
    rw [h.lock]
  have hrelease := hresults.trans (Moves.release fun j hj => by
    rw [hresults.here, hwaiting] at hj
    exact (hresults.nameOf? j).trans (h.known j hj))
  rw [hresults.here] at hrelease
  refine ⟨_, h.named ▸ hrelease, h.arranged.inTurn_released (by rw [h.lock]) h.writer hnew, ?_⟩
  rw [View.effort_released]
  exact le_refl _

theorem outcome_write (h : Running name base members x y u i w entered waiting coming) :
    Outcome name base members x (y.write i w u.value) entered (u.effort x.writers) := by
  unfold Exclusive.write
  cases hupdate : w.update u.value with
  | error f =>
    exact h.outcome_finish (.of_view h.moves.here) (by simp [Writer.leaves, hupdate])
  | ok new =>
    have hstore := Moves.store name y new
    rw [h.moves.here] at hstore
    simp only [h.named]
    split
    · next hfails => exact h.outcome_finish hstore (by simp [Writer.leaves, hupdate, hfails, FaultKind.isOperational])
    · have htrace {marks : List Mark} := hstore.trans (Moves.trace name { y with store := y.store.set name new } marks)
      rw [hstore.here] at htrace
      exact h.outcome_finish htrace (by simp [Writer.leaves, hupdate])

/-- A writer that ends over a pause leaves the value that it found. -/
theorem outcome_pause_fault (h : Running name base members x y u i w entered waiting coming) {f : Fault}
    (hf : f.kind.isOperational = true) :
    Outcome name base members x (y.finish i w (some f)) entered (u.effort x.writers) :=
  h.outcome_finish (.of_view h.moves.here) (w.leaves_of_operational hf _).symm

/-- A writer that pauses is still the one inside. -/
theorem outcome_pause (h : Running name base members x y u i w entered waiting coming) {z : Exclusive} {j : WriterJob}
    (hturn : Turn ⟨true, waiting⟩ u.value [i] waiting {j})
    (hz : Moves name y z { y.view name with jobs := j ::ₘ (y.view name).jobs }) :
    Outcome name base members x z entered (u.effort x.writers + j.effort x.writers) := by
  rw [h.moves.here] at hz
  obtain ⟨hstored, horder, heverybody, hpending⟩ := h.arranged
  have harranged : Arranged x.writers base members { u with jobs := j ::ₘ u.jobs } entered [i] waiting coming {j} :=
    ⟨hstored, horder, heverybody, by simp only [hpending, Multiset.zero_add, Multiset.singleton_add]⟩
  refine ⟨_, h.moves.trans hz, ⟨_, _, _, _, harranged, by rw [h.lock]; exact hturn⟩, ?_⟩
  simp only [View.effort, Multiset.map_cons, Multiset.sum_cons]
  omega

theorem outcome_goOn (h : Running name base members x y u i w entered waiting coming) (pauses : List Value) :
    Outcome name base members x (y.goOn i w u.value pauses) entered (u.effort x.writers + 2 * pauses.length) := by
  have hself : y.nameOf? i = some name := (h.moves.nameOf? i).trans h.named_self
  unfold Exclusive.goOn
  split
  · exact h.outcome_write
  · next ms rest =>
    have hle : u.effort x.writers ≤ u.effort x.writers + 2 * (ms :: rest).length := Nat.le_add_right _ _
    split
    · next seconds _ =>
      split
      · refine (h.outcome_pause (.going u.value i waiting rest) (Moves.soon hself)).mono ?_
        simp only [WriterJob.effort, List.length_cons]
        omega
      · split
        · next due _ =>
          refine (h.outcome_pause (.resting u.value i waiting rest) (Moves.addTimer hself due)).mono ?_
          simp only [WriterJob.effort, List.length_cons]
          omega
        · next f hdue =>
          have hvalue : f = .value := by
            unfold Loop.dueAt at hdue
            split at hdue <;> cases hdue
            rfl
          exact (h.outcome_pause_fault (by rw [hvalue]; rfl)).mono hle
    · exact (h.outcome_pause_fault rfl).mono hle
    · next f hdiv => exact (h.outcome_pause_fault (Value.operational_div _ _ f hdiv)).mono hle

end Running

/-! ## Jobs -/

variable {v : View}

/-- A writer that enters takes the lock and reads the value that is stored. -/
theorem outcome_inside (hmoves : Moves name x y v)
    (harranged : Arranged x.writers base members { v with lock := ⟨true, waiting⟩ } entered [i] waiting coming 0)
    (hwaiting : (v.lock.waiting.filter fun j => j != i) = waiting) (hw : x.writers[i]? = some w) (hname : w.name = name)
    (hknown : ∀ j ∈ waiting, x.nameOf? j = some name) :
    Outcome name base members x (y.inside i w) entered
      (View.effort x.writers { v with lock := ⟨true, waiting⟩ } + 2 * w.pauses.length) := by
  subst hname
  have hset := hmoves.trans (Moves.setLock w.name y ⟨true, waiting⟩)
  rw [hmoves.here] at hset
  have htrace {marks : List Mark} := hset.trans (Moves.trace w.name (y.setLock w.name ⟨true, waiting⟩) marks)
  rw [hset.here] at htrace
  have hrunning {marks : List Mark} :
      Running w.name base members x { y.setLock w.name ⟨true, waiting⟩ with trace := marks }
        { v with lock := ⟨true, waiting⟩ } i w entered waiting coming :=
    ⟨htrace, harranged, rfl, hw, rfl, hknown⟩
  have hqueue : ((y.lockOf w.name).waiting.filter fun j => j != i) = waiting := by
    rw [← hwaiting, ← hmoves.here]
    rfl
  have hread : ((y.store.get? w.name).getD (.int 0)) = v.value := congrArg View.value hmoves.here
  unfold Exclusive.inside
  simp only [hqueue, setLock, hread]
  exact hrunning.outcome_goOn w.pauses

/-- The writer that a job lets in, if it lets one in: the one that is given the lock, or one that asks for it when
nobody has it and nobody waits. -/
def entrant? (x : Exclusive) : WriterJob → Option Nat
  | .enter i => match x.writers[i]? with
    | some w => if (x.lockOf w.name).held || !(x.lockOf w.name).waiting.isEmpty then none else some i
    | none => none
  | .granted i => some i
  | .rested _ _ _ | .goOn _ _ _ => none

/-- A job of somebody who does not ask for the lock is that of whose turn it is. -/
theorem mem_of_pending {jobs busy : Multiset WriterJob} {j : WriterJob} (h : j ::ₘ jobs = busy + coming.map .enter)
    (hj : ∀ i, j ≠ .enter i) : j ∈ busy := by
  have hmem : j ∈ busy + coming.map .enter := h ▸ Multiset.mem_cons_self _ _
  refine (Multiset.mem_add.mp hmem).resolve_right fun hcoming => ?_
  obtain ⟨k, -, hk⟩ := Multiset.mem_map.mp hcoming
  exact hj k hk.symm

theorem exists_of_nameOf? (h : x.nameOf? i = some name) : ∃ w, x.writers[i]? = some w ∧ w.name = name := by
  unfold nameOf? at h
  exact Option.map_eq_some_iff.mp h

theorem outcome_enter (hi : y.nameOf? i = some name) (hv : y.view name = v)
    (h : InTurn y.writers base members { v with jobs := .enter i ::ₘ v.jobs } entered) :
    ∃ n < View.effort y.writers { v with jobs := .enter i ::ₘ v.jobs },
      Outcome name base members y (y.handle (.enter i)) (entered ++ (y.entrant? (.enter i)).toList) n := by
  obtain ⟨w, hw, rfl⟩ := exists_of_nameOf? hi
  obtain ⟨inside, waiting, coming, busy, ⟨hstored, horder, heverybody, hpending⟩, hturn⟩ := h
  have hcoming : i ∈ coming := by
    have hmem : WriterJob.enter i ∈ busy + coming.map .enter := hpending ▸ Multiset.mem_cons_self _ _
    obtain ⟨k, hk, hki⟩ := Multiset.mem_map.mp ((Multiset.mem_add.mp hmem).resolve_left hturn.enter_not_mem)
    cases hki
    exact hk
  obtain ⟨coming, rfl⟩ := Multiset.exists_cons_of_mem hcoming
  have hpending : v.jobs = busy + coming.map .enter := by
    rw [Multiset.map_cons, Multiset.add_cons] at hpending
    exact (Multiset.cons_inj_right _).mp hpending
  have hlock : y.lockOf w.name = v.lock := congrArg View.lock hv
  simp only [handle, hw, Exclusive.enter, entrant?, hlock]
  split
  · next hbusy =>
    have hset := Moves.setLock w.name y { v.lock with waiting := v.lock.waiting ++ [i] }
    rw [hv] at hset
    refine ⟨_, ?_, _, hset, ⟨inside, waiting ++ [i], coming, busy, ⟨hstored, ?_, ?_, hpending⟩, hturn.wait hbusy i⟩,
      le_refl _⟩
    · simp only [View.effort, Multiset.map_cons, Multiset.sum_cons, List.map_append, List.sum_append, WriterJob.effort,
        List.map_cons, List.map_nil, List.sum_singleton]
      omega
    · simpa using horder
    · rw [← heverybody, ← Multiset.coe_add waiting, Multiset.coe_singleton, ← Multiset.singleton_add,
        Option.toList_none, List.append_nil]
      simp only [Multiset.add_assoc]
  · next hfree =>
    obtain ⟨hnobody, rfl, rfl, rfl⟩ := hturn.free_of hfree
    have hnobody : v.lock = ⟨false, []⟩ := hnobody
    have hqueue : (v.lock.waiting.filter fun j => j != i) = [] := by rw [hnobody]; rfl
    refine ⟨_, ?_, outcome_inside (.of_view hv) ⟨hstored, ?_, ?_, hpending⟩ hqueue hw rfl (by simp)⟩
    · have hpauses : pausesOf y.writers i = w.pauses.length := by simp [pausesOf, hw]
      simp only [View.effort, Multiset.map_cons, Multiset.sum_cons, WriterJob.effort, hpauses, hnobody, List.map_nil,
        List.sum_nil]
      omega
    · simpa using horder
    · rw [← heverybody, Option.toList_some, ← Multiset.coe_add, Multiset.coe_singleton, ← Multiset.singleton_add]
      simp only [Multiset.coe_nil, Multiset.add_zero, Multiset.add_assoc]

theorem outcome_granted (hi : y.nameOf? i = some name) (hv : y.view name = v)
    (hmembers : ∀ j ∈ members, y.nameOf? j = some name) (hnodup : members.Nodup)
    (h : InTurn y.writers base members { v with jobs := .granted i ::ₘ v.jobs } entered) :
    ∃ n < View.effort y.writers { v with jobs := .granted i ::ₘ v.jobs },
      Outcome name base members y (y.handle (.granted i)) (entered ++ [i]) n := by
  obtain ⟨w, hw, rfl⟩ := exists_of_nameOf? hi
  obtain ⟨inside, waiting, coming, busy, ⟨hstored, horder, heverybody, hpending⟩, hturn⟩ := h
  have hbusy : .granted i ∈ busy := mem_of_pending hpending (by simp)
  obtain ⟨rest, hlock, rfl, rfl, rfl⟩ := hturn.of_granted hbusy
  have hlock : v.lock = ⟨false, i :: rest⟩ := hlock
  have hpending : v.jobs = 0 + coming.map .enter := by
    rw [Multiset.zero_add]
    exact (Multiset.cons_inj_right _).mp (hpending.trans (Multiset.singleton_add _ _))
  have hrest : ∀ j ∈ rest, j ≠ i := by
    rw [← heverybody] at hnodup
    have hwaiting : (i :: rest).Nodup :=
      Multiset.coe_nodup.mp (Multiset.nodup_of_le ((Multiset.le_add_left _ _).trans (Multiset.le_add_right _ _)) hnodup)
    exact fun j hj hji => (List.nodup_cons.mp hwaiting).1 (hji ▸ hj)
  have hqueue : (v.lock.waiting.filter fun j => j != i) = rest := by
    rw [hlock, List.filter_cons_of_neg (by simp)]
    exact List.filter_eq_self.mpr fun j hj => by simpa using hrest j hj
  have hknown : ∀ j ∈ rest, y.nameOf? j = some w.name := fun j hj =>
    hmembers j (heverybody ▸ by simp [hj])
  simp only [handle, hw]
  refine ⟨_, ?_, outcome_inside (.of_view hv) ⟨hstored, by simpa using horder, ?_, hpending⟩ hqueue hw rfl hknown⟩
  · have hpauses : pausesOf y.writers i = w.pauses.length := by simp [pausesOf, hw]
    simp only [View.effort, Multiset.map_cons, Multiset.sum_cons, WriterJob.effort, hpauses, hlock, List.map_cons,
      List.sum_cons]
    omega
  · rw [← heverybody, ← Multiset.coe_add, ← Multiset.cons_coe i rest, Multiset.coe_singleton, ← Multiset.singleton_add]
    simp only [Multiset.add_assoc]

section Pauses

variable {read : Value} {pauses : List Value}

/-- The end of a pause. -/
theorem outcome_rested (hi : y.nameOf? i = some name) (hv : y.view name = v)
    (h : InTurn y.writers base members { v with jobs := .rested i read pauses ::ₘ v.jobs } entered) :
    ∃ n < View.effort y.writers { v with jobs := .rested i read pauses ::ₘ v.jobs },
      Outcome name base members y (y.handle (.rested i read pauses)) entered n := by
  obtain ⟨inside, waiting, coming, busy, ⟨hstored, horder, heverybody, hpending⟩, hturn⟩ := h
  obtain ⟨hlock, hread, rfl, rfl⟩ := hturn.of_rested (mem_of_pending hpending (by simp))
  have hlock : v.lock = ⟨true, waiting⟩ := hlock
  obtain rfl : read = v.value := hread
  have hpending : v.jobs = coming.map .enter :=
    (Multiset.cons_inj_right _).mp (hpending.trans (Multiset.singleton_add _ _))
  have hsoon := Moves.soon (j := .goOn i v.value pauses) hi
  rw [hv] at hsoon
  have harranged : Arranged y.writers base members { v with jobs := .goOn i v.value pauses ::ₘ v.jobs } entered [i]
      waiting coming {.goOn i v.value pauses} :=
    ⟨hstored, horder, heverybody, by rw [Multiset.singleton_add, hpending]⟩
  refine ⟨_, ?_, _, hsoon, ⟨_, _, _, _, harranged, by rw [hlock]; exact .going v.value i waiting pauses⟩, le_refl _⟩
  simp only [View.effort, Multiset.map_cons, Multiset.sum_cons, WriterJob.effort]
  omega

/-- A writer goes on after a pause. -/
theorem outcome_resumed (hi : y.nameOf? i = some name) (hv : y.view name = v)
    (hmembers : ∀ j ∈ members, y.nameOf? j = some name)
    (h : InTurn y.writers base members { v with jobs := .goOn i read pauses ::ₘ v.jobs } entered) :
    ∃ n < View.effort y.writers { v with jobs := .goOn i read pauses ::ₘ v.jobs },
      Outcome name base members y (y.handle (.goOn i read pauses)) entered n := by
  obtain ⟨w, hw, rfl⟩ := exists_of_nameOf? hi
  obtain ⟨inside, waiting, coming, busy, ⟨hstored, horder, heverybody, hpending⟩, hturn⟩ := h
  obtain ⟨hlock, hread, rfl, rfl⟩ := hturn.of_goOn (mem_of_pending hpending (by simp))
  obtain rfl : read = v.value := hread
  have hpending : v.jobs = 0 + coming.map .enter := by
    rw [Multiset.zero_add]
    exact (Multiset.cons_inj_right _).mp (hpending.trans (Multiset.singleton_add _ _))
  have hknown : ∀ j ∈ waiting, y.nameOf? j = some w.name := fun j hj => hmembers j (heverybody ▸ by simp [hj])
  have hrunning : Running w.name base members y y v i w entered waiting coming :=
    ⟨.of_view hv, ⟨hstored, horder, heverybody, hpending⟩, hlock, hw, rfl, hknown⟩
  simp only [handle, hw]
  refine ⟨_, ?_, hrunning.outcome_goOn pauses⟩
  simp only [View.effort, Multiset.map_cons, Multiset.sum_cons, WriterJob.effort]
  omega

end Pauses

/-- After each job it is clear whose turn it is, and less is to be done. -/
theorem outcome_handle {j : WriterJob} (hj : y.nameOf? j.writer = some name)
    (hmembers : ∀ i ∈ members, y.nameOf? i = some name) (hnodup : members.Nodup)
    (h : InTurn y.writers base members { y.view name with jobs := j ::ₘ (y.view name).jobs } entered) :
    ∃ n < View.effort y.writers { y.view name with jobs := j ::ₘ (y.view name).jobs },
      Outcome name base members y (y.handle j) (entered ++ (y.entrant? j).toList) n := by
  cases j with
  | enter i => exact outcome_enter hj rfl h
  | granted i => exact outcome_granted hj rfl hmembers hnodup h
  | rested i read pauses =>
    have hi : y.nameOf? i = some name := hj
    simpa [entrant?] using outcome_rested hi rfl h
  | goOn i read pauses =>
    have hi : y.nameOf? i = some name := hj
    simpa [entrant?] using outcome_resumed hi rfl hmembers h

end Exclusive

end Patchbay
