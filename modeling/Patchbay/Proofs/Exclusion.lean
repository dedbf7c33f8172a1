import Mathlib.Algebra.BigOperators.Group.Finset.Piecewise
import Mathlib.Algebra.Order.BigOperators.Group.Finset
import Patchbay.Proofs.Tenure

/-!
# Writers at work

Writers are started, and their jobs are run in any order and at any times: a course. The order in which they enter is
what counts: of the writers of a variable one at a time is inside, and the variable holds what they made of its first
value one after another. Also one that fails gives its variable to the next.

Contents:
* `begun`, `Course`: writers that have been started, and their jobs run in any order.
* `applied`, `wrote`: what functions make of a value in turn, and whether a writer has written.
* `Serial`: writers that take turns.
* `remaining`, `Ongoing`: how many jobs are needed at most, and what every job preserves.

Results:
* `ongoing_begun`, `Ongoing.turn`: at the start, and over a job.
* `Ongoing.serial`: writers take turns then.
* `courses_serial`: in every course the writers take turns; `run` is such a course, to its end.
-/

namespace Patchbay

namespace Exclusive

/-! ## Courses -/

/-- Writers that have been started, in order, at a time. -/
def begun (store : Variables) (now : Int) (writers : List Writer) : Exclusive :=
  (List.range writers.length).foldl (fun x i => x.soon (.enter i))
    { store := store, loop := { now := now }, writers := writers.toArray }

theorem run_eq (store : Variables) (now : Int) (writers : List Writer) :
    run store now writers = runFor (jobBound writers) (begun store now writers) := rfl

/-- Jobs are run, each time any of those that are pending and at any time on the clock: how many, who entered, and what
has become of the writers. -/
inductive Course (x : Exclusive) : Nat → List Nat → Exclusive → Prop
  | start : Course x 0 [] x
  | turn {n : Nat} {es : List Nat} {y : Exclusive} {j : WriterJob} {loop : Loop WriterJob} (h : Course x n es y)
      (htakes : y.loop.Takes j loop) :
      Course x (n + 1) (es ++ (y.entrant? j).toList) ({ y with loop := loop }.handle j)

/-! ## What is said of them -/

/-- Whether a writer is done. -/
def Done (y : Exclusive) (i : Nat) : Prop := ∃ fault, (i, fault) ∈ y.results

/-- The value of a variable, for one that reads it. -/
def valueOf (store : Variables) (name : String) : Value := (store.get? name).getD (.int 0)

/-- The ids of those that entered, as the marks say. -/
def enteredIds (trace : List Mark) : List String :=
  trace.filterMap fun
    | .entered id _ => some id
    | .left _ _ _ => none

end Exclusive

/-- What writers make of a value that write one after another. -/
def applied (writers : Array Writer) (v : Value) (ids : List Nat) : Value :=
  ids.foldl (fun v i => match writers[i]? with
    | some w => (w.update v).toOption.getD v
    | none => v) v

/-- Whether a writer that is done has written: it ended without a fault, or it is one that fails after it has written
and did so. -/
def wrote (writers : Array Writer) (e : Nat × Option Fault) : Bool :=
  match e.2 with
  | none => true
  | some f => !f.kind.isOperational && (writers[e.1]?.map Writer.fails).getD false

theorem leaves_eq {writers : Array Writer} {i : Nat} {w : Writer} (hw : writers[i]? = some w) (fault : Option Fault)
    (v : Value) : w.leaves fault v = if wrote writers (i, fault) then (w.update v).toOption.getD v else v := by
  unfold Writer.leaves wrote
  cases w.update v with
  | error f => simp [Except.toOption]
  | ok new =>
    cases fault with
    | none => simp [Except.toOption]
    | some f => simp [Except.toOption, hw, Bool.and_comm]

theorem replay_eq_applied (writers : Array Writer) (v : Value) (dones : List (Nat × Option Fault)) :
    replay writers v dones = applied writers v ((dones.filter (wrote writers)).map Prod.fst) := by
  induction dones generalizing v with
  | nil => rfl
  | cons e dones ih =>
    obtain ⟨i, fault⟩ := e
    rw [replay, List.foldl_cons, ← replay, ih, List.filter_cons]
    cases hw : writers[i]? with
    | none =>
      dsimp only
      split <;> simp [applied, hw]
    | some w =>
      simp only [leaves_eq hw fault v]
      split <;> simp [applied, hw]

/-- Where nobody fails after it has written, those have written that ended without a fault. -/
theorem wrote_of_sound {writers : List Writer} (h : ∀ w ∈ writers, w.fails = false) (e : Nat × Option Fault) :
    wrote writers.toArray e = e.2.isNone := by
  unfold wrote
  split
  · next hnone => simp [hnone]
  · next f hsome =>
    cases hw : writers[e.1]? with
    | none => simp [hsome, hw]
    | some w => simp [hsome, hw, h w (List.mem_of_getElem? hw)]

namespace Exclusive

/-- Writers that take turns, where so many jobs have been run and they have entered in an order. -/
structure Serial (store : Variables) (writers : List Writer) (n : Nat) (es : List Nat) (y : Exclusive) : Prop where
  /-- nobody enters twice, and the marks say who entered -/
  once : es.Nodup
  marks : enteredIds y.trace = es.filterMap fun i => writers[i]?.map Writer.id
  /-- of the writers of a variable at most one is inside -/
  alone : ∀ i ∈ es, ∀ j ∈ es, y.nameOf? i = y.nameOf? j → ¬y.Done i → ¬y.Done j → i = j
  /-- those of a variable that are done ended in the order in which they entered -/
  order : ∀ name, (y.view name).dones.map Prod.fst <+: es.filter fun i => y.nameOf? i = some name
  /-- a variable holds what those that have written made of its first value, one after another in that order -/
  stored : ∀ name, valueOf y.store name = applied writers.toArray (valueOf store name)
    (((y.view name).dones.filter (wrote writers.toArray)).map Prod.fst)
  /-- these are the ones that ended without a fault, unless there is one that fails after it has written -/
  completed : (∀ w ∈ writers, w.fails = false) → ∀ name, valueOf y.store name =
    applied writers.toArray (valueOf store name) (((y.view name).dones.filter fun e => e.2.isNone).map Prod.fst)
  /-- when all that entered are done, with a fault or without one, the variable is free, and the first that waits for it
  is told -/
  released : ∀ name, (∀ i ∈ es, y.nameOf? i = some name → y.Done i) →
    (y.lockOf name).held = false ∧ ∀ i, (y.lockOf name).waiting.head? = some i → .granted i ∈ y.loop.jobs
  /-- when nothing is left to run everybody is done, and that is so after a certain number of jobs at the latest -/
  settled : y.loop.jobs = 0 → ∀ i < writers.length, y.Done i
  bounded : n ≤ jobBound writers

/-! ## The marks -/

section Marks

variable (x : Exclusive) (i : Nat) (w : Writer) (fault : Option Fault) (read : Value) (pauses : List Value)
  (name : String)

@[simp] theorem setLock_trace (l : Lock) : (x.setLock name l).trace = x.trace := rfl

@[simp] theorem soon_trace (j : WriterJob) : (x.soon j).trace = x.trace := rfl

@[simp] theorem release_trace : (x.release name).trace = x.trace := by
  cases h : (x.lockOf name).waiting with
  | nil => rw [release_of_nil h]; rfl
  | cons next rest => rw [release_of_cons h]; rfl

@[simp] theorem finish_trace : (x.finish i w fault).trace = x.trace := release_trace _ _

theorem enteredIds_write : enteredIds (x.write i w read).trace = enteredIds x.trace := by
  unfold Exclusive.write
  split
  · rw [finish_trace]
  · dsimp only
    split
    · rw [finish_trace]
    · rw [finish_trace]
      simp [enteredIds]

theorem enteredIds_goOn : enteredIds (x.goOn i w read pauses).trace = enteredIds x.trace := by
  unfold Exclusive.goOn
  split
  · exact enteredIds_write x i w read
  · split
    · split
      · rfl
      · split
        · rfl
        · rw [finish_trace]
    · rw [finish_trace]
    · rw [finish_trace]

theorem enteredIds_inside : enteredIds (x.inside i w).trace = enteredIds x.trace ++ [w.id] := by
  unfold Exclusive.inside
  rw [enteredIds_goOn]
  simp [enteredIds]

/-- A job leaves a mark of the writer that it lets in. -/
theorem enteredIds_handle (j : WriterJob) : enteredIds (x.handle j).trace =
    enteredIds x.trace ++ (x.entrant? j).toList.filterMap fun i => x.writers[i]?.map Writer.id := by
  cases j with
  | enter i =>
    cases hw : x.writers[i]? with
    | none => simp [handle, entrant?, hw]
    | some w =>
      simp only [handle, entrant?, hw, Exclusive.enter]
      split
      · simp
      · simp [enteredIds_inside, hw]
  | granted i =>
    cases hw : x.writers[i]? with
    | none => simp [handle, entrant?, hw]
    | some w => simp [handle, entrant?, hw, enteredIds_inside]
  | rested i read pauses => simp [handle, entrant?]
  | goOn i read pauses =>
    cases hw : x.writers[i]? with
    | none => simp [handle, entrant?, hw]
    | some w => simp [handle, entrant?, hw, enteredIds_goOn]

end Marks

/-! ## At the start -/

section Start

variable (store : Variables) (now : Int) (writers : List Writer) (name : String)

/-- The writers of a variable. -/
def membersOf : List Nat :=
  (List.range writers.length).filter fun i => writers.toArray[i]?.map Writer.name = some name

theorem nodup_membersOf : (membersOf writers name : Multiset Nat).Nodup :=
  Multiset.coe_nodup.mpr (List.nodup_range.filter _)

theorem soon_all (x : Exclusive) (ids : List Nat) : ∃ loop : Loop WriterJob,
    ids.foldl (fun x i => x.soon (.enter i)) x = { x with loop := loop } ∧
      loop.jobs = ((ids.map .enter : List WriterJob) : Multiset WriterJob) + x.loop.jobs := by
  induction ids generalizing x with
  | nil => exact ⟨x.loop, rfl, by simp⟩
  | cons i ids ih =>
    obtain ⟨loop, hfold, hjobs⟩ := ih (x.soon (.enter i))
    refine ⟨loop, hfold, ?_⟩
    have hsoon : (x.soon (.enter i)).loop.jobs = .enter i ::ₘ x.loop.jobs := Loop.jobs_soon _ _
    rw [hjobs, hsoon, List.map_cons, ← Multiset.cons_coe, Multiset.cons_add, Multiset.add_cons]

/-- Everybody is about to ask for a lock. -/
theorem begun_eq : ∃ loop : Loop WriterJob,
    begun store now writers = { store := store, loop := loop, writers := writers.toArray } ∧
      loop.jobs = ((List.range writers.length).map .enter : List WriterJob) := by
  obtain ⟨loop, hfold, hjobs⟩ := soon_all { store := store, loop := { now := now }, writers := writers.toArray }
    (List.range writers.length)
  refine ⟨loop, hfold, ?_⟩
  rw [hjobs]
  exact Multiset.add_zero _

theorem view_begun : (begun store now writers).view name =
    ⟨⟨false, []⟩, valueOf store name, ((membersOf writers name).map .enter : List WriterJob), []⟩ := by
  obtain ⟨loop, hbegun, hjobs⟩ := begun_eq store now writers
  have hfilter : (loop.jobs.filter fun j => writers.toArray[j.writer]?.map Writer.name = some name) =
      ((membersOf writers name).map .enter : List WriterJob) := by
    rw [hjobs, Multiset.filter_coe, List.filter_map]
    rfl
  rw [hbegun]
  exact congrArg (fun jobs => (⟨⟨false, []⟩, valueOf store name, jobs, []⟩ : View)) hfilter

theorem inTurn_begun : InTurn writers.toArray (valueOf store name) (membersOf writers name)
    ((begun store now writers).view name) [] := by
  rw [view_begun]
  exact ⟨[], [], membersOf writers name, 0, ⟨rfl, rfl, by simp, by simp⟩, .free _⟩

theorem jobBound_eq : jobBound writers = (writers.map fun w => 3 + 2 * w.pauses.length).sum := by
  have hfold : ∀ n, writers.foldl (fun n w => n + 3 + 2 * w.pauses.length) n =
      n + (writers.map fun w => 3 + 2 * w.pauses.length).sum := by
    induction writers with
    | nil => simp
    | cons w writers ih =>
      intro n
      rw [List.foldl_cons, ih, List.map_cons, List.sum_cons]
      omega
  rw [jobBound, hfold, Nat.zero_add]

/-- The variables of the writers. -/
def names : Finset String := (writers.map Writer.name).toFinset

theorem name_mem_names {i : Nat} (h : i < writers.length) : writers[i].name ∈ names writers :=
  List.mem_toFinset.mpr (List.mem_map_of_mem (List.getElem_mem h))

/-- How many jobs all writers need at most. -/
def remaining (y : Exclusive) : Nat := ∑ name ∈ names writers, (y.view name).effort writers.toArray

/-- What is counted for each variable is counted once. -/
theorem sum_filter_names {s : Finset String} {f : Nat → Option String} (g : Nat → Nat) {l : List Nat}
    (h : ∀ i ∈ l, ∃ name ∈ s, f i = some name) :
    ∑ name ∈ s, ((l.filter fun i => f i = some name).map g).sum = (l.map g).sum := by
  induction l with
  | nil => simp
  | cons i l ih =>
    obtain ⟨own, hown, hfi⟩ := h i List.mem_cons_self
    have hterm : ∀ name, (((i :: l).filter fun i => f i = some name).map g).sum =
        (if own = name then g i else 0) + ((l.filter fun i => f i = some name).map g).sum := by
      intro name
      by_cases hname : own = name
      · simp [hfi, hname]
      · simp [hfi, hname]
    simp only [hterm, Finset.sum_add_distrib, ih fun j hj => h j (List.mem_cons_of_mem i hj), List.map_cons,
      List.sum_cons]
    rw [Finset.sum_ite_eq, if_pos hown]

theorem remaining_begun : remaining writers (begun store now writers) = jobBound writers := by
  have heffort : ∀ name, ((begun store now writers).view name).effort writers.toArray =
      ((membersOf writers name).map fun i => 3 + 2 * pausesOf writers.toArray i).sum := by
    intro name
    rw [view_begun]
    simp [View.effort, WriterJob.effort, Function.comp_def]
  have hknown : ∀ i ∈ List.range writers.length, ∃ name ∈ names writers,
      writers.toArray[i]?.map Writer.name = some name := by
    intro i hi
    have hlt : i < writers.length := List.mem_range.mp hi
    exact ⟨writers[i].name, name_mem_names writers hlt, by simp [hlt]⟩
  rw [remaining, jobBound_eq]
  simp only [heffort]
  refine (sum_filter_names _ hknown).trans (congrArg List.sum (List.ext_getElem (by simp) fun i hi _ => ?_))
  have hlt : i < writers.length := by simpa using hi
  simp [pausesOf, hlt]

end Start

/-! ## Every job -/

theorem eq_writer_of_entrant? {x : Exclusive} {j : WriterJob} {i : Nat} (h : x.entrant? j = some i) : i = j.writer := by
  cases j with
  | enter k =>
    dsimp only [entrant?] at h
    split at h
    · split at h
      · cases h
      · exact (Option.some.inj h).symm
    · cases h
  | granted k => exact (Option.some.inj h).symm
  | rested | goOn => cases h

/-- What every job of a course preserves. -/
structure Ongoing (store : Variables) (writers : List Writer) (n : Nat) (es : List Nat) (y : Exclusive) : Prop where
  same : y.writers = writers.toArray
  known : ∀ j ∈ y.loop.jobs, ∃ name ∈ names writers, y.nameOf? j.writer = some name
  entrants : ∀ i ∈ es, ∃ name, y.nameOf? i = some name
  enders : ∀ e ∈ y.results, ∃ name, y.nameOf? e.1 = some name
  marks : enteredIds y.trace = es.filterMap fun i => writers[i]?.map Writer.id
  inTurn : ∀ name, InTurn writers.toArray (valueOf store name) (membersOf writers name) (y.view name)
    (es.filter fun i => y.nameOf? i = some name)
  paid : n + remaining writers y ≤ jobBound writers

variable {store : Variables} {now : Int} {writers : List Writer} {n : Nat} {es : List Nat} {y : Exclusive}

theorem ongoing_begun : Ongoing store writers 0 [] (begun store now writers) := by
  obtain ⟨loop, hbegun, hjobs⟩ := begun_eq store now writers
  have hpaid := remaining_begun store now writers
  have hinTurn := inTurn_begun store now writers
  rw [hbegun] at hpaid hinTurn ⊢
  refine ⟨rfl, fun j hj => ?_, nofun, nofun, rfl, hinTurn, by rw [hpaid, Nat.zero_add]⟩
  have hj : j ∈ loop.jobs := hj
  rw [hjobs] at hj
  obtain ⟨i, hi, rfl⟩ := List.mem_map.mp (Multiset.mem_coe.mp hj)
  have hlt : i < writers.length := List.mem_range.mp hi
  exact ⟨writers[i].name, name_mem_names writers hlt, by simp [nameOf?, WriterJob.writer, hlt]⟩

theorem Ongoing.turn (h : Ongoing store writers n es y) {j : WriterJob} {loop : Loop WriterJob}
    (htakes : y.loop.Takes j loop) :
    Ongoing store writers (n + 1) (es ++ (y.entrant? j).toList) ({ y with loop := loop }.handle j) := by
  have hjobs := Loop.jobs_of_takes htakes
  obtain ⟨name, hname, hj⟩ := h.known j (hjobs ▸ Multiset.mem_cons_self _ _)
  -- `y` is the state without the job, and the job
  have hback : Moves name { y with loop := loop } y _ := Moves.addJob (x := { y with loop := loop }) hj hjobs
  have hmembers : ∀ i ∈ (membersOf writers name : Multiset Nat), y.nameOf? i = some name := fun i hi => by
    have hmem := (List.mem_filter.mp (Multiset.mem_coe.mp hi)).2
    rw [nameOf?, h.same]
    simpa using hmem
  have hinTurn := h.inTurn name
  rw [hback.here, ← h.same] at hinTurn
  obtain ⟨m, hm, v, hmoves, hv, hle⟩ := outcome_handle (y := { y with loop := loop }) hj hmembers
    (nodup_membersOf writers name) hinTurn
  have hnameOf : ∀ i, ({ y with loop := loop }.handle j).nameOf? i = y.nameOf? i := hmoves.nameOf?
  have hentrant : ∀ i ∈ (y.entrant? j).toList, y.nameOf? i = some name := fun i hi => by
    rw [eq_writer_of_entrant? (Option.mem_toList.mp hi)]
    exact hj
  have hothers : ∀ other, other ≠ name → ({ y with loop := loop }.handle j).view other = y.view other :=
    fun other hother => (hmoves.elsewhere other hother).trans (hback.elsewhere other hother).symm
  refine ⟨hmoves.writers.trans h.same, fun k hk => ?_, fun i hi => ?_, fun e he => ?_, ?_, fun other => ?_, ?_⟩
  · simp only [hnameOf]
    rcases hmoves.jobs k hk with hk | hk
    · exact h.known k (hjobs ▸ Multiset.mem_cons_of_mem hk)
    · exact ⟨name, hname, hk⟩
  · rw [hnameOf]
    rcases List.mem_append.mp hi with hi | hi
    · exact h.entrants i hi
    · exact ⟨name, hentrant i hi⟩
  · rw [hnameOf]
    rcases hmoves.results e he with he | he
    · exact h.enders e he
    · exact ⟨name, he⟩
  · rw [enteredIds_handle, List.filterMap_append]
    have hids : (fun i : Nat => y.writers[i]?.map Writer.id) = fun i => writers[i]?.map Writer.id := by
      simp only [h.same, List.getElem?_toArray]
    exact congr (congrArg _ h.marks) (congrArg (fun f => (y.entrant? j).toList.filterMap f) hids)
  · simp only [hnameOf]
    rw [List.filter_append]
    by_cases hother : other = name
    · subst hother
      have hall : ((y.entrant? j).toList.filter fun i => y.nameOf? i = some other) = (y.entrant? j).toList :=
        List.filter_eq_self.mpr fun i hi => by simpa using hentrant i hi
      rw [hall, hmoves.here, ← h.same]
      exact hv
    · have hnone : ((y.entrant? j).toList.filter fun i => y.nameOf? i = some other) = [] :=
        List.filter_eq_nil_iff.mpr fun i hi => by
          rw [hentrant i hi]
          simpa using Ne.symm hother
      rw [hnone, List.append_nil, hothers other hother]
      exact h.inTurn other
  · have hlt : remaining writers ({ y with loop := loop }.handle j) < remaining writers y := by
      refine Finset.sum_lt_sum (fun other _ => ?_) ⟨name, hname, ?_⟩
      · by_cases hother : other = name
        · rw [hother, hmoves.here, hback.here, ← h.same]
          exact hle.trans hm.le
        · rw [hothers other hother]
      · rw [hmoves.here, hback.here, ← h.same]
        exact hle.trans_lt hm
    have hpaid := h.paid
    omega

theorem Course.ongoing (h : Course (begun store now writers) n es y) : Ongoing store writers n es y := by
  induction h with
  | start => exact ongoing_begun
  | turn _ htakes ih => exact ih.turn htakes

/-! ## One after another -/

theorem done_iff {name : String} {i : Nat} (hi : y.nameOf? i = some name) :
    y.Done i ↔ i ∈ (y.view name).dones.map Prod.fst := by
  have hmem : ∀ fault, (i, fault) ∈ (y.view name).dones ↔ (i, fault) ∈ y.results := fun fault => by
    simp [view, hi]
  simp [Done, hmem]

/-- No element is there twice if none is among those of one name. -/
theorem nodup_of_filter {f : Nat → Option String} {l : List Nat} (hknown : ∀ i ∈ l, ∃ name, f i = some name)
    (h : ∀ name, (l.filter fun i => f i = some name).Nodup) : l.Nodup := by
  refine List.nodup_iff_count_le_one.mpr fun i => ?_
  by_cases hi : i ∈ l
  · obtain ⟨name, hname⟩ := hknown i hi
    have hcount : (l.filter fun i => f i = some name).count i = l.count i := List.count_filter (by simpa using hname)
    exact hcount ▸ List.nodup_iff_count_le_one.mp (h name) i
  · rw [List.count_eq_zero_of_not_mem hi]
    exact Nat.zero_le 1

namespace Ongoing

variable (h : Ongoing store writers n es y)

include h

theorem nameOf?_eq (i : Nat) : y.nameOf? i = writers[i]?.map Writer.name := by
  rw [nameOf?, h.same, List.getElem?_toArray]

theorem nodup_entered (name : String) : (es.filter fun i => y.nameOf? i = some name).Nodup := by
  obtain ⟨inside, waiting, coming, busy, harranged, -⟩ := h.inTurn name
  have hmembers := nodup_membersOf writers name
  rw [← harranged.everybody] at hmembers
  exact Multiset.coe_nodup.mp
    (Multiset.nodup_of_le ((Multiset.le_add_right _ _).trans (Multiset.le_add_right _ _)) hmembers)

theorem once : es.Nodup := nodup_of_filter h.entrants h.nodup_entered

theorem alone {i j : Nat} (hi : i ∈ es) (hj : j ∈ es) (hsame : y.nameOf? i = y.nameOf? j) (hinotdone : ¬y.Done i)
    (hjnotdone : ¬y.Done j) : i = j := by
  obtain ⟨name, hiname⟩ := h.entrants i hi
  have hjname : y.nameOf? j = some name := hsame ▸ hiname
  obtain ⟨inside, waiting, coming, busy, harranged, hturn⟩ := h.inTurn name
  have hinside : ∀ k ∈ es, y.nameOf? k = some name → ¬y.Done k → k ∈ inside := fun k hk hkname hknotdone => by
    have hmem : k ∈ es.filter fun i => y.nameOf? i = some name := List.mem_filter.mpr ⟨hk, by simpa using hkname⟩
    rw [harranged.order] at hmem
    exact (List.mem_append.mp hmem).resolve_left fun hdone => hknotdone ((done_iff hkname).mpr hdone)
  exact hturn.inside_unique (hinside i hi hiname hinotdone) (hinside j hj hjname hjnotdone)

theorem stored (name : String) : valueOf y.store name = applied writers.toArray (valueOf store name)
    (((y.view name).dones.filter (wrote writers.toArray)).map Prod.fst) := by
  obtain ⟨inside, waiting, coming, busy, harranged, -⟩ := h.inTurn name
  exact harranged.stored.trans (replay_eq_applied _ _ _)

theorem released {name : String} (hdone : ∀ i ∈ es, y.nameOf? i = some name → y.Done i) :
    (y.lockOf name).held = false ∧ ∀ i, (y.lockOf name).waiting.head? = some i → .granted i ∈ y.loop.jobs := by
  obtain ⟨inside, waiting, coming, busy, harranged, hturn⟩ := h.inTurn name
  have hnobody : inside = [] := List.eq_nil_iff_forall_not_mem.mpr fun i hi => by
    have hmem : i ∈ es.filter fun i => y.nameOf? i = some name :=
      harranged.order ▸ List.mem_append_right _ hi
    have hi' := List.mem_filter.mp hmem
    have hname : y.nameOf? i = some name := by simpa using hi'.2
    have hnodup := harranged.order ▸ h.nodup_entered name
    exact (List.nodup_append.mp hnodup).2.2 i ((done_iff hname).mp (hdone i hi'.1 hname)) i hi rfl
  subst hnobody
  obtain ⟨hheld, htold⟩ := hturn.released
  refine ⟨hheld, fun i hi => ?_⟩
  have hjob : .granted i ∈ (y.view name).jobs := harranged.pending ▸ Multiset.mem_add.mpr (.inl (htold i hi))
  exact Multiset.mem_of_mem_filter hjob

theorem settled (hnothing : y.loop.jobs = 0) {i : Nat} (hi : i < writers.length) : y.Done i := by
  have hname : y.nameOf? i = some writers[i].name := by simp [h.nameOf?_eq, hi]
  obtain ⟨inside, waiting, coming, busy, harranged, hturn⟩ := h.inTurn writers[i].name
  have hjobs : busy + coming.map .enter = 0 := by
    rw [← harranged.pending, view, hnothing, Multiset.filter_zero]
  obtain ⟨rfl, hcoming⟩ := AddLeftCancelMonoid.add_eq_zero.mp hjobs
  obtain rfl := Multiset.map_eq_zero.mp hcoming
  obtain ⟨rfl, rfl⟩ := hturn.idle
  have hmember : i ∈ (membersOf writers writers[i].name : Multiset Nat) := by simp [membersOf, hi]
  rw [← harranged.everybody, harranged.order] at hmember
  exact (done_iff hname).mpr (by simpa using hmember)

theorem serial : Serial store writers n es y where
  once := h.once
  marks := h.marks
  alone _ hi _ hj hsame hinotdone hjnotdone := h.alone hi hj hsame hinotdone hjnotdone
  order name := by
    obtain ⟨inside, waiting, coming, busy, harranged, -⟩ := h.inTurn name
    exact harranged.order ▸ List.prefix_append _ _
  stored := h.stored
  completed hsound name := by
    rw [h.stored name, funext (wrote_of_sound hsound)]
  released _ hdone := h.released hdone
  settled hnothing _ hi := h.settled hnothing hi
  bounded := (Nat.le_add_right _ _).trans h.paid

end Ongoing

/-! ## The run -/

/-- The loop runs a course: until everybody is done, until nothing is left that will ever be ready, or for as many jobs
as it may. -/
theorem Course.runFor {x : Exclusive} (k : Nat) (h : Course x n es y) :
    ∃ m fs, Course x m fs (y.runFor k) ∧ ((y.runFor k).results.length = (y.runFor k).writers.size ∨
      (y.runFor k).loop.next? = none ∨ m = n + k) := by
  induction k generalizing n es y with
  | zero => exact ⟨n, es, h, .inr (.inr rfl)⟩
  | succ k ih =>
    unfold Exclusive.runFor
    split
    · next hall => exact ⟨n, es, h, .inl (beq_iff_eq.mp hall)⟩
    · split
      · next hnext => exact ⟨n, es, h, .inr (.inl hnext)⟩
      · next job loop hnext =>
        obtain ⟨m, fs, hcourse, hend⟩ := ih (h.turn (Loop.takes_next? hnext))
        exact ⟨m, fs, hcourse, hend.imp_right fun hend => hend.imp_right fun hm => by omega⟩

namespace Ongoing

variable (h : Ongoing store writers n es y)

include h

/-- As many as there are writers are done when they all are. -/
theorem done_of_length (hall : y.results.length = y.writers.size) {i : Nat} (hi : i < writers.length) : y.Done i := by
  have hkeys : (y.results.map Prod.fst).Nodup := by
    refine nodup_of_filter (f := y.nameOf?) (fun k hk => ?_) fun name => ?_
    · obtain ⟨e, he, rfl⟩ := List.mem_map.mp hk
      exact h.enders e he
    · obtain ⟨inside, waiting, coming, busy, harranged, -⟩ := h.inTurn name
      have hprefix : (y.view name).dones.map Prod.fst <+: es.filter fun i => y.nameOf? i = some name :=
        harranged.order ▸ List.prefix_append _ _
      rw [List.filter_map]
      exact (h.nodup_entered name).sublist hprefix.sublist
  have hrange : y.results.map Prod.fst ⊆ List.range writers.length := fun k hk => by
    obtain ⟨e, he, rfl⟩ := List.mem_map.mp hk
    obtain ⟨name, hname⟩ := h.enders e he
    rw [h.nameOf?_eq] at hname
    exact List.mem_range.mpr (List.getElem?_eq_some_iff.mp (Option.map_eq_some_iff.mp hname).choose_spec.1).1
  have hperm : (y.results.map Prod.fst).Perm (List.range writers.length) :=
    (hkeys.subperm hrange).perm_of_length_le (by simp [hall, h.same])
  obtain ⟨e, he, rfl⟩ := List.mem_map.mp (hperm.mem_iff.mpr (List.mem_range.mpr hi))
  exact ⟨e.2, he⟩

/-- No job that is run is left when everything has been paid for. -/
theorem jobs_of_paid (hpaid : jobBound writers ≤ n) : y.loop.jobs = 0 := by
  have hzero : remaining writers y = 0 := by
    have := h.paid
    omega
  refine Multiset.eq_zero_of_forall_notMem fun j hj => ?_
  obtain ⟨name, hname, hj'⟩ := h.known j hj
  have hj : j ∈ (y.view name).jobs := Multiset.mem_filter.mpr ⟨hj, hj'⟩
  obtain ⟨hjobs, hwaiting⟩ := Nat.add_eq_zero_iff.mp (Finset.sum_eq_zero_iff.mp hzero name hname)
  have heffort : j.effort writers.toArray ≤ 0 := hjobs ▸ Multiset.le_sum_of_mem (Multiset.mem_map_of_mem _ hj)
  cases j with
  | granted i =>
    -- its effort is counted where it waits
    obtain ⟨inside, waiting, coming, busy, harranged, hturn⟩ := h.inTurn name
    have hbusy : .granted i ∈ busy := by
      refine (Multiset.mem_add.mp (harranged.pending ▸ hj)).resolve_right fun hcoming => ?_
      simp at hcoming
    obtain ⟨rest, hlock, -⟩ := hturn.of_granted hbusy
    rw [hlock] at hwaiting
    simp at hwaiting
  | enter | rested | goOn => simp [WriterJob.effort] at heffort

theorem next?_of_paid (hpaid : jobBound writers ≤ n) : y.loop.next? = none := by
  cases hnext : y.loop.next? with
  | none => rfl
  | some next =>
    have hjobs := Loop.jobs_of_takes (Loop.takes_next? hnext)
    rw [h.jobs_of_paid hpaid] at hjobs
    exact absurd hjobs (Multiset.zero_ne_cons)

end Ongoing

/-- Writers that are started take turns at their variables, in whatever order their jobs are run. `run` runs them in one
of these orders, to the end: everybody is done, or those that are left pause for ever. -/
theorem courses_serial (store : Variables) (now : Int) (writers : List Writer) :
    (∀ n es y, Course (begun store now writers) n es y → Serial store writers n es y) ∧
      ∃ n es, Course (begun store now writers) n es (run store now writers) ∧
        ((∀ i < writers.length, (run store now writers).Done i) ∨ (run store now writers).loop.next? = none) := by
  refine ⟨fun n es y h => h.ongoing.serial, ?_⟩
  rw [run_eq]
  obtain ⟨n, es, hcourse, hend⟩ := (Course.start (x := begun store now writers)).runFor (jobBound writers)
  refine ⟨n, es, hcourse, ?_⟩
  rcases hend with hall | hnext | hn
  · exact .inl fun i hi => hcourse.ongoing.done_of_length hall hi
  · exact .inr hnext
  · exact .inr (hcourse.ongoing.next?_of_paid (by omega))

-- the second fails, and the third finds what the first left
example : valueOf (run {} 0
    [⟨"x", "a", [], (Value.add · (.int 2)), false⟩, ⟨"y", "a", [], fun _ => .error .zeroDivision, false⟩,
      ⟨"z", "a", [], (Value.mul · (.int 5)), false⟩]).store "a" = .int 10 := rfl

end Exclusive

end Patchbay
