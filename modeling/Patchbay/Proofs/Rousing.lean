import Patchbay.Proofs.Beats

/-!
# Strands that wait are taken up

A strand that waits for its turn or for a sleep has a job in the loop that takes it up, in every state of a
session: each operation that parks a strand adds such a job, a job that is run for it takes it up or is followed by
another, and what cancels timers cancels none of these. So a session in which nothing is left to run has no
strands but those that wait for tasks.

Contents:
* `Roused`: whether every strand that waits for its turn or for a sleep will be taken up.
* `Engine.Turn.Idle`: whether nothing is left to run.

Results:
* `roused_run`: the invariant holds in every state of a session.
* `Roused.of_idle`: who is left waiting when nothing is left to run.
-/

namespace Patchbay

/-- Whether every strand that waits for its turn or for a sleep will be taken up. -/
def Roused (t : Engine.Turn) : Prop := ∀ x ∈ t.engine.strands, t.engine.scheduler.Rouses x

/-- Whether nothing is left to run: no strand is under way, and the loop has no jobs. -/
def Engine.Turn.Idle (t : Engine.Turn) : Prop := t.next = none ∧ t.engine.scheduler.loop.entries = []

theorem Engine.Turn.Idle.pending {t : Engine.Turn} (h : t.Idle) (j : Job) :
    t.engine.scheduler.loop.pending j = 0 := by
  rw [Loop.pending, h.2]
  rfl

/-! ## Jobs -/

namespace Engine

variable {e : Engine} {x : Strand × Parked}

/-- A job is taken from the loop that is not for a strand, or that comes too early for it. -/
theorem rouses_takes {j : Job} {loop : Loop Job} (ht : e.scheduler.loop.Takes j loop)
    (htimeout : j = .timeout x.1.id → ∀ sig, x.2 ≠ .turn sig) (helapse : ∀ i, x.2 = .sleep i → j ≠ .elapse i)
    (hresume : j = .resume x.1.id → e.hasCome x.2 = false) (hx : e.scheduler.Rouses x) :
    (e.withLoop loop).scheduler.Rouses x := by
  obtain ⟨s, p⟩ := x
  cases p with
  | turn sig =>
    have hne : j ≠ .resume s.id := fun heq => nomatch hresume heq
    have hne' : j ≠ .timeout s.id := fun heq => htimeout heq sig rfl
    rw [Scheduler.Rouses, Loop.pending_of_takes ht, Loop.pending_of_takes ht, if_neg hne, if_neg hne'] at hx
    exact hx
  | sleep i => exact Scheduler.Sleeping.takes hx ht (helapse i rfl) hresume
  | task | gather => trivial

/-- Another strand is taken up. -/
theorem rouses_unpark (p : Parked) (hs : e.scheduler.Sound) (hne : ∀ i, p = .sleep i → x.2 ≠ .sleep i)
    (hx : e.scheduler.Rouses x) : (e.unpark p).2.scheduler.Rouses x := by
  cases p with
  | turn sig => exact hx
  | sleep i =>
    have hends := e.scheduler.ends_endSleep i
    obtain ⟨s, q⟩ := x
    cases q with
    | turn sig =>
      show 0 < _ ∨ 0 < _
      rw [show (e.unpark (.sleep i)).2.scheduler = (e.scheduler.endSleep i).2 from rfl, hends.plain hs _ rfl,
        hends.plain hs _ rfl]
      exact hx
    | sleep k => exact hends.sleeps hs k s.id (fun hki => hne i rfl (congrArg Parked.sleep hki)) hx
    | task | gather => trivial
  | task id =>
    simp only [unpark]
    split <;> exact hx
  | gather id =>
    simp only [unpark]
    split <;> exact hx

end Engine

namespace Roused

variable {t t' : Engine.Turn}

/-- Sleeps are of one strand each. -/
theorem ne_sleep (hr : Roused t) {x y : Strand × Parked} (hx : x ∈ t.engine.strands) (hy : y ∈ t.engine.strands)
    (hid : x.1.id ≠ y.1.id) (i : Nat) (hxi : x.2 = .sleep i) : y.2 ≠ .sleep i := by
  intro hyi
  have hsleepx := hr x hx
  have hsleepy := hr y hy
  simp only [Scheduler.Rouses, hxi] at hsleepx
  simp only [Scheduler.Rouses, hyi] at hsleepy
  obtain ⟨z, hz, hresume, -⟩ := hsleepx
  obtain ⟨z', hz', hresume', -⟩ := hsleepy
  obtain rfl := Option.some.inj (hz.symm.trans hz')
  exact hid (Job.resume.inj (hresume.symm.trans hresume'))

/-- A strand is taken up, or the job for it comes too early. -/
theorem resume (h : Staffed t) (hr : Roused t) {loop : Loop Job} {id : Nat}
    (ht : t.engine.scheduler.loop.Takes (.resume id) loop) :
    Roused ((t.engine.withLoop loop).handle (.resume id)) := by
  have hsound := (h.enrolled.takes ht).sound
  have hkeep : ∀ x ∈ t.engine.strands, (x.1.id = id → t.engine.hasCome x.2 = false) →
      (t.engine.withLoop loop).scheduler.Rouses x := by
    intro x hx hcome
    exact Engine.rouses_takes ht (fun heq => nomatch heq) (fun _ _ heq => nomatch heq)
      (fun heq => hcome (Job.resume.inj heq).symm) (hr x hx)
  simp only [Engine.handle]
  cases hfind : (t.engine.withLoop loop).strands.find? fun x => x.1.id == id with
  | none =>
    refine fun x hx => hkeep x hx fun hid => ?_
    have hnone := List.find?_eq_none.mp hfind x hx
    simp [hid] at hnone
  | some y =>
    obtain ⟨s, p⟩ := y
    have hmem : (s, p) ∈ t.engine.strands := List.mem_of_find?_eq_some hfind
    have hid : s.id = id := by simpa using List.find?_some hfind
    cases hcome : t.engine.hasCome p with
    | false =>
      simp only [Engine.hasCome_withLoop, hcome, Bool.false_eq_true, if_false]
      intro x hx
      refine hkeep x hx fun hxid => ?_
      rw [h.unique (Staffed.mem_population hx) (Staffed.mem_population hmem) (hxid.trans hid.symm)]
      exact hcome
    | true =>
      simp only [Engine.hasCome_withLoop, hcome, if_true]
      intro x hx
      have hstrands : x ∈ (t.engine.withLoop loop).strands.filter fun y => y.1.id != id := by
        rwa [show (Engine.go _ _ _).engine.strands = _ from (unpark_same _ p).1] at hx
      have hx' : x ∈ t.engine.strands := List.mem_of_mem_filter hstrands
      have hne : x.1.id ≠ id := by simpa using List.of_mem_filter hstrands
      exact Engine.rouses_unpark p hsound
        (hr.ne_sleep hmem hx' fun heq => hne (heq.symm.trans hid)) (hkeep x hx' fun heq => absurd heq hne)

/-- Another job is run. -/
theorem keeps (h : Staffed t) (hr : Roused t) {loop : Loop Job} {j : Job}
    (ht : t.engine.scheduler.loop.Takes j loop) (hresume : ∀ id, j ≠ .resume id) {x : Strand × Parked}
    (hx : x ∈ t.engine.strands) : ((t.engine.withLoop loop).handle j).engine.scheduler.Rouses x := by
  have hsound := (h.enrolled.takes ht).sound
  cases j with
  | resume id => exact absurd rfl (hresume id)
  | timeout id =>
    by_cases hid : id = x.1.id ∧ ∃ sig, x.2 = .turn sig
    · obtain ⟨rfl, sig, hsig⟩ := hid
      simp only [Scheduler.Rouses, hsig]
      exact .inl (Loop.pending_soon_self _ _)
    · refine (Scheduler.Heeds.soon _ _).rouses hsound (Engine.rouses_takes ht (fun heq sig hsig => ?_)
        (fun _ _ heq => nomatch heq) (fun heq => nomatch heq) (hr x hx))
      exact hid ⟨Job.timeout.inj heq, sig, hsig⟩
  | elapse i =>
    by_cases hi : x.2 = .sleep i
    · have hsleep := hr x hx
      simp only [Scheduler.Rouses, hi] at hsleep ⊢
      obtain ⟨y, hy, hstrand, hstate⟩ := hsleep
      refine .settle (s := (t.engine.withLoop loop).scheduler) hy hstrand (fun hsome => ?_) true
      rcases hstate with ⟨hnone, -⟩ | ⟨-, hpos⟩
      · rw [hnone] at hsome
        cases hsome
      · rwa [Loop.pending_of_takes ht, if_neg nofun] at hpos
    · refine (Scheduler.Spares.settle _ i true).rouses hsound (Engine.rouses_takes ht (fun heq => nomatch heq)
        (fun k hk heq => ?_) (fun heq => nomatch heq) (hr x hx))
      exact hi (hk.trans (congrArg Parked.sleep (Job.elapse.inj heq).symm))
  | fire | discard =>
    have hh := (Engine.handle_hires (t.engine.withLoop loop) hresume fun _ _ => nofun).1
    exact hh.scheduler.rouses hsound (Engine.rouses_takes ht (fun heq => nomatch heq)
      (fun _ _ heq => nomatch heq) (fun heq => nomatch heq) (hr x hx))
  | gather g m =>
    exact ((t.engine.withLoop loop).gatherDone_hears g m).scheduler.rouses hsound (Engine.rouses_takes ht
      (fun heq => nomatch heq) (fun _ _ heq => nomatch heq) (fun heq => nomatch heq) (hr x hx))

theorem job (h : Staffed t) (hr : Roused t) {loop : Loop Job} {j : Job}
    (ht : t.engine.scheduler.loop.Takes j loop) : Roused ((t.engine.withLoop loop).handle j) := by
  rcases j.sorts with ⟨id, rfl⟩ | ⟨g, m, rfl⟩ | ⟨hresume, hgather⟩
  · exact hr.resume h ht
  · have hh := (t.engine.withLoop loop).gatherDone_hears g m
    exact fun x hx => hr.keeps h ht (fun _ => nofun) (hh.strands ▸ hx)
  · obtain ⟨news, hstrands, -, -, hnews⟩ :=
      (Engine.handle_hires (t.engine.withLoop loop) hresume hgather).1.strands
    intro x hx
    rw [hstrands] at hx
    rcases List.mem_append.mp hx with hx | hx
    · exact hnews (h.enrolled.takes ht).sound x hx
    · exact hr.keeps h ht hresume hx

/-! ## Every state -/

theorem beat (h : Staffed t) (hr : Roused t) (hb : Beat t t') : Roused t' := by
  cases hb with
  | @turn s sig hn =>
    have hp := turn_passes t.engine s sig
    intro x hx
    rcases hp.rouses h.enrolled.sound hx with hx | hx
    · exact hp.heeds.rouses h.enrolled.sound (hr x hx)
    · exact hx
  | job hn ht => exact hr.job h ht
  | request hn r => exact hr

/-- Those who are left waiting when nothing is left to run wait for tasks. -/
theorem of_idle (hr : Roused t) (hidle : t.Idle) {x : Strand × Parked} (hx : x ∈ t.engine.strands) :
    (∀ sig, x.2 ≠ .turn sig) ∧ ∀ i, x.2 ≠ .sleep i := by
  have hx := hr x hx
  constructor
  · intro sig hsig
    simp [Scheduler.Rouses, hsig, hidle.pending] at hx
  · intro i hi
    simp [Scheduler.Rouses, Scheduler.Sleeping, hi, hidle.pending, hidle.2] at hx

end Roused

theorem Opens.roused {t : Engine.Turn} (h : Opens t) : Roused t := by
  obtain ⟨config, registry, graph, shortest, requests, -, rfl⟩ := h
  cases requests with
  | nil => exact fun x hx => (nomatch hx)
  | cons r rest => exact fun x hx => (nomatch hx)

/-- Strands that wait are taken up in every state of a session. -/
theorem roused_run {run : Nat → Engine.Turn} {n : Nat} (hopens : Opens (run 0))
    (hbeats : ∀ k < n, Beat (run k) (run (k + 1))) {k : Nat} (hk : k ≤ n) : Roused (run k) := by
  induction k with
  | zero => exact hopens.roused
  | succ k ih =>
    exact (ih (Nat.le_of_succ_le hk)).beat (staffed_run hopens hbeats (Nat.le_of_succ_le hk)) (hbeats k hk)

end Patchbay
