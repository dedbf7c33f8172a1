import Mathlib.Data.List.Perm.Basic
import Patchbay.Engine.State
import Patchbay.Proofs.Registrations

/-!
# Pending jobs

What a loop still has to run are the jobs that are ready and the timers. A timer is cancelled by the id of its
job, so to cancel one takes away no job that somebody waits for as long as such jobs have ids of their own; and
a sleep ends by its timer, or because it is woken.

Contents:
* `Loop.entries`, `Loop.pending`: the jobs of a loop, and how often one of them is pending.
* `Loop.Takes`: a pending job is taken.
* `Scheduler.Sound`: the ids of timers are of no other job.
* `Scheduler.Sleeping`, `Scheduler.Rouses`: whether a sleep will end, and whether a strand will be taken up.
* `Scheduler.Heeds`, `Scheduler.Spares`: a change by which no job that somebody waits for is lost.

Results:
* `Loop.takes_next?`: the loop takes a pending job.
* `Spares.cancelOwner`, `Spares.callLater`, `Spares.sleep`, `Spares.wakeAll` and others: each operation.
* `ends_endSleep`: the end of a sleep.
-/

namespace Patchbay

deriving instance DecidableEq for Job

/-- Whether a job is not that of a timer or of a sleep. -/
def Job.plain : Job → Bool
  | .fire _ | .elapse _ => false
  | _ => true

/-! ## Loops -/

namespace Loop

variable {α : Type} {l l' : Loop α} {j : α}

/-- The jobs that a loop still has to run, with their ids. -/
def entries (l : Loop α) : List (Nat × α) := l.batch ++ l.ready ++ l.timers.map fun t => (t.id, t.job)

/-- How often a job is pending. -/
def pending [DecidableEq α] (l : Loop α) (j : α) : Nat := (l.entries.map Prod.snd).count j

/-- Whether a loop takes a pending job. -/
def Takes (l : Loop α) (j : α) (l' : Loop α) : Prop :=
  (∃ id, l.entries.Perm ((id, j) :: l'.entries)) ∧ l'.nextId = l.nextId

theorem pending_of_takes [DecidableEq α] (h : l.Takes j l') (i : α) :
    l.pending i = l'.pending i + if j = i then 1 else 0 := by
  obtain ⟨⟨id, hperm⟩, -⟩ := h
  rw [pending, (hperm.map Prod.snd).count_eq, List.map_cons, List.count_cons, pending]
  simp

theorem entries_soon (l : Loop α) (j : α) : (l.soon j).entries.Perm ((l.nextId, j) :: l.entries) := by
  have hmiddle : ((l.batch ++ l.ready) ++ (l.nextId, j) :: l.timers.map fun t => (t.id, t.job)).Perm
      ((l.nextId, j) :: l.entries) := List.perm_middle
  simpa [entries, soon] using hmiddle

theorem entries_addTimer (l : Loop α) (due : Option Int) (j : α) :
    (l.addTimer due j).2.entries = l.entries ++ [(l.nextId, j)] := by
  simp [entries, addTimer]

theorem entries_cancel (l : Loop α) (id : Nat) : (l.cancel id).entries = l.entries.filter fun x => x.1 != id := by
  simp [entries, cancel, List.filter_map, Function.comp_def]

theorem pending_soon [DecidableEq α] (l : Loop α) (j i : α) :
    (l.soon j).pending i = l.pending i + if j = i then 1 else 0 := by
  rw [pending, ((entries_soon l j).map Prod.snd).count_eq, List.map_cons, List.count_cons, pending]
  simp

theorem pending_addTimer [DecidableEq α] (l : Loop α) (due : Option Int) (j i : α) :
    (l.addTimer due j).2.pending i = l.pending i + if j = i then 1 else 0 := by
  simp [pending, entries_addTimer, List.count_singleton]

theorem pending_cancel_le [DecidableEq α] (l : Loop α) (id : Nat) (j : α) : (l.cancel id).pending j ≤ l.pending j := by
  rw [pending, entries_cancel]
  exact (List.filter_sublist.map _).count_le j

theorem pending_soon_self [DecidableEq α] (l : Loop α) (j : α) : 0 < (l.soon j).pending j := by
  rw [pending_soon, if_pos rfl]
  exact Nat.succ_pos _

theorem pending_addTimer_self [DecidableEq α] (l : Loop α) (due : Option Int) (j : α) :
    0 < (l.addTimer due j).2.pending j := by
  rw [pending_addTimer, if_pos rfl]
  exact Nat.succ_pos _

/-! ## The next job -/

theorem perm_insertByDue (t : Timer α) (ts : List (Timer α)) : (insertByDue t ts).Perm (t :: ts) := by
  induction ts with
  | nil => exact .refl _
  | cons u us ih =>
    unfold insertByDue
    split
    · exact .refl _
    · exact (ih.cons u).trans (.swap t u us)

theorem perm_sortByDue (ts : List (Timer α)) : (sortByDue ts).Perm ts := by
  have hfold : ∀ acc : List (Timer α), (ts.foldl (fun acc t => insertByDue t acc) acc).Perm (ts ++ acc) := by
    induction ts with
    | nil => exact fun acc => .refl acc
    | cons t ts ih =>
      intro acc
      exact (ih _).trans (((perm_insertByDue t acc).append_left ts).trans List.perm_middle)
  have hall := hfold []
  rwa [List.append_nil] at hall

/-- An iteration starts with the same jobs. -/
theorem entries_iterate (l : Loop α) (hbatch : l.batch = []) (now : Int) :
    (l.iterate now).entries.Perm l.entries := by
  have hsplit : ((sortByDue (l.timers.filter (Timer.isDue now))).map (fun t => (t.id, t.job)) ++
      (l.timers.filter fun t => !Timer.isDue now t).map fun t => (t.id, t.job)).Perm
        (l.timers.map fun t => (t.id, t.job)) := by
    rw [← List.map_append]
    exact (((perm_sortByDue _).append_right _).trans (List.filter_append_perm _ _)).map _
  have hjoined := hsplit.append_left l.ready
  simpa [entries, iterate, hbatch] using hjoined

/-- The next job is a pending one. -/
theorem takes_next? (h : l.next? = some (j, l')) : l.Takes j l' := by
  have htake : ∀ {l₁ : Loop α} {id : Nat} {job : α} {rest : List (Nat × α)}, l₁.entries.Perm l.entries →
      l₁.nextId = l.nextId → l₁.batch = (id, job) :: rest → l.Takes job { l₁ with batch := rest } := by
    intro l₁ id job rest hperm hid hbatch
    refine ⟨⟨id, hperm.symm.trans ?_⟩, hid⟩
    rw [entries, hbatch]
    exact .refl _
  unfold next? at h
  dsimp only at h
  split at h
  · cases h
  next id job rest hbatch =>
  obtain ⟨rfl, rfl⟩ := Prod.mk.inj (Option.some.inj h)
  refine htake ?_ ?_ hbatch
  · split
    · next hempty =>
      have hbatch : l.batch = [] := List.isEmpty_iff.mp hempty
      split
      · split
        · exact entries_iterate l hbatch _
        · exact .refl _
      · exact entries_iterate l hbatch _
    · exact .refl _
  · split
    · split
      · split <;> rfl
      · rfl
    · rfl

end Loop

/-! ## Schedulers -/

namespace Scheduler

/-- The ids of the jobs that make registrations fire. -/
def registered (s : Scheduler Firing Job) : List Nat := s.registrations.filterMap Registration.handle

/-- The ids of the jobs that make registrations fire and end sleeps. -/
def handles (s : Scheduler Firing Job) : List Nat := s.registered ++ s.sleepers.map Sleeper.timer

/-- Whether the ids of timers are of no other job, and sleepers are continued as strands are. -/
structure Sound (s : Scheduler Firing Job) : Prop where
  known : ∀ x ∈ s.loop.entries, x.1 < s.loop.nextId
  handles : ∀ h ∈ s.handles, h < s.loop.nextId
  plain : ∀ x ∈ s.loop.entries, x.2.plain = true → x.1 ∉ s.handles
  resumes : ∀ x ∈ s.sleepers, ∃ id, x.resume = .resume id
  sleepers : ∀ x ∈ s.sleepers, x.id < s.nextSleeper

/-- Whether a sleep of a strand will end: its timer is pending, and is that of nothing else; or it has ended, and
the strand is about to be taken up. -/
def Sleeping (s : Scheduler Firing Job) (i id : Nat) : Prop :=
  ∃ x, (s.sleepers.find? fun y => y.id == i) = some x ∧ x.resume = .resume id ∧
    (x.outcome = none ∧ (x.timer, .elapse i) ∈ s.loop.entries ∧ x.timer ∉ s.registered ∧
        (∀ y ∈ s.sleepers, y.timer = x.timer → y.id = i) ∨
      x.outcome.isSome = true ∧ 0 < s.loop.pending (.resume id))

/-- A change by which no job that somebody waits for is lost. -/
structure Heeds (s s' : Scheduler Firing Job) : Prop where
  sound : s.Sound → s'.Sound
  waits : s.Sound → ∀ j : Job, j.plain = true → s.loop.pending j ≤ s'.loop.pending j
  sleeps : s.Sound → ∀ i id, s.Sleeping i id → s'.Sleeping i id

/-- Such a change that adds no job for tasks that are done. -/
structure Spares (s s' : Scheduler Firing Job) : Prop extends s.Heeds s' where
  gathers : s.Sound → ∀ g m, s'.loop.pending (.gather g m) = s.loop.pending (.gather g m)

variable {s s' s'' : Scheduler Firing Job}

theorem Sound.initial (shortest : Float) : Sound { minInterval := shortest } :=
  ⟨fun _ hx => (nomatch hx), fun _ hx => (nomatch hx), fun _ hx => (nomatch hx), fun _ hx => (nomatch hx),
    fun _ hx => (nomatch hx)⟩

/-- A scheduler that has the same jobs, or fewer, and no other timers. -/
theorem Sound.of_subset (h : s.Sound) (hentries : ∀ x ∈ s'.loop.entries, x ∈ s.loop.entries)
    (hid : s'.loop.nextId = s.loop.nextId) (hhandles : ∀ h ∈ s'.handles, h ∈ s.handles)
    (hnext : s'.nextSleeper = s.nextSleeper)
    (hsleepers : ∀ x ∈ s'.sleepers, ∃ y ∈ s.sleepers, x.resume = y.resume ∧ x.id = y.id) : s'.Sound := by
  refine ⟨fun x hx => ?_, fun i hi => ?_, fun x hx hplain hin => ?_, fun x hx => ?_, fun x hx => ?_⟩
  · rw [hid]
    exact h.known x (hentries x hx)
  · rw [hid]
    exact h.handles i (hhandles i hi)
  · exact h.plain x (hentries x hx) hplain (hhandles _ hin)
  · obtain ⟨y, hy, heq, -⟩ := hsleepers x hx
    rw [heq]
    exact h.resumes y hy
  · obtain ⟨y, hy, -, heq⟩ := hsleepers x hx
    rw [heq, hnext]
    exact h.sleepers y hy

/-- A job is added. -/
theorem Sound.soon (h : s.Sound) (j : Job) : Sound { s with loop := s.loop.soon j } := by
  have hmem : ∀ x ∈ (s.loop.soon j).entries, x = (s.loop.nextId, j) ∨ x ∈ s.loop.entries :=
    fun x hx => List.mem_cons.mp ((Loop.entries_soon s.loop j).subset hx)
  refine ⟨fun x hx => ?_, fun i hi => Nat.lt_succ_of_lt (h.handles i hi), fun x hx hplain hin => ?_, h.resumes,
    h.sleepers⟩
  · rcases hmem x hx with rfl | hx
    · exact Nat.lt_succ_self _
    · exact Nat.lt_succ_of_lt (h.known x hx)
  · rcases hmem x hx with rfl | hx
    · exact absurd (h.handles _ hin) (Nat.lt_irrefl _)
    · exact h.plain x hx hplain hin

/-- A job is taken from the loop. -/
theorem Sound.takes (h : s.Sound) {j : Job} {loop : Loop Job} (ht : s.loop.Takes j loop) :
    Sound { s with loop := loop } := by
  obtain ⟨⟨id, hperm⟩, hid⟩ := ht
  exact h.of_subset (fun x hx => hperm.symm.subset (List.mem_cons_of_mem _ hx)) hid (fun _ hi => hi) rfl
    fun x hx => ⟨x, hx, rfl, rfl⟩

/-- A sleep goes on when jobs are added, and no timers for its id. -/
theorem Sleeping.mono {i id : Nat} (h : s.Sleeping i id) (hs : s'.sleepers = s.sleepers)
    (hr : ∀ x ∈ s.sleepers, x.timer ∈ s'.registered → x.timer ∈ s.registered)
    (hentries : ∀ x ∈ s.loop.entries, x.2.plain = false → x.1 ∉ s.registered → x ∈ s'.loop.entries)
    (hpending : s.loop.pending (.resume id) ≤ s'.loop.pending (.resume id)) : s'.Sleeping i id := by
  obtain ⟨x, hx, hresume, ⟨hout, hin, hnot, honly⟩ | ⟨hout, hpos⟩⟩ := h
  · refine ⟨x, hs ▸ hx, hresume, .inl ⟨hout, hentries _ hin rfl hnot, fun hreg => ?_, hs ▸ honly⟩⟩
    exact hnot (hr x (List.mem_of_find?_eq_some hx) hreg)
  · exact ⟨x, hs ▸ hx, hresume, .inr ⟨hout, Nat.lt_of_lt_of_le hpos hpending⟩⟩

/-- A job is taken from the loop that does not end the sleep, or comes too early for its strand. -/
theorem Sleeping.takes {i id : Nat} (h : s.Sleeping i id) {j : Job} {loop : Loop Job} (ht : s.loop.Takes j loop)
    (helapse : j ≠ .elapse i) (hresume : j = .resume id → s.hasEnded i = false) :
    Sleeping { s with loop := loop } i id := by
  have hpending := Loop.pending_of_takes ht (.resume id)
  obtain ⟨⟨n, hperm⟩, -⟩ := ht
  obtain ⟨x, hx, hres, ⟨hout, hin, hrest⟩ | ⟨hout, hpos⟩⟩ := h
  · refine ⟨x, hx, hres, .inl ⟨hout, ?_, hrest⟩⟩
    rcases List.mem_cons.mp (hperm.subset hin) with heq | hin
    · exact absurd (Prod.mk.inj heq).2.symm helapse
    · exact hin
  · have hne : j ≠ .resume id := by
      intro heq
      have hended := hresume heq
      rw [hasEnded, hx, Option.any_some, hout] at hended
      cases hended
    rw [if_neg hne, Nat.add_zero] at hpending
    exact ⟨x, hx, hres, .inr ⟨hout, hpending ▸ hpos⟩⟩

namespace Heeds

theorem refl (s : Scheduler Firing Job) : s.Heeds s := ⟨id, fun _ _ _ => Nat.le_refl _, fun _ _ _ => id⟩

theorem trans (h : s.Heeds s') (h' : s'.Heeds s'') : s.Heeds s'' :=
  ⟨fun hs => h'.sound (h.sound hs), fun hs j hj => Nat.le_trans (h.waits hs j hj) (h'.waits (h.sound hs) j hj),
    fun hs i id hsleep => h'.sleeps (h.sound hs) i id (h.sleeps hs i id hsleep)⟩

/-- A job is added. -/
theorem soon (s : Scheduler Firing Job) (j : Job) : s.Heeds { s with loop := s.loop.soon j } := by
  have hpending : ∀ i, s.loop.pending i ≤ (s.loop.soon j).pending i := by
    intro i
    rw [Loop.pending_soon]
    exact Nat.le_add_right _ _
  refine ⟨fun h => h.soon j, fun _ i _ => hpending i, fun _ i id hsleep => ?_⟩
  refine hsleep.mono rfl (fun _ _ h => h) (fun x hx _ _ => ?_) (hpending _)
  exact (Loop.entries_soon s.loop j).symm.subset (List.mem_cons_of_mem _ hx)

end Heeds

namespace Spares

theorem refl (s : Scheduler Firing Job) : s.Spares s := ⟨.refl s, fun _ _ _ => rfl⟩

theorem trans (h : s.Spares s') (h' : s'.Spares s'') : s.Spares s'' := by
  refine ⟨h.toHeeds.trans h'.toHeeds, fun hs g m => ?_⟩
  rw [h'.gathers (h.sound hs), h.gathers hs]

/-- A change of registrations in which no timers are added. -/
theorem of_registered (hl : s'.loop = s.loop) (hr : ∀ h ∈ s'.registered, h ∈ s.registered)
    (hs : s'.sleepers = s.sleepers) (hn : s'.nextSleeper = s.nextSleeper) : s.Spares s' := by
  refine ⟨⟨fun h => h.of_subset ?_ ?_ (fun i hi => ?_) hn fun x hx => ⟨x, hs ▸ hx, rfl, rfl⟩, fun _ j _ => ?_,
    fun _ i id hsleep => hsleep.mono hs (fun _ _ hin => hr _ hin) (fun x hx _ _ => ?_) ?_⟩, fun _ g m => ?_⟩
  · rw [hl]
    exact fun x hx => hx
  · rw [hl]
  · rcases List.mem_append.mp hi with hi | hi
    · exact List.mem_append_left _ (hr i hi)
    · exact List.mem_append_right _ (hs ▸ hi)
  · exact Nat.le_of_eq (by rw [hl])
  · rw [hl]
    exact hx
  · exact Nat.le_of_eq (by rw [hl])
  · rw [hl]

theorem of_eq (hl : s'.loop = s.loop) (hr : s'.registrations = s.registrations) (hs : s'.sleepers = s.sleepers)
    (hn : s'.nextSleeper = s.nextSleeper) : s.Spares s' := by
  refine of_registered hl (fun h hin => ?_) hs hn
  rwa [registered, hr] at hin

theorem foldl {γ : Type} {f : Scheduler Firing Job → γ → Scheduler Firing Job}
    (hf : ∀ s a, Spares s (f s a)) (l : List γ) (s : Scheduler Firing Job) : s.Spares (l.foldl f s) := by
  induction l generalizing s with
  | nil => exact .refl s
  | cons a rest ih => exact (hf s a).trans (ih (f s a))

/-! ## Jobs and timers -/

/-- A job is added that is none for tasks that are done. -/
theorem soon (s : Scheduler Firing Job) {j : Job} (hj : ∀ g m, j ≠ .gather g m) :
    s.Spares { s with loop := s.loop.soon j } := by
  refine ⟨.soon s j, fun h g m => ?_⟩
  rw [Loop.pending_soon, if_neg (hj g m), Nat.add_zero]

/-- A timer is added, whose id may become that of a registration, or of a new sleeper. -/
theorem addTimer (due : Option Int) (news : List (Sleeper Job)) {j : Job} (hj : j.plain = false)
    (hl : s'.loop = (s.loop.addTimer due j).2) (hr : ∀ h ∈ s'.registered, h ∈ s.registered ∨ h = s.loop.nextId)
    (hs : s'.sleepers = s.sleepers ++ news)
    (hnews : ∀ x ∈ news, x.timer = s.loop.nextId ∧ (∃ id, x.resume = .resume id) ∧ x.id < s'.nextSleeper)
    (hn : s.nextSleeper ≤ s'.nextSleeper) : s.Spares s' := by
  have hne : ∀ i : Job, i.plain = true → j ≠ i := by
    rintro i hi rfl
    rw [hj] at hi
    cases hi
  have hpending : ∀ i : Job, i.plain = true → s'.loop.pending i = s.loop.pending i := by
    intro i hi
    rw [hl, Loop.pending_addTimer, if_neg (hne i hi), Nat.add_zero]
  have hhandles : ∀ h ∈ s'.handles, h ∈ s.handles ∨ h = s.loop.nextId := by
    intro h hin
    rcases List.mem_append.mp hin with hin | hin
    · exact (hr h hin).imp_left (List.mem_append_left _)
    · obtain ⟨x, hx, rfl⟩ := List.mem_map.mp hin
      rw [hs] at hx
      rcases List.mem_append.mp hx with hx | hx
      · exact .inl (List.mem_append_right _ (List.mem_map_of_mem hx))
      · exact .inr (hnews x hx).1
  -- the handle of the new timer is its own, and its job is none of the plain ones
  refine ⟨⟨fun h => ⟨fun x hx => ?_, fun i hi => ?_, fun x hx hplain hin => ?_, fun x hx => ?_, fun x hx => ?_⟩,
    fun _ i hi => Nat.le_of_eq (hpending i hi).symm, fun h i id hsleep => ?_⟩, fun _ g m => hpending _ rfl⟩
  · rw [hl, Loop.entries_addTimer, List.mem_append, List.mem_singleton] at hx
    rw [hl]
    rcases hx with hx | rfl
    · exact Nat.lt_succ_of_lt (h.known x hx)
    · exact Nat.lt_succ_self _
  · rw [hl]
    rcases hhandles i hi with hold | rfl
    · exact Nat.lt_succ_of_lt (h.handles i hold)
    · exact Nat.lt_succ_self _
  · rw [hl, Loop.entries_addTimer, List.mem_append, List.mem_singleton] at hx
    rcases hx with hx | rfl
    · rcases hhandles _ hin with hold | heq
      · exact h.plain x hx hplain hold
      · exact absurd heq (Nat.ne_of_lt (h.known x hx))
    · rw [hj] at hplain
      cases hplain
  · rw [hs] at hx
    rcases List.mem_append.mp hx with hx | hx
    · exact h.resumes x hx
    · exact (hnews x hx).2.1
  · rw [hs] at hx
    rcases List.mem_append.mp hx with hx | hx
    · exact Nat.lt_of_lt_of_le (h.sleepers x hx) hn
    · exact (hnews x hx).2.2
  · -- the timers of sleeps in progress are older
    have hold : ∀ x ∈ s.sleepers, x.timer ≠ s.loop.nextId := fun x hx =>
      Nat.ne_of_lt (h.handles _ (List.mem_append_right _ (List.mem_map_of_mem hx)))
    obtain ⟨x, hx, hresume, hstate⟩ := hsleep
    have hmem := List.mem_of_find?_eq_some hx
    refine ⟨x, ?_, hresume, ?_⟩
    · rw [hs, List.find?_append, hx]
      rfl
    · rcases hstate with ⟨hout, hin, hnot, honly⟩ | ⟨hout, hpos⟩
      · refine .inl ⟨hout, ?_, fun hreg => ?_, fun y hy heq => ?_⟩
        · rw [hl, Loop.entries_addTimer]
          exact List.mem_append_left _ hin
        · exact (hr _ hreg).elim hnot (hold x hmem)
        · rw [hs] at hy
          rcases List.mem_append.mp hy with hy | hy
          · exact honly y hy heq
          · exact absurd (heq.symm.trans (hnews y hy).1) (hold x hmem)
      · exact .inr ⟨hout, hpending (.resume id) rfl ▸ hpos⟩

/-- A timer is added that nothing cancels. -/
theorem plainTimer (s : Scheduler Firing Job) (due : Option Int) {j : Job} (hj : ∀ g m, j ≠ .gather g m) :
    s.Spares { s with loop := (s.loop.addTimer due j).2 } := by
  have hpending : ∀ i, s.loop.pending i ≤ (s.loop.addTimer due j).2.pending i := by
    intro i
    rw [Loop.pending_addTimer]
    exact Nat.le_add_right _ _
  refine ⟨⟨fun h => ⟨fun x hx => ?_, fun i hi => Nat.lt_succ_of_lt (h.handles i hi), fun x hx hplain hin => ?_,
    h.resumes, h.sleepers⟩, fun _ i _ => hpending i, fun _ i id hsleep => ?_⟩, fun h g m => ?_⟩
  · rw [Loop.entries_addTimer, List.mem_append, List.mem_singleton] at hx
    rcases hx with hx | rfl
    · exact Nat.lt_succ_of_lt (h.known x hx)
    · exact Nat.lt_succ_self _
  · rw [Loop.entries_addTimer, List.mem_append, List.mem_singleton] at hx
    rcases hx with hx | rfl
    · exact h.plain x hx hplain hin
    · exact absurd (h.handles _ hin) (Nat.lt_irrefl _)
  · refine hsleep.mono rfl (fun _ _ h => h) (fun x hx _ _ => ?_) (hpending _)
    rw [Loop.entries_addTimer]
    exact List.mem_append_left _ hx
  · rw [Loop.pending_addTimer, if_neg (hj g m), Nat.add_zero]

end Spares

/-- Jobs that somebody waits for are not those of timers. -/
theorem Sound.pending_cancel (hs : s.Sound) {h : Nat} (hh : h ∈ s.handles) {j : Job} (hj : j.plain = true) :
    (s.loop.cancel h).pending j = s.loop.pending j := by
  simp only [Loop.pending, Loop.entries_cancel, List.count_eq_countP, List.countP_map, List.countP_filter]
  refine List.countP_congr fun x hx => ?_
  simp only [Function.comp, Bool.and_eq_true, beq_iff_eq, bne_iff_ne, ne_eq, and_iff_left_iff_imp]
  rintro rfl heq
  exact hs.plain x hx hj (heq ▸ hh)

theorem Sound.cancelTimer (hs : s.Sound) (h : Nat) : Sound { s with loop := s.loop.cancel h } := by
  refine hs.of_subset (fun x hx => ?_) rfl (fun _ hi => hi) rfl fun x hx => ⟨x, hx, rfl, rfl⟩
  rw [Loop.entries_cancel] at hx
  exact List.mem_of_mem_filter hx

namespace Spares

/-- The timer of a registration is cancelled. -/
theorem cancelTimer (s : Scheduler Firing Job) {h : Nat} (hh : h ∈ s.registered) :
    s.Spares { s with loop := s.loop.cancel h } := by
  have hin : h ∈ s.handles := List.mem_append_left _ hh
  refine ⟨⟨fun hs => hs.cancelTimer h, fun hs j hj => Nat.le_of_eq (hs.pending_cancel hin hj).symm,
    fun hs i id hsleep => ?_⟩, fun hs g m => hs.pending_cancel hin rfl⟩
  refine hsleep.mono rfl (fun _ _ h => h) (fun x hx _ hnot => ?_) (Nat.le_of_eq (hs.pending_cancel hin rfl).symm)
  rw [Loop.entries_cancel]
  refine List.mem_filter.mpr ⟨hx, ?_⟩
  simp only [bne_iff_ne, ne_eq]
  rintro rfl
  exact hnot hh

/-! ## Registrations -/

theorem registered_modify (s : Scheduler Firing Job) (id : Nat) {f : Registration Firing → Registration Firing}
    (hf : ∀ r, (f r).handle = r.handle) : (s.modify id f).registered = s.registered := by
  simp only [registered, modify, List.filterMap_map]
  refine List.filterMap_congr fun r _ => ?_
  simp only [Function.comp]
  split
  · exact hf r
  · rfl

theorem modify (s : Scheduler Firing Job) (id : Nat) {f : Registration Firing → Registration Firing}
    (hf : ∀ r, (f r).handle = r.handle) : s.Spares (s.modify id f) :=
  .of_registered rfl (fun _ hin => registered_modify s id hf ▸ hin) rfl rfl

theorem forget (s : Scheduler Firing Job) (r : Registration Firing) : s.Spares (s.forget r).2 := by
  unfold Scheduler.forget
  dsimp only
  split
  · exact .of_eq rfl rfl rfl rfl
  · split <;> exact .of_eq rfl rfl rfl rfl

theorem cancel (s : Scheduler Firing Job) (id : Nat) : s.Spares (s.cancel id).2 := by
  unfold Scheduler.cancel
  split
  · exact .refl s
  · next r hr =>
    split
    · exact .refl s
    · refine trans (trans (modify s id (f := fun r => { r with cancelled := true }) fun _ => rfl) ?_) (forget _ r)
      split
      · next h hh =>
        refine cancelTimer _ ?_
        rw [registered_modify s id (f := fun r => { r with cancelled := true }) fun _ => rfl]
        exact List.mem_filterMap.mpr ⟨r, mem_of_find? hr, hh⟩
      · exact .refl _

theorem cancelEach (ids : List Nat) (s : Scheduler Firing Job) : s.Spares (s.cancelEach ids).2 := by
  induction ids generalizing s with
  | nil => exact .refl s
  | cons id rest ih =>
    rw [cancelEach_cons]
    split
    · exact (cancel s id).trans (ih _)
    · exact cancel s id

theorem cancelOwner (s : Scheduler Firing Job) (owner : String) : s.Spares (s.cancelOwner owner).2 := by
  rw [cancelOwner_eq]
  exact cancelEach _ s

theorem cancelOwners (owners : List String) (count : Nat) (s : Scheduler Firing Job) :
    s.Spares (s.cancelOwners count owners).2 := by
  induction owners generalizing s count with
  | nil => exact .refl s
  | cons owner rest ih =>
    rw [cancelOwners_cons]
    split
    · exact (cancelOwner s owner).trans (ih _ _)
    · exact cancelOwner s owner

theorem arm {id : Nat} {time : Float} {job : Job} (hj : job.plain = false) (h : s.arm id time job = .ok s') :
    s.Spares s' := by
  obtain ⟨due, rfl⟩ := arm_eq_ok h
  refine addTimer due [] hj rfl (fun i hi => ?_) (List.append_nil _).symm
    (fun _ hx => absurd hx List.not_mem_nil) (Nat.le_refl _)
  obtain ⟨r, hr, hh⟩ := List.mem_filterMap.mp hi
  obtain ⟨r', hr', rfl⟩ := List.mem_map.mp hr
  split at hh
  · exact .inr (Option.some.inj hh).symm
  · exact .inl (List.mem_filterMap.mpr ⟨r', hr', hh⟩)

theorem armAfter {id : Nat} {delay : Except Fault Value} {job : Job} (hj : job.plain = false)
    (h : s.armAfter id delay job = .ok s') : s.Spares s' := by
  obtain ⟨time, harm⟩ := armAfter_eq_ok h
  exact arm hj harm

theorem rearm (s : Scheduler Firing Job) (r : Registration Firing) : s.Spares (s.rearm r .fire) := by
  unfold Scheduler.rearm
  split
  · dsimp only
    split
    · next h => exact (arm rfl h).trans (modify _ _ fun _ => rfl)
    · exact .refl s
  · exact .refl s

theorem track (s : Scheduler Firing Job) {r : Registration Firing} (hr : r.handle = none) :
    s.Spares (s.track r).2 := by
  refine .of_registered rfl (fun h hin => ?_) rfl rfl
  simpa [registered, Scheduler.track, hr] using hin

theorem callLater (s : Scheduler Firing Job) (owner : String) (delay : Value) (callback : Firing) :
    s.Spares (s.callLater .fire owner delay callback).2 := by
  have ht := track s (r := { id := 0, owner := owner, kind := .timer, callback := callback }) rfl
  unfold Scheduler.callLater
  dsimp only
  split
  · next harm => exact ht.trans (armAfter rfl harm)
  · exact ht

theorem every (s : Scheduler Firing Job) (owner : String) (interval : Value) (callback : Firing) :
    s.Spares (s.every .fire owner interval callback).2 := by
  unfold Scheduler.every
  split
  · exact .refl s
  · next period _ =>
    have ht := track s
      (r := { id := 0, owner := owner, kind := .interval, callback := callback, interval := some period }) rfl
    dsimp only
    split
    · next harm => exact ht.trans (armAfter rfl harm)
    · exact ht

theorem listen (s : Scheduler Firing Job) (owner : String) (event : Value) (callback : Firing) :
    s.Spares (s.listen owner event callback).2 := by
  have ht := track s (r := { id := 0, owner := owner, kind := .listener, callback := callback, event := event }) rfl
  unfold Scheduler.listen
  dsimp only
  split
  · exact ht.trans (.of_eq rfl rfl rfl rfl)
  · exact ht

/-! ## Sleeps -/

theorem sleep {seconds : Value} {strand id : Nat}
    (h : s.sleep seconds .elapse (fun _ => .resume strand) = .ok (id, s')) : s.Spares s' := by
  obtain ⟨-, due, rfl⟩ := sleep_eq_ok h
  refine addTimer _ _ rfl rfl (fun i hi => .inl hi) rfl (fun x hx => ?_) (Nat.le_succ _)
  rw [List.mem_singleton.mp hx]
  exact ⟨rfl, ⟨strand, rfl⟩, Nat.lt_succ_self _⟩

end Spares

/-- A sleep that begins will end. -/
theorem Sound.sleeping_sleep (hs : s.Sound) {seconds : Value} {strand id : Nat}
    (h : s.sleep seconds .elapse (fun _ => .resume strand) = .ok (id, s')) : s'.Sleeping id strand := by
  obtain ⟨rfl, due, rfl⟩ := sleep_eq_ok h
  have hnone : (s.sleepers.find? fun y => y.id == s.nextSleeper) = none :=
    List.find?_eq_none.mpr fun x hx => by simpa using Nat.ne_of_lt (hs.sleepers x hx)
  refine ⟨{ id := s.nextSleeper, timer := s.loop.nextId, resume := .resume strand }, ?_, rfl,
    .inl ⟨rfl, ?_, fun hreg => ?_, fun y hy heq => ?_⟩⟩
  · rw [List.find?_append, hnone]
    simp [Loop.addTimer]
  · rw [Loop.entries_addTimer]
    exact List.mem_append_right _ (List.mem_singleton.mpr rfl)
  · exact absurd (hs.handles _ (List.mem_append_left _ hreg)) (Nat.lt_irrefl _)
  · rcases List.mem_append.mp hy with hy | hy
    · have hlt := hs.handles _ (List.mem_append_right _ (List.mem_map_of_mem hy))
      exact absurd heq (Nat.ne_of_lt hlt)
    · rw [List.mem_singleton.mp hy]

/-- A sleep is marked as ended. -/
def mark (s : Scheduler Firing Job) (i : Nat) (outcome : Bool) : List (Sleeper Job) :=
  s.sleepers.map fun y => if y.id == i then { y with outcome := some outcome } else y

theorem mem_mark {i : Nat} {outcome : Bool} {y : Sleeper Job} (h : y ∈ s.mark i outcome) :
    ∃ z ∈ s.sleepers, y.resume = z.resume ∧ y.id = z.id ∧ y.timer = z.timer := by
  obtain ⟨z, hz, rfl⟩ := List.mem_map.mp h
  refine ⟨z, hz, ?_⟩
  split <;> exact ⟨rfl, rfl, rfl⟩

theorem find?_mark (s : Scheduler Firing Job) (i : Nat) (outcome : Bool) (k : Nat) :
    ((s.mark i outcome).find? fun y => y.id == k) = (s.sleepers.find? fun y => y.id == k).map fun y =>
      if y.id == i then { y with outcome := some outcome } else y := by
  rw [mark, List.find?_map]
  congr 2
  funext y
  simp only [Function.comp]
  split <;> rfl

theorem settle_eq {i : Nat} {x : Sleeper Job} (hx : (s.sleepers.find? fun y => y.id == i) = some x)
    (hout : x.outcome = none) (outcome : Bool) :
    s.settle i outcome = { s with loop := s.loop.soon x.resume, sleepers := s.mark i outcome } := by
  simp only [settle, hx, hout, Option.isSome_none, Bool.false_eq_true, if_false, mark]

/-- A sleep that has ended, and whose strand is about to be taken up. -/
theorem Sleeping.settle {i id : Nat} {x : Sleeper Job} (hx : (s.sleepers.find? fun y => y.id == i) = some x)
    (hresume : x.resume = .resume id) (hpos : x.outcome.isSome = true → 0 < s.loop.pending (.resume id))
    (outcome : Bool) : (s.settle i outcome).Sleeping i id := by
  cases hout : x.outcome with
  | some o =>
    rw [hout] at hpos
    have heq : s.settle i outcome = s := by simp only [Scheduler.settle, hx, hout, Option.isSome_some, if_true]
    rw [heq]
    exact ⟨x, hx, hresume, .inr ⟨by rw [hout]; rfl, hpos rfl⟩⟩
  | none =>
    rw [settle_eq hx hout]
    have hid : (x.id == i) = true := by simpa using List.find?_some hx
    refine ⟨{ x with outcome := some outcome }, ?_, hresume, .inr ⟨rfl, ?_⟩⟩
    · rw [find?_mark, hx, Option.map_some, if_pos hid]
    · rw [Loop.pending_soon, hresume, if_pos rfl]
      exact Nat.succ_pos _

namespace Spares

theorem settle (s : Scheduler Firing Job) (i : Nat) (outcome : Bool) : s.Spares (s.settle i outcome) := by
  cases hx : s.sleepers.find? fun y => y.id == i with
  | none =>
    have heq : s.settle i outcome = s := by simp only [Scheduler.settle, hx]
    rw [heq]
    exact .refl s
  | some x =>
    cases hout : x.outcome with
    | some o =>
      have heq : s.settle i outcome = s := by simp only [Scheduler.settle, hx, hout, Option.isSome_some, if_true]
      rw [heq]
      exact .refl s
    | none =>
      have hmem := List.mem_of_find?_eq_some hx
      refine ⟨⟨fun h => ?_, fun _ j _ => ?_, fun h k id hsleep => ?_⟩, fun h g m => ?_⟩
      · rw [settle_eq hx hout]
        refine (h.soon x.resume).of_subset (fun _ hin => hin) rfl (fun t hin => ?_) rfl fun y hy => ?_
        · rcases List.mem_append.mp hin with hin | hin
          · exact List.mem_append_left _ hin
          · obtain ⟨y, hy, rfl⟩ := List.mem_map.mp hin
            obtain ⟨z, hz, -, -, htimer⟩ := mem_mark hy
            exact List.mem_append_right _ (List.mem_map.mpr ⟨z, hz, htimer.symm⟩)
        · obtain ⟨z, hz, hresume, hid, -⟩ := mem_mark hy
          exact ⟨z, hz, hresume, hid⟩
      · rw [settle_eq hx hout, Loop.pending_soon]
        exact Nat.le_add_right _ _
      · by_cases hki : k = i
        · subst hki
          obtain ⟨y, hy, hresume, hstate⟩ := hsleep
          obtain rfl := Option.some.inj (hx.symm.trans hy)
          exact .settle hx hresume (fun hsome => by rw [hout] at hsome; cases hsome) outcome
        · rw [settle_eq hx hout]
          obtain ⟨y, hy, hresume, hstate⟩ := ((Heeds.soon s x.resume).sleeps h k id hsleep)
          have hid : y.id = k := by simpa using List.find?_some hy
          have hne : ¬(y.id == i) = true := by simpa [hid] using hki
          refine ⟨y, ?_, hresume, hstate.imp_left fun ⟨hnone, hin, hreg, honly⟩ =>
            ⟨hnone, hin, hreg, fun z hz heq => ?_⟩⟩
          · rw [find?_mark, show (s.sleepers.find? fun y => y.id == k) = some y from hy, Option.map_some, if_neg hne]
          · obtain ⟨w, hw, -, hwid, hwt⟩ := mem_mark hz
            rw [hwid]
            exact honly w hw (hwt.symm.trans heq)
      · obtain ⟨strand, hresume⟩ := h.resumes x hmem
        rw [settle_eq hx hout, Loop.pending_soon, hresume, if_neg nofun, Nat.add_zero]

theorem wakeAll (s : Scheduler Firing Job) : s.Spares s.wakeAll.2 :=
  .foldl (fun s (x : Sleeper Job) => settle s x.id false) _ s

end Spares

/-! ### The end of a sleep -/

/-- A sleep ends: no job is lost, and other sleeps go on. -/
structure Ends (s : Scheduler Firing Job) (i : Nat) (s' : Scheduler Firing Job) : Prop where
  sound : s.Sound → s'.Sound
  plain : s.Sound → ∀ j : Job, j.plain = true → s'.loop.pending j = s.loop.pending j
  sleeps : s.Sound → ∀ k id, k ≠ i → s.Sleeping k id → s'.Sleeping k id

theorem ends_endSleep (s : Scheduler Firing Job) (i : Nat) : s.Ends i (s.endSleep i).2 := by
  unfold Scheduler.endSleep
  split
  · exact ⟨id, fun _ _ _ => rfl, fun _ _ _ _ => id⟩
  · next x hx =>
    have hid : x.id = i := by simpa using List.find?_some hx
    have htimer : x.timer ∈ s.handles :=
      List.mem_append_right _ (List.mem_map_of_mem (List.mem_of_find?_eq_some hx))
    refine ⟨fun hs => ?_, fun hs j hj => hs.pending_cancel htimer hj, fun hs k id hki hsleep => ?_⟩
    · refine (hs.cancelTimer x.timer).of_subset (fun _ hin => hin) rfl (fun t hin => ?_) rfl
        fun y hy => ⟨y, List.mem_of_mem_filter hy, rfl, rfl⟩
      rcases List.mem_append.mp hin with hin | hin
      · exact List.mem_append_left _ hin
      · obtain ⟨y, hy, rfl⟩ := List.mem_map.mp hin
        exact List.mem_append_right _ (List.mem_map_of_mem (List.mem_of_mem_filter hy))
    · obtain ⟨y, hy, hresume, hstate⟩ := hsleep
      have hyk : y.id = k := by simpa using List.find?_some hy
      refine ⟨y, ?_, hresume, ?_⟩
      · rw [List.find?_filter, ← hy]
        congr 1
        funext z
        by_cases hz : z.id = k
        · simp [hz, hki]
        · simp [hz]
      · rcases hstate with ⟨hout, hin, hreg, honly⟩ | ⟨hout, hpos⟩
        · refine .inl ⟨hout, ?_, hreg, fun z hz heq => honly z (List.mem_of_mem_filter hz) heq⟩
          rw [Loop.entries_cancel]
          refine List.mem_filter.mpr ⟨hin, ?_⟩
          simp only [bne_iff_ne, ne_eq]
          intro heq
          have hxk := honly x (List.mem_of_find?_eq_some hx) heq.symm
          exact hki (hxk.symm.trans hid)
        · exact .inr ⟨hout, (hs.pending_cancel htimer (j := .resume id) rfl).symm ▸ hpos⟩

/-! ## Strands -/

/-- Whether a strand that waits for its turn or for a sleep will be taken up. -/
def Rouses (s : Scheduler Firing Job) (x : Strand × Parked) : Prop :=
  match x.2 with
  | .turn _ => 0 < s.loop.pending (.resume x.1.id) ∨ 0 < s.loop.pending (.timeout x.1.id)
  | .sleep i => s.Sleeping i x.1.id
  | _ => True

theorem Heeds.rouses (h : s.Heeds s') (hs : s.Sound) {x : Strand × Parked} (hx : s.Rouses x) : s'.Rouses x := by
  obtain ⟨y, p⟩ := x
  cases p with
  | turn sig =>
    exact Or.imp (fun hpos => Nat.lt_of_lt_of_le hpos (h.waits hs _ rfl))
      (fun hpos => Nat.lt_of_lt_of_le hpos (h.waits hs _ rfl)) hx
  | sleep i => exact h.sleeps hs i y.id hx
  | task | gather => trivial

end Scheduler

end Patchbay
