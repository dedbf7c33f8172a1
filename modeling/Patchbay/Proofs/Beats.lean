import Patchbay.Proofs.Gatherings
import Patchbay.Proofs.Hearing
import Patchbay.Proofs.Histories

/-!
# Beats

A session goes on beat by beat: a strand has a turn, or the loop runs a job that is pending, or a request comes
in. In every state that it comes to, strands and tasks have ids of their own.

Contents:
* `Beat`: a step in which the loop takes a job that is pending.
* `Staffed`: strands and tasks have ids of their own, and gathers are told of what they wait for only.
* `Unheard`: a step in which a gather is told of nothing.

Results:
* `staffed_run`: the invariant holds in every state of a session.
* `Beat.track`, `Beat.absent`: what becomes of a strand, and that none comes in its place.
* `Beat.unheard`: what becomes of a gather.
-/

namespace Patchbay

/-- An engine with another state of its loop. -/
def Engine.withLoop (e : Engine) (loop : Loop Job) : Engine :=
  { e with scheduler := { e.scheduler with loop := loop } }

theorem Engine.hasCome_withLoop (e : Engine) (loop : Loop Job) (p : Parked) :
    (e.withLoop loop).hasCome p = e.hasCome p := by
  cases p <;> rfl

/-- One step of an engine, in which the loop takes a job that is pending. -/
inductive Beat : Engine.Turn → Engine.Turn → Prop
  /-- the strand that is under way has a turn -/
  | turn {t : Engine.Turn} {s : Strand} {sig : Signal} (h : t.next = some (s, sig)) :
      Beat t (t.engine.turn s sig)
  /-- the loop runs a job that is pending -/
  | job {t : Engine.Turn} (h : t.next = none) {loop : Loop Job} {j : Job}
      (ht : t.engine.scheduler.loop.Takes j loop) :
      Beat t ((t.engine.withLoop loop).handle j)
  /-- a request comes in -/
  | request {t : Engine.Turn} (h : t.next = none) (r : Request) :
      Beat t ({ t.engine with nextStrand := t.engine.nextStrand + 1 }.go
        { id := t.engine.nextStrand, frames := [.session] } (.call (.request r)))

theorem Beat.play {t t' : Engine.Turn} (h : Beat t t') : Play t t' := by
  cases h with
  | turn hn => exact .turn hn
  | job hn _ => exact .job hn _ _
  | request hn r => exact .request hn r

/-- What a session takes is such a step. -/
theorem Beat.of_advance {t t' : Engine.Turn} (h : Engine.advance t = some t') : Beat t t' := by
  unfold Engine.advance at h
  split at h
  · next hn =>
    obtain rfl := Option.some.inj h
    exact .turn hn
  · next hn =>
    split at h
    · cases h
    · split at h
      · cases h
      · next hnext =>
        obtain rfl := Option.some.inj h
        exact .job hn (Loop.takes_next? hnext)

/-! ## The invariant -/

/-- Whether tasks and gathers are known, and nobody is told of what is not. -/
structure Engine.Enrolled (e : Engine) : Prop where
  tasks : ∀ w ∈ e.tasks, w.id < e.nextStrand
  gathers : ∀ x ∈ e.gathers, x.id < e.gathers.length
  strays : ∀ g m, e.gathers.length ≤ g → e.owes g m = 0 ∧ e.tells g m = 0
  sound : e.scheduler.Sound

/-- Whether strands have ids of their own, and those of their tasks. -/
structure Staffed (t : Engine.Turn) : Prop where
  ids : (t.population.map fun x => x.1.id).Nodup
  known : ∀ x ∈ t.population, x.1.id < t.engine.nextStrand
  homes : ∀ x ∈ t.population, ∀ k, .task k ∈ x.1.frames → k = x.1.id
  enrolled : t.engine.Enrolled

namespace Engine.Enrolled

variable {e e' : Engine}

theorem attends (h : e.Enrolled) {k : Option Nat} (ha : e.Attends e' k) : e'.Enrolled := by
  obtain ⟨news, heq, hnews⟩ := ha.gathers
  have hlen : e.gathers.length ≤ e'.gathers.length := by simp [heq]
  refine ⟨ha.tasks h.tasks, fun x hx => ?_, fun g m hg => ?_, ha.sound h.sound⟩
  · rw [heq] at hx
    rcases List.mem_append.mp hx with hx | hx
    · exact (h.gathers x hx).trans_le hlen
    · exact (hnews x hx).2
  · have htotal := ha.total h.sound g m (.inr hg)
    obtain ⟨howes, htells⟩ := h.strays g m (hlen.trans hg)
    omega

/-- A job is taken from the loop. -/
theorem takes (h : e.Enrolled) {j : Job} {loop : Loop Job} (ht : e.scheduler.loop.Takes j loop) :
    (e.withLoop loop).Enrolled := by
  refine ⟨h.tasks, h.gathers, fun g m hg => ⟨(h.strays g m hg).1, ?_⟩, h.sound.takes ht⟩
  have hpending := Loop.pending_of_takes ht (.gather g m)
  have hnone : e.scheduler.loop.pending (.gather g m) = 0 := (h.strays g m hg).2
  show loop.pending _ = 0
  omega

/-- A gather hears of a task. -/
theorem hears (h : e.Enrolled) (hh : e.Hears e') : e'.Enrolled := by
  have hlen : e'.gathers.length = e.gathers.length := by
    rw [← List.length_map (f := Gather.id), hh.gathers, List.length_map]
  refine ⟨?_, fun x hx => ?_, fun g m hg => ?_, hh.scheduler.sound h.sound⟩
  · rw [hh.tasks, hh.nextStrand]
    exact h.tasks
  · have hid : x.id ∈ e.gathers.map Gather.id := hh.gathers ▸ List.mem_map_of_mem hx
    obtain ⟨y, hy, heq⟩ := List.mem_map.mp hid
    rw [hlen, ← heq]
    exact h.gathers y hy
  · rw [(hh.minds g m).owes, (hh.minds g m).tells]
    exact h.strays g m (hlen ▸ hg)

end Engine.Enrolled

namespace Staffed

variable {t t' : Engine.Turn}

theorem mem_population {x : Strand × Parked} (hx : x ∈ t.engine.strands) : x ∈ t.population :=
  List.mem_append_right _ hx

/-- New strands, with new ids, and at most one in the place of that which had a turn. -/
theorem of_news (h : Staffed t) (own news : List (Strand × Parked))
    (hpop : t'.population = own ++ (news ++ t.engine.strands))
    (hle : t.engine.nextStrand ≤ t'.engine.nextStrand)
    (hown : ((own ++ t.engine.strands).map fun x => x.1.id).Nodup)
    (hids : ∀ x ∈ own, x.1.id < t.engine.nextStrand ∧ ∀ k, .task k ∈ x.1.frames → k = x.1.id)
    (hnodup : (news.map fun x => x.1.id).Nodup)
    (hnews : ∀ x ∈ news, Newcomer x ∧ t.engine.nextStrand ≤ x.1.id ∧ x.1.id < t'.engine.nextStrand)
    (henrolled : t'.engine.Enrolled) : Staffed t' := by
  have hlt : ∀ x ∈ own ++ t.engine.strands, x.1.id < t.engine.nextStrand := by
    intro x hx
    rcases List.mem_append.mp hx with hx | hx
    · exact (hids x hx).1
    · exact h.known x (mem_population hx)
  have hperm : t'.population.Perm (news ++ (own ++ t.engine.strands)) := by
    rw [hpop, ← List.append_assoc, ← List.append_assoc]
    exact List.perm_append_comm.append_right _
  refine ⟨?_, fun x hx => ?_, fun x hx => ?_, henrolled⟩
  · rw [(hperm.map _).nodup_iff]
    exact Engine.Hires.nodup_append hown hnodup hlt fun x hx => (hnews x hx).2.1
  · rcases List.mem_append.mp (hperm.subset hx) with hx | hx
    · exact (hnews x hx).2.2
    · exact (hlt x hx).trans_le hle
  · rcases List.mem_append.mp (hperm.subset hx) with hx | hx
    · intro k hk
      rw [(hnews x hx).1.frames, List.mem_singleton] at hk
      exact Frame.task.inj hk
    · rcases List.mem_append.mp hx with hx | hx
      · exact (hids x hx).2
      · exact h.homes x (mem_population hx)

theorem turn (h : Staffed t) {s : Strand} {sig : Signal} (hn : t.next = some (s, sig)) :
    Staffed (t.engine.turn s sig) := by
  have hp := turn_passes t.engine s sig
  have hmem := Engine.Turn.mem_population_of_next hn
  obtain ⟨own, news, hpop, hnodup, hnews, hown, -⟩ := hp.population
  have hid : ∀ x ∈ own.toList, x.1.id = s.id := by
    intro x hx
    rcases hown x (Option.mem_toList.mp hx) with hheir | ⟨-, hid, -⟩
    · exact hheir.id
    · exact hid
  refine h.of_news _ _ hpop hp.attends.nextStrand ?_ (fun x hx => ⟨?_, fun k hk => ?_⟩) hnodup hnews
    (h.enrolled.attends hp.attends)
  · have hids := h.ids
    rw [Engine.Turn.population_of_next hn] at hids
    cases own with
    | none => exact (List.nodup_cons.mp hids).2
    | some x => simpa [hid x (by simp)] using hids
  · rw [hid x hx]
    exact h.known _ hmem
  · rw [hid x hx]
    rcases hown x (Option.mem_toList.mp hx) with hheir | ⟨-, -, hf, -⟩
    · obtain ⟨pushed, hf, hpushed⟩ := hheir.frames
      rw [hf] at hk
      refine h.homes _ hmem k ?_
      rcases List.mem_append.mp hk with hk | hk
      · exact absurd hk (hpushed k)
      · cases sig with
        | call c => exact hk
        | back r => exact List.mem_of_mem_tail hk
        | raise err => exact List.mem_of_mem_tail hk
    · rw [hf] at hk
      cases List.mem_singleton.mp hk

/-- A strand is taken up. -/
theorem resume (h : Staffed t) (hn : t.next = none) {e : Engine} (henrolled : e.Enrolled)
    (he : e.strands = t.engine.strands) (hnext : e.nextStrand = t.engine.nextStrand) (id : Nat) :
    Staffed (e.handle (.resume id)) := by
  have hpop : t.population = e.strands := (population_of_none hn).trans he.symm
  have ha := e.handle_attends (j := .resume id) fun _ _ h => by cases h
  have hids := hpop ▸ h.ids
  rcases handle_resume e id with heq | ⟨s, p, e₁, e', hfind, -, heq, -, hstrands, -⟩
  · rw [heq]
    refine ⟨hids, fun x hx => ?_, fun x hx => h.homes x (hpop ▸ hx), henrolled⟩
    rw [show (Engine.Turn.engine ⟨e, none⟩).nextStrand = _ from hnext]
    exact h.known x (hpop ▸ hx)
  · have hmem : (s, p) ∈ t.population := hpop ▸ List.mem_of_find?_eq_some hfind
    have hid : s.id = id := by simpa using List.find?_some hfind
    rw [heq] at ha ⊢
    have hpop' : (e'.go s (e₁.unpark p).1).population =
        (s, .turn (e₁.unpark p).1) :: e.strands.filter fun x => x.1.id != id := by
      simp [Engine.Turn.population, Engine.go, hstrands]
    have hle : t.engine.nextStrand ≤ (e'.go s (e₁.unpark p).1).engine.nextStrand :=
      hnext.ge.trans ha.nextStrand
    have hcases : ∀ x ∈ (e'.go s (e₁.unpark p).1).population, ∃ y ∈ t.population, x.1 = y.1 := by
      intro x hx
      rw [hpop'] at hx
      rcases List.mem_cons.mp hx with rfl | hx
      · exact ⟨_, hmem, rfl⟩
      · exact ⟨x, hpop ▸ List.mem_of_mem_filter hx, rfl⟩
    refine ⟨?_, fun x hx => ?_, fun x hx => ?_, henrolled.attends ha⟩
    · rw [hpop', List.map_cons, List.nodup_cons]
      refine ⟨fun hin => ?_, hids.sublist (List.filter_sublist.map _)⟩
      obtain ⟨y, hy, heq⟩ := List.mem_map.mp hin
      have hne : y.1.id ≠ id := by simpa using List.of_mem_filter hy
      exact hne (heq.trans hid)
    · obtain ⟨y, hy, heq⟩ := hcases x hx
      rw [heq]
      exact (h.known y hy).trans_le hle
    · obtain ⟨y, hy, heq⟩ := hcases x hx
      rw [heq]
      exact h.homes y hy

/-- The loop runs a job. -/
theorem job (h : Staffed t) (hn : t.next = none) {loop : Loop Job} {j : Job}
    (ht : t.engine.scheduler.loop.Takes j loop) :
    Staffed ((t.engine.withLoop loop).handle j) := by
  have henrolled := h.enrolled.takes ht
  have hids := h.ids
  rw [population_of_none hn] at hids
  rcases j.sorts with ⟨id, rfl⟩ | ⟨g, m, rfl⟩ | ⟨hresume, hgather⟩
  · exact h.resume hn henrolled rfl rfl id
  · have hh := Engine.gatherDone_hears (t.engine.withLoop loop) g m
    exact h.of_news [] [] hh.strands hh.nextStrand.ge hids (fun _ hx => (nomatch hx))
      List.nodup_nil (fun _ hx => (nomatch hx)) (henrolled.hears hh)
  · obtain ⟨hh, hnext⟩ := Engine.handle_hires (t.engine.withLoop loop) hresume hgather
    obtain ⟨news, hstrands, hnodup, hnews, -⟩ := hh.strands
    refine h.of_news [] news ?_ hh.nextStrand hids (fun _ hx => (nomatch hx)) hnodup hnews
      (henrolled.attends (.of_hires (k := none) hh))
    rw [population_of_none hnext]
    exact hstrands

/-- A request comes in. -/
theorem request (h : Staffed t) (hn : t.next = none) (r : Request) :
    Staffed ({ t.engine with nextStrand := t.engine.nextStrand + 1 }.go
      { id := t.engine.nextStrand, frames := [.session] } (.call (.request r))) := by
  have hpop := population_of_none hn
  have henrolled := h.enrolled
  refine ⟨List.nodup_cons.mpr ⟨fun hin => ?_, hpop ▸ h.ids⟩, fun x hx => ?_, fun x hx k hk => ?_,
    ⟨fun w hw => Nat.lt_succ_of_lt (henrolled.tasks w hw), henrolled.gathers, henrolled.strays, henrolled.sound⟩⟩
  · obtain ⟨y, hy, heq⟩ := List.mem_map.mp hin
    have hlt := h.known y (hpop ▸ hy)
    exact absurd heq hlt.ne
  · rcases List.mem_cons.mp hx with rfl | hx
    · exact Nat.lt_succ_self _
    · exact Nat.lt_succ_of_lt (h.known x (hpop ▸ hx))
  · rcases List.mem_cons.mp hx with rfl | hx
    · cases List.mem_singleton.mp hk
    · exact h.homes x (hpop ▸ hx) k hk

theorem beat (h : Staffed t) (hb : Beat t t') : Staffed t' := by
  cases hb with
  | turn hn => exact h.turn hn
  | job hn ht => exact h.job hn ht
  | request hn r => exact h.request hn r

end Staffed

theorem Opens.staffed {t : Engine.Turn} (h : Opens t) : Staffed t := by
  obtain ⟨config, registry, graph, shortest, requests, -, rfl⟩ := h
  have henrolled : ∀ e : Engine, e.tasks = [] → e.gathers = [] → e.scheduler = { minInterval := shortest } →
      e.Enrolled := by
    intro e ht hg hs
    refine ⟨by simp [ht], by simp [hg], fun g m _ => ⟨by simp [Engine.owes, Engine.task?, ht], ?_⟩, ?_⟩
    · rw [Engine.tells, hs]
      rfl
    · rw [hs]
      exact .initial shortest
  cases requests with
  | nil => exact ⟨List.nodup_nil, fun _ hx => absurd hx List.not_mem_nil,
    fun _ hx => absurd hx List.not_mem_nil, henrolled _ rfl rfl rfl⟩
  | cons r rest =>
    refine ⟨List.nodup_singleton _, fun x hx => ?_, fun x hx k hk => ?_, henrolled _ rfl rfl rfl⟩
    · rw [List.mem_singleton.mp hx]
      exact Nat.zero_lt_one
    · rw [List.mem_singleton.mp hx] at hk
      cases List.mem_singleton.mp hk

/-- Strands have ids of their own in every state of a session. -/
theorem staffed_run {run : Nat → Engine.Turn} {n : Nat} (hopens : Opens (run 0))
    (hbeats : ∀ k < n, Beat (run k) (run (k + 1))) {k : Nat} (hk : k ≤ n) : Staffed (run k) := by
  induction k with
  | zero => exact hopens.staffed
  | succ k ih => exact (ih (Nat.le_of_succ_le hk)).beat (hbeats k hk)

/-! ## What a step does to what is waited for -/

section Steps

variable {t t' : Engine.Turn}

/-- A strand is found under its id. -/
theorem Staffed.find? (h : Staffed t) {x : Strand × Parked} (hx : x ∈ t.engine.strands) :
    (t.engine.strands.find? fun y => y.1.id == x.1.id) = some x := by
  have hids : (t.engine.strands.map fun x => x.1.id).Nodup :=
    h.ids.sublist ((List.sublist_append_right _ _).map _)
  cases hfind : t.engine.strands.find? fun y => y.1.id == x.1.id with
  | none => exact absurd (beq_self_eq_true _) (List.find?_eq_none.mp hfind x hx)
  | some y =>
    have hid : y.1.id = x.1.id := by simpa using List.find?_some hfind
    rw [List.inj_on_of_nodup_map hids (List.mem_of_find?_eq_some hfind) hx hid]

/-- What becomes of a strand that waits when another is taken up. -/
theorem mem_handle_resume (e : Engine) {id : Nat} {x : Strand × Parked} (hx : x ∈ e.strands) (hid : x.1.id ≠ id) :
    x ∈ (e.handle (.resume id)).population := by
  rcases handle_resume e id with heq | ⟨s, p, e₁, e', -, -, heq, -, hstrands, -⟩
  · rw [heq]
    exact hx
  · rw [heq]
    refine List.mem_append_right _ ?_
    show x ∈ e'.strands
    rw [hstrands]
    exact List.mem_filter.mpr ⟨hx, by simpa using hid⟩

/-- What becomes of a strand in a step: it has a turn; it waits on, and unless the loop runs a job for it in vain
no such job is lost; or it is taken up. -/
theorem Beat.track (h : Staffed t) (hb : Beat t t') {x : Strand × Parked} (hx : x ∈ t.population) :
    (∃ sig, t.next = some (x.1, sig) ∧ x.2 = .turn sig ∧ t' = t.engine.turn x.1 sig) ∨
      (x ∈ t.engine.strands ∧ x ∈ t'.population ∧ (t.engine.hasCome x.2 = false ∨
        t.engine.scheduler.loop.pending (.resume x.1.id) ≤ t'.engine.scheduler.loop.pending (.resume x.1.id))) ∨
      ∃ e : Engine, t.next = none ∧ e.gathers = t.engine.gathers ∧ t.engine.hasCome x.2 = true ∧
        t' = (e.unpark x.2).2.go x.1 (e.unpark x.2).1 := by
  have hsound := h.enrolled.sound
  cases hb with
  | @turn s sig hn =>
    rw [Engine.Turn.population_of_next hn] at hx
    rcases List.mem_cons.mp hx with rfl | hx
    · exact .inl ⟨sig, hn, rfl, rfl⟩
    · have hp := turn_passes t.engine s sig
      obtain ⟨own, news, hpop, -⟩ := hp.population
      refine .inr (.inl ⟨hx, ?_, .inr (hp.attends.resumes hsound _)⟩)
      rw [hpop]
      exact List.mem_append_right _ (List.mem_append_right _ hx)
  | @job hn loop j ht =>
    rw [population_of_none hn] at hx
    have hsound' := (h.enrolled.takes ht).sound
    -- only the job that resumes this strand can take it off the list of those that wait
    by_cases hresume : j = .resume x.1.id
    · subst hresume
      let e : Engine := t.engine.withLoop loop
      have hfind : (e.strands.find? fun y => y.1.id == x.1.id) = some (x.1, x.2) := h.find? hx
      have hsame : e.hasCome x.2 = t.engine.hasCome x.2 := t.engine.hasCome_withLoop loop x.2
      cases hcome : t.engine.hasCome x.2 with
      | false =>
        have heq : e.handle (.resume x.1.id) = ⟨e, none⟩ := by
          simp only [Engine.handle, hfind, hsame, hcome, Bool.false_eq_true, if_false]
        exact .inr (.inl ⟨hx, heq ▸ hx, .inl rfl⟩)
      | true =>
        refine .inr (.inr ⟨{ e with strands := e.strands.filter fun y => y.1.id != x.1.id }, hn, rfl, rfl, ?_⟩)
        simp only [Engine.handle, hfind, hsame, hcome, if_true, e]
    · have hpending : t.engine.scheduler.loop.pending (.resume x.1.id) = loop.pending (.resume x.1.id) := by
        rw [Loop.pending_of_takes ht, if_neg hresume, Nat.add_zero]
      rw [hpending]
      rcases j.sorts with ⟨id, rfl⟩ | ⟨g, m, rfl⟩ | ⟨hother, hgather⟩
      · have ha := (t.engine.withLoop loop).handle_attends (j := .resume id) fun _ _ h => by cases h
        refine .inr (.inl ⟨hx, mem_handle_resume _ hx fun hid => ?_, .inr (ha.resumes hsound' _)⟩)
        exact hresume (congrArg Job.resume hid.symm)
      · have hh := Engine.gatherDone_hears (t.engine.withLoop loop) g m
        refine .inr (.inl ⟨hx, Staffed.mem_population ?_, .inr (hh.scheduler.waits hsound' _ rfl)⟩)
        exact hh.strands ▸ hx
      · have hh := (Engine.handle_hires (t.engine.withLoop loop) hother hgather).1
        obtain ⟨news, hstrands, -⟩ := hh.strands
        refine .inr (.inl ⟨hx, Staffed.mem_population ?_, .inr (hh.scheduler.waits hsound' _ rfl)⟩)
        rw [hstrands]
        exact List.mem_append_right _ hx
  | request hn r =>
    rw [population_of_none hn] at hx
    exact .inr (.inl ⟨hx, Staffed.mem_population hx, .inr le_rfl⟩)

/-- The strands after a step: those that were there, by their ids, and new ones. -/
theorem Beat.mem (hb : Beat t t') {x : Strand × Parked} (hx : x ∈ t'.population) :
    t.engine.nextStrand ≤ x.1.id ∨ ∃ y ∈ t.population, y.1.id = x.1.id := by
  cases hb with
  | @turn s sig hn =>
    obtain ⟨own, news, hpop, -, hnews, hown, -⟩ := (turn_passes t.engine s sig).population
    rw [hpop] at hx
    rcases List.mem_append.mp hx with hx | hx
    · refine .inr ⟨_, Engine.Turn.mem_population_of_next hn, ?_⟩
      rcases hown x (Option.mem_toList.mp hx) with hheir | ⟨-, hid, -⟩
      · exact hheir.id.symm
      · exact hid.symm
    · rcases List.mem_append.mp hx with hx | hx
      · exact .inl (hnews x hx).2.1
      · exact .inr ⟨x, Staffed.mem_population hx, rfl⟩
  | @job hn loop j ht =>
    rcases j.sorts with ⟨id, rfl⟩ | ⟨g, m, rfl⟩ | ⟨hresume, hgather⟩
    · rcases handle_resume (t.engine.withLoop loop) id with
        heq | ⟨s, p, e₁, e', hfind, -, heq, -, hstrands, -⟩
      · rw [heq] at hx
        exact .inr ⟨x, Staffed.mem_population hx, rfl⟩
      · rw [heq] at hx
        rcases List.mem_cons.mp hx with rfl | hx
        · exact .inr ⟨_, Staffed.mem_population (List.mem_of_find?_eq_some hfind), rfl⟩
        · have hx' : x ∈ e'.strands := hx
          rw [hstrands] at hx'
          exact .inr ⟨x, Staffed.mem_population (List.mem_of_mem_filter hx'), rfl⟩
    · have hh := Engine.gatherDone_hears (t.engine.withLoop loop) g m
      exact .inr ⟨x, Staffed.mem_population (hh.strands ▸ hx), rfl⟩
    · obtain ⟨hh, hnext⟩ := Engine.handle_hires (t.engine.withLoop loop) hresume hgather
      obtain ⟨news, hstrands, -, hnews, -⟩ := hh.strands
      rw [population_of_none hnext, hstrands] at hx
      rcases List.mem_append.mp hx with hx | hx
      · exact .inl (hnews x hx).2.1
      · exact .inr ⟨x, Staffed.mem_population hx, rfl⟩
  | request hn r =>
    rcases List.mem_cons.mp hx with rfl | hx
    · exact .inl le_rfl
    · exact .inr ⟨x, Staffed.mem_population hx, rfl⟩

/-- No strand comes to an id that had one. -/
theorem Beat.absent (hb : Beat t t') {m : Nat} (hm : m < t.engine.nextStrand)
    (habsent : ∀ x ∈ t.population, x.1.id ≠ m) : ∀ x ∈ t'.population, x.1.id ≠ m := by
  rintro x hx rfl
  rcases hb.mem hx with hle | ⟨y, hy, heq⟩
  · exact absurd hm (Nat.not_lt.mpr hle)
  · exact habsent y hy heq

theorem Beat.nextStrand_le (hb : Beat t t') : t.engine.nextStrand ≤ t'.engine.nextStrand := by
  cases hb with
  | turn hn => exact (turn_passes _ _ _).attends.nextStrand
  | @job hn loop j ht =>
    by_cases hgather : ∃ g m, j = .gather g m
    · obtain ⟨g, m, rfl⟩ := hgather
      exact ((t.engine.withLoop loop).gatherDone_hears g m).nextStrand.ge
    · exact ((t.engine.withLoop loop).handle_attends fun g m heq => hgather ⟨g, m, heq⟩).nextStrand
  | request hn r => exact Nat.le_succ _

/-- The task that a turn comes back to is that of its strand. -/
theorem Staffed.id_of_top (h : Staffed t) {s : Strand} {sig : Signal} (hn : t.next = some (s, sig)) {m : Nat}
    (hm : (sig.top s.frames).bind Frame.task? = some m) : s.id = m := by
  have hmem := Engine.Turn.mem_population_of_next hn
  obtain ⟨f, hf, htask⟩ := Option.bind_eq_some_iff.mp hm
  have hin : f ∈ s.frames := by
    cases sig with
    | call c => cases hf
    | back r => exact List.mem_of_mem_head? hf
    | raise err => exact List.mem_of_mem_head? hf
  cases f with
  | task k =>
    obtain rfl := Option.some.inj htask
    exact (h.homes _ hmem k hin).symm
  | _ => cases htask

/-- Two strands of one id are one. -/
theorem Staffed.unique (h : Staffed t) {x y : Strand × Parked} (hx : x ∈ t.population) (hy : y ∈ t.population)
    (hid : x.1.id = y.1.id) : x = y :=
  List.inj_on_of_nodup_map h.ids hx hy hid

/-- A step in which a gather is told of nothing. -/
structure Unheard (g : Nat) (t t' : Engine.Turn) : Prop where
  gather : ∀ G, t.engine.gather? g = some G → t'.engine.gather? g = some G
  minds : ∀ m, (∀ s sig, t.next = some (s, sig) → (sig.top s.frames).bind Frame.task? ≠ some m) →
    t.engine.Minds t'.engine g m
  total : ∀ m, t'.engine.owes g m + t'.engine.tells g m = t.engine.owes g m + t.engine.tells g m

theorem Unheard.of_minds {g : Nat} (hG : ∀ G, t.engine.gather? g = some G → t'.engine.gather? g = some G)
    (hm : ∀ m, t.engine.Minds t'.engine g m) : Unheard g t t' :=
  ⟨hG, fun m _ => hm m, fun m => by rw [(hm m).owes, (hm m).tells]⟩

theorem Engine.takes_minds {e : Engine} {j : Job} {loop : Loop Job} (ht : e.scheduler.loop.Takes j loop) {g m : Nat}
    (hj : j ≠ .gather g m) : e.Minds (e.withLoop loop) g m := by
  refine ⟨rfl, rfl, ?_⟩
  rw [tells, tells, Loop.pending_of_takes ht, if_neg hj, Nat.add_zero]
  rfl

/-- Unless a gather is told of a task, it waits on as it did. -/
theorem Beat.unheard (h : Staffed t) (hb : Beat t t') {g : Nat} (hg : g < t.engine.gathers.length) :
    Unheard g t t' ∨ ∃ (m : Nat) (loop : Loop Job), t.next = none ∧
      t.engine.scheduler.loop.Takes (.gather g m) loop ∧
      t' = (t.engine.withLoop loop).handle (.gather g m) := by
  have hsound := h.enrolled.sound
  cases hb with
  | @turn s sig hn =>
    have ha := (turn_passes t.engine s sig).attends
    exact .inl ⟨fun G hG => ha.gather? hG, fun m hm => ha.minds hsound g m (.inl hg) (hm s sig hn).symm,
      fun m => ha.total hsound g m (.inl hg)⟩
  | @job hn loop j ht =>
    have hsound' := (h.enrolled.takes ht).sound
    by_cases hgather : ∃ g m, j = .gather g m
    · obtain ⟨g', m', rfl⟩ := hgather
      by_cases hgg : g' = g
      · subst hgg
        exact .inr ⟨m', loop, hn, ht, rfl⟩
      · have hh := Engine.gatherDone_hears (t.engine.withLoop loop) g' m'
        refine .inl (.of_minds (fun G hG => ?_) fun m => (Engine.takes_minds ht fun heq => ?_).trans (hh.minds g m))
        · have hfind := Engine.gather?_gatherDone (t.engine.withLoop loop) g' m' g
          have hG' : (t.engine.withLoop loop).gather? g = some G := hG
          rw [hG'] at hfind
          rw [Option.map_some, if_neg (Ne.symm hgg)] at hfind
          exact hfind
        · exact hgg (Job.gather.inj heq).1
    · have hne : ∀ g m, j ≠ .gather g m := fun g m heq => hgather ⟨g, m, heq⟩
      have ha := Engine.handle_attends (t.engine.withLoop loop) hne
      exact .inl (.of_minds (fun G hG => ha.gather? hG)
        fun m => (Engine.takes_minds ht (hne g m)).trans (ha.minds hsound' g m (.inl hg) nofun))
  | request hn r => exact .inl (.of_minds (fun G hG => hG) fun m => ⟨rfl, rfl, rfl⟩)

end Steps

end Patchbay
