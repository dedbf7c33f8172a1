import Mathlib.Data.List.Forall2
import Patchbay.Proofs.Containment
import Patchbay.Proofs.Rousing

/-!
# How runs end

A run sets up its event nodes one after another on its own strand, then starts all start nodes and waits for
them. Each trigger ends with a result, and the run hears of each of them; so it returns one result for each
node, whatever behaviours do and whatever else goes on meanwhile. Only the setting up of an event node lies
outside a trigger: when the node is gone by then, or a registration of it cannot be cancelled, the run raises. And
an error whose text cannot be written leaves its trigger as a fault.

Contents:
* `Member`, `Waits`: how the gather of a run stands with its tasks.
* `Underway`: how a run stands that has not ended.
* `Engine.Turn.Refuses`, `Engine.Turn.Loses`, `RunResult.Covers`: how it ends.

Results:
* `RunResult.success_statusOf`: when a run succeeds.
* `Underway.beat`: what one step does to a run.
* `run_returns_unless_refused`: every run.
-/

namespace Patchbay

variable {t t' : Engine.Turn}

/-! ## Tasks of a run -/

/-- How a gather stands with a task that runs a trigger of a node. The trigger has yet to end, on the strand of
the task; or it is over, and as long as the task is left the loop has yet to tell the gather. -/
inductive Member (t : Engine.Turn) (g : Nat) (left : List Nat) (m : Nat) (node : String) : Prop
  | works {x : Strand × Parked} (hx : x ∈ t.population) (hid : x.1.id = m)
      (hf : Fetches node .start [.task m] x) (hout : t.engine.outcomeOf m = none) (howes : t.engine.owes g m = 1)
      (htells : t.engine.tells g m = 0) (hleft : m ∈ left)
  | ended {r : TriggerResult} (habsent : ∀ x ∈ t.population, x.1.id ≠ m) (hknown : m < t.engine.nextStrand)
      (hout : t.engine.outcomeOf m = some (.ok (.trigger r))) (hr : r.origin = node)
      (htells : t.engine.tells g m = if m ∈ left then 1 else 0)

/-- How the gather of a run stands that has yet to hear of some tasks. -/
structure Waits (t : Engine.Turn) (g strand : Nat) (starts : List String) (G : Gather) (left : List Nat) :
    Prop where
  found : t.engine.gather? g = some G
  strand : G.strand = strand
  outcome : G.outcome = none
  count : G.done + left.length = G.members.length
  nodup : left.Nodup
  subset : ∀ m ∈ left, m ∈ G.members
  rest : left ≠ []
  members : List.Forall₂ (Member t g left) G.members starts
  others : ∀ m, m ∉ G.members → t.engine.owes g m = 0 ∧ t.engine.tells g m = 0

/-- How the gather of a run stands that has heard of all tasks. -/
structure Heard (t : Engine.Turn) (g strand : Nat) (ts : List TriggerResult) : Prop where
  outcome : (t.engine.gather? g).bind Gather.outcome = some (.ok ts)
  pending : 0 < t.engine.scheduler.loop.pending (.resume strand)

section Members

variable {g m : Nat} {left : List Nat} {node : String}

theorem isSome_task?_of_owes {e : Engine} (h : e.owes g m = 1) : (e.task? m).isSome = true := by
  cases hw : e.task? m with
  | some w => rfl
  | none => simp [Engine.owes, hw] at h

/-- The task of a strand that yields a result is done. -/
theorem Member.of_yields (h : Staffed t) {s : Strand} {r : TriggerResult}
    (hn : t.next = some (s, .back (.response (.trigger r)))) (hs : s.frames = [.task m]) (hid : s.id = m)
    (hr : r.origin = node) (howes : t.engine.owes g m = 1) (htells : t.engine.tells g m = 0) (hleft : m ∈ left) :
    Member (t.engine.turn s (.back (.response (.trigger r)))) g left m node := by
  have heq : t.engine.turn s (.back (.response (.trigger r))) =
      ⟨t.engine.completeTask m (.ok (.trigger r)), none⟩ := by
    rw [Engine.turn_back hs]
    rfl
  have hc := Engine.Calls.completeTask t.engine m (.ok (.trigger r))
  have hids := h.ids
  rw [Engine.Turn.population_of_next hn, List.map_cons, List.nodup_cons] at hids
  rw [heq]
  refine .ended (r := r) (fun x hx hxm => ?_) ?_ ?_ hr ?_
  · have hx' : x ∈ t.engine.strands := hc.strands ▸ hx
    exact hids.1 (List.mem_map.mpr ⟨x, hx', hxm.trans hid.symm⟩)
  · show m < (t.engine.completeTask m _).nextStrand
    rw [hc.nextStrand, ← hid]
    exact h.known _ (Engine.Turn.mem_population_of_next hn)
  · obtain ⟨w, hw⟩ := Option.isSome_iff_exists.mp (isSome_task?_of_owes howes)
    show (t.engine.completeTask m _).outcomeOf m = _
    rw [Engine.outcomeOf_completeTask, if_pos rfl, hw]
    rfl
  · show (t.engine.completeTask m _).tells g m = _
    rw [Engine.tells_completeTask, if_pos rfl, if_pos hleft, htells, howes]

/-- A task goes on, or is done, while its gather hears nothing and no error without a text leaves its trigger. -/
theorem Member.unheard (h : Staffed t) (hb : Beat t t') (hsits : ∀ x ∈ t.population, ∃ b, Sits b x)
    (hu : Unheard g t t') (hheld : ∀ node, ¬t.Spills { id := m, frames := [.task m] } node .start)
    (hm : Member t g left m node) : Member t' g left m node := by
  cases hm with
  | @works x hx hid hf hout howes htells hleft =>
    obtain ⟨s, p⟩ := x
    obtain ⟨b, hsit⟩ := hsits _ hx
    -- unless its own strand comes back to it, the task stays what it is
    have hminds : (∀ sig, t.next = some (s, sig) → (sig.top s.frames).bind Frame.task? ≠ some m) →
        t.engine.Minds t'.engine g m := by
      intro hown
      refine hu.minds m fun s' sig hn htop => ?_
      have hid' := h.id_of_top hn htop
      have heq := h.unique (Engine.Turn.mem_population_of_next hn) hx (hid'.trans hid.symm)
      obtain ⟨rfl, -⟩ := Prod.mk.inj heq
      exact hown sig hn htop
    have hkeep : ∀ {y : Strand × Parked}, y ∈ t'.population → y.1.id = m → Fetches node .start [.task m] y →
        t.engine.Minds t'.engine g m → Member t' g left m node := by
      intro y hy hid hf hmm
      exact .works hy hid hf (hmm.outcome.trans hout) (hmm.owes.trans howes) (hmm.tells.trans htells) hleft
    rcases hb.track h hx with ⟨sig, hn, hp, rfl⟩ | ⟨hwaits, hx', -⟩ | ⟨e, hn, -, -, rfl⟩
    · obtain rfl : p = .turn sig := hp
      rcases hf.turn (e := t.engine) hsit with
        ⟨r, rfl, hframes, hr⟩ | ⟨err, e', -, harm, -⟩ | ⟨htop, y, hy, hyid, hyf⟩ | hspills
      · exact .of_yields h hn hframes hid hr howes htells hleft
      · cases harm
      · refine hkeep hy (hyid.trans hid) hyf (hminds fun sig' hn' htop' => ?_)
        obtain ⟨-, rfl⟩ := Prod.mk.inj (Option.some.inj (hn.symm.trans hn'))
        rw [htop] at htop'
        cases htop'
      · exact absurd ⟨s, sig, hn, hid, hspills⟩ (hheld node)
    · refine hkeep hx' hid hf (hminds fun sig hn _ => ?_)
      have hids := h.ids
      rw [Engine.Turn.population_of_next hn, List.map_cons, List.nodup_cons] at hids
      exact hids.1 (List.mem_map.mpr ⟨_, hwaits, rfl⟩)
    · refine hkeep List.mem_cons_self hid (hf.unpark hsit e) (hminds fun sig hn' _ => ?_)
      rw [hn] at hn'
      cases hn'
  | ended habsent hknown hout hr htells =>
    have hmm : t.engine.Minds t'.engine g m := by
      refine hu.minds m fun s sig hn htop => ?_
      exact habsent _ (Engine.Turn.mem_population_of_next hn) (h.id_of_top hn htop)
    exact .ended (hb.absent hknown habsent) (hknown.trans_le hb.nextStrand_le) (hmm.outcome.trans hout) hr
      (hmm.tells.trans htells)

/-- The gather hears of a task. -/
theorem Member.told (hn : t.next = none) {m' : Nat} {loop : Loop Job}
    (ht : t.engine.scheduler.loop.Takes (.gather g m') loop) (hnodup : left.Nodup) (hm : Member t g left m node) :
    Member ((t.engine.withLoop loop).handle (.gather g m')) g (left.erase m') m node := by
  have hh := (t.engine.withLoop loop).gatherDone_hears g m'
  have hpop : ((t.engine.withLoop loop).handle (.gather g m')).population = t.population :=
    hh.strands.trans (population_of_none hn).symm
  have hpending : t.engine.tells g m = ((t.engine.withLoop loop).handle (.gather g m')).engine.tells g m +
      if m' = m then 1 else 0 := by
    rw [show ((t.engine.withLoop loop).handle (.gather g m')).engine.tells g m = _ from hh.tells g m]
    have htakes := Loop.pending_of_takes ht (.gather g m)
    simp only [Job.gather.injEq, true_and] at htakes
    exact htakes
  have houtcome : ((t.engine.withLoop loop).handle (.gather g m')).engine.outcomeOf m = t.engine.outcomeOf m :=
    (hh.minds g m).outcome
  cases hm with
  | works hx hid hf hout howes htells hleft =>
    rw [htells] at hpending
    have hne : m' ≠ m := fun h => by simp [h] at hpending
    rw [if_neg hne] at hpending
    exact .works (hpop ▸ hx) hid hf (houtcome.trans hout) ((hh.minds g m).owes.trans howes) hpending.symm
      ((List.mem_erase_of_ne (Ne.symm hne)).mpr hleft)
  | ended habsent hknown hout hr htells =>
    refine .ended (hpop ▸ habsent) (hh.nextStrand.symm ▸ hknown) (houtcome.trans hout) hr ?_
    rw [htells] at hpending
    by_cases heq : m' = m
    · subst heq
      rw [if_neg hnodup.not_mem_erase]
      rw [if_pos rfl] at hpending
      split at hpending <;> omega
    · rw [if_neg heq] at hpending
      simp only [List.mem_erase_of_ne (Ne.symm heq)]
      exact hpending.symm

/-- The results of tasks that are all done. -/
theorem origins_resultsOf {e : Engine} {members : List Nat} {starts : List String}
    (h : List.Forall₂ (fun m node => ∃ r, e.outcomeOf m = some (.ok (.trigger r)) ∧ r.origin = node) members starts) :
    (e.resultsOf members).map TriggerResult.origin = starts := by
  induction h with
  | nil => rfl
  | cons hm _ ih =>
    obtain ⟨r, hout, rfl⟩ := hm
    rw [Engine.outcomeOf] at hout
    rw [Engine.resultsOf, List.filterMap_cons, hout]
    exact congrArg (List.cons r.origin) ih

end Members

/-! ## The gather of a run -/

section Gathers

variable {g strand : Nat} {starts : List String} {G : Gather} {left : List Nat}

theorem Engine.Enrolled.lt_of_gather? {e : Engine} (h : e.Enrolled) (hG : e.gather? g = some G) :
    g < e.gathers.length := by
  have hlt := h.gathers G (List.mem_of_find?_eq_some hG)
  rwa [Engine.id_of_gather? hG] at hlt

/-- A gather waits on while it hears nothing. -/
theorem Waits.unheard (h : Staffed t) (hb : Beat t t') (hsits : ∀ x ∈ t.population, ∃ b, Sits b x)
    (hu : Unheard g t t') (hheld : ∀ m ∈ G.members, ∀ node, ¬t.Spills { id := m, frames := [.task m] } node .start)
    (hw : Waits t g strand starts G left) : Waits t' g strand starts G left := by
  have hmembers : List.Forall₂ (Member t' g left) G.members starts :=
    List.forall₂_iff_zip.mpr ⟨hw.members.length_eq, fun hmem =>
      (List.forall₂_zip hw.members hmem).unheard h hb hsits hu (hheld _ (List.of_mem_zip hmem).1)⟩
  refine ⟨hu.gather G hw.found, hw.strand, hw.outcome, hw.count, hw.nodup, hw.subset, hw.rest, hmembers,
    fun m hm => ?_⟩
  obtain ⟨howes, htells⟩ := hw.others m hm
  have htotal := hu.total m
  omega

theorem Waits.member (hw : Waits t g strand starts G left) {m : Nat} (hm : m ∈ G.members) :
    ∃ node ∈ starts, Member t g left m node := by
  have hmembers := hw.members
  generalize G.members = members at hm hmembers
  clear hw
  induction hmembers with
  | nil => cases hm
  | cons hfirst _ ih =>
    rcases List.mem_cons.mp hm with rfl | hm
    · exact ⟨_, List.mem_cons_self, hfirst⟩
    · obtain ⟨node, hnode, hmember⟩ := ih hm
      exact ⟨node, List.mem_cons_of_mem _ hnode, hmember⟩

/-- A task that a gather is told of is one of those left, and is done. -/
theorem Waits.mem_of_takes (hw : Waits t g strand starts G left) {m : Nat} {loop : Loop Job}
    (ht : t.engine.scheduler.loop.Takes (.gather g m) loop) :
    m ∈ left ∧ ∃ r, t.engine.outcomeOf m = some (.ok (.trigger r)) := by
  have hpos : 0 < t.engine.tells g m := by
    rw [Engine.tells, Loop.pending_of_takes ht, if_pos rfl]
    exact Nat.succ_pos _
  have hmem : m ∈ G.members := by
    by_contra hnot
    exact hpos.ne' (hw.others m hnot).2
  obtain ⟨node, -, hm⟩ := hw.member hmem
  cases hm with
  | works _ _ _ _ _ htells => exact absurd htells hpos.ne'
  | ended _ _ hout _ htells =>
    refine ⟨?_, _, hout⟩
    by_contra hnot
    rw [if_neg hnot] at htells
    exact hpos.ne' htells

/-- A gather hears of a task: it waits for the others, or has heard of all. -/
theorem Waits.told (hn : t.next = none) {m : Nat} {loop : Loop Job}
    (ht : t.engine.scheduler.loop.Takes (.gather g m) loop) (hw : Waits t g strand starts G left) :
    (∃ G' left', Waits ((t.engine.withLoop loop).handle (.gather g m)) g strand starts G' left') ∨
      ∃ ts, Heard ((t.engine.withLoop loop).handle (.gather g m)) g strand ts ∧
        ts.map TriggerResult.origin = starts := by
  obtain ⟨hleft, r, hout⟩ := hw.mem_of_takes ht
  have hh := (t.engine.withLoop loop).gatherDone_hears g m
  have hG : (t.engine.withLoop loop).gather? g = some G := hw.found
  have hlength : (left.erase m).length + 1 = left.length := List.length_erase_add_one hleft
  have hcount := hw.count
  have hverdict : (t.engine.withLoop loop).verdict G m = if G.done + 1 = G.members.length then
      some (.ok ((t.engine.withLoop loop).resultsOf G.members)) else none := by
    have hout' : (t.engine.withLoop loop).outcomeOf m = some (.ok (.trigger r)) := hout
    simp [Engine.verdict, hw.outcome, hout']
  have hfind := (t.engine.withLoop loop).gather?_gatherDone g m g
  rw [hG, Option.map_some, if_pos rfl, hverdict] at hfind
  have hmembers : List.Forall₂ (Member ((t.engine.withLoop loop).handle (.gather g m)) g (left.erase m))
      G.members starts := hw.members.imp fun _ _ hm => hm.told hn ht hw.nodup
  -- the gather is over when the last of its members has told; until then one member less is left
  by_cases hempty : left.erase m = []
  · rw [hempty, List.length_nil] at hlength
    have hlast : G.done + 1 = G.members.length := by omega
    rw [if_pos hlast] at hfind
    refine .inr ⟨(t.engine.withLoop loop).resultsOf G.members, ⟨?_, ?_⟩, origins_resultsOf ?_⟩
    · show (((t.engine.withLoop loop).gatherDone g m).gather? g).bind Gather.outcome = _
      rw [hfind]
      rfl
    · have hwakes : (t.engine.withLoop loop).gatherDone g m =
          ((t.engine.withLoop loop).note G m).soon (.resume strand) := by
        rw [Engine.gatherDone_of_some hG, hverdict, if_pos hlast, hw.outcome, hw.strand]
        rfl
      show 0 < ((t.engine.withLoop loop).gatherDone g m).scheduler.loop.pending (.resume strand)
      rw [hwakes]
      refine lt_of_lt_of_eq ?_ (Loop.pending_soon _ _ _).symm
      rw [if_pos rfl]
      exact Nat.succ_pos _
    · refine hmembers.imp fun m' node hm => ?_
      rw [hempty] at hm
      cases hm with
      | works _ _ _ _ _ _ hleft => cases hleft
      | ended _ _ hout hr => exact ⟨_, (hh.minds g m').outcome.symm.trans hout, hr⟩
  · have hmore : G.done + 1 ≠ G.members.length := by
      have := List.length_pos_iff.mpr hempty
      omega
    rw [if_neg hmore] at hfind
    refine .inl ⟨_, left.erase m, hfind, hw.strand, rfl, ?_, hw.nodup.erase m,
      fun m' hm' => hw.subset m' (List.mem_of_mem_erase hm'), hempty, hmembers, fun m' hm' => ?_⟩
    · show G.done + 1 + (left.erase m).length = G.members.length
      omega
    · obtain ⟨howes, htells⟩ := hw.others m' hm'
      refine ⟨(hh.minds g m').owes.trans howes, (hh.tells g m').trans ?_⟩
      have htakes := Loop.pending_of_takes ht (.gather g m')
      rw [Engine.tells] at htells
      show loop.pending (.gather g m') = 0
      omega

theorem Waits.beat (h : Staffed t) (hb : Beat t t') (hsits : ∀ x ∈ t.population, ∃ b, Sits b x)
    (hheld : ∀ m ∈ G.members, ∀ node, ¬t.Spills { id := m, frames := [.task m] } node .start)
    (hw : Waits t g strand starts G left) : (∃ G' left', Waits t' g strand starts G' left') ∨
      ∃ ts, Heard t' g strand ts ∧ ts.map TriggerResult.origin = starts := by
  rcases hb.unheard h (h.enrolled.lt_of_gather? hw.found) with hu | ⟨m, loop, hn, ht, rfl⟩
  · exact .inl ⟨G, left, hw.unheard h hb hsits hu hheld⟩
  · exact hw.told hn ht

/-- A gather that has heard of all tasks stays so. -/
theorem Heard.outcome_beat (h : Staffed t) (hb : Beat t t') {ts : List TriggerResult} (hh : Heard t g strand ts) :
    (t'.engine.gather? g).bind Gather.outcome = some (.ok ts) := by
  obtain ⟨G, hG, hout⟩ := Option.bind_eq_some_iff.mp hh.outcome
  rcases hb.unheard h (h.enrolled.lt_of_gather? hG) with hu | ⟨m, loop, hn, ht, rfl⟩
  · rw [hu.gather G hG]
    exact hout
  · have hfind := (t.engine.withLoop loop).gather?_gatherDone g m g
    have hG' : (t.engine.withLoop loop).gather? g = some G := hG
    rw [hG', Option.map_some, if_pos rfl] at hfind
    show (((t.engine.withLoop loop).gatherDone g m).gather? g).bind Gather.outcome = _
    rw [hfind]
    simp [Engine.verdict, hout]

end Gathers

/-! ## Starting -/

/-- Whether a trigger of a start node is about to begin, on the strand of a task. -/
structure Started (e : Engine) (m : Nat) (node : String) : Prop where
  strand : ({ id := m, frames := [.task m] }, .turn (.call (.trigger node .start none []))) ∈ e.strands
  task : (e.task? m).isSome = true
  outcome : e.outcomeOf m = none

theorem Started.hires {e e' : Engine} {m : Nat} {node : String} (h : Started e m node) (hh : e.Hires e') :
    Started e' m node := by
  obtain ⟨strands, hstrands, -⟩ := hh.strands
  obtain ⟨tasks, htasks, -⟩ := hh.tasks
  obtain ⟨w, hw⟩ := Option.isSome_iff_exists.mp h.task
  have hfind : e'.task? m = some w := by
    rw [Engine.task?, htasks, List.find?_append, show (e.tasks.find? fun t => t.id == m) = some w from hw]
    rfl
  refine ⟨?_, by rw [hfind]; rfl, ?_⟩
  · rw [hstrands]
    exact List.mem_append_right _ h.strand
  · have hout := h.outcome
    rw [Engine.outcomeOf, hw] at hout
    rw [Engine.outcomeOf, hfind]
    exact hout

theorem Started.spawn {e : Engine} (h : ∀ w ∈ e.tasks, w.id < e.nextStrand) (node : String) :
    Started (e.spawn (.trigger node .start none [])).2 e.nextStrand node := by
  have hnone : (e.tasks.find? fun t => t.id == e.nextStrand) = none :=
    List.find?_eq_none.mpr fun w hw => by simpa using (h w hw).ne
  have hfind : (e.spawn (.trigger node .start none [])).2.task? e.nextStrand =
      some { id := e.nextStrand, callbacks := [.discard] } := by
    show (e.tasks ++ [_]).find? _ = _
    rw [List.find?_append, hnone]
    simp
  refine ⟨List.mem_cons_self, by rw [hfind]; rfl, ?_⟩
  rw [Engine.outcomeOf, hfind]
  rfl

/-- All start nodes are started, each on a strand and with a task of its own. -/
theorem started_spawnStarts (nodes : List String) {e : Engine} (h : ∀ w ∈ e.tasks, w.id < e.nextStrand) :
    List.Forall₂ (Started (e.spawnStarts nodes).2) (e.spawnStarts nodes).1 nodes ∧
      (e.spawnStarts nodes).1.Nodup ∧ ∀ m ∈ (e.spawnStarts nodes).1, e.nextStrand ≤ m := by
  induction nodes generalizing e with
  | nil => exact ⟨.nil, List.nodup_nil, fun _ hm => (nomatch hm)⟩
  | cons node rest ih =>
    have hh := Engine.Hires.spawn e (c := .trigger node .start none []) trivial
    have hknown := (Engine.Attends.of_hires (k := none) hh).tasks h
    obtain ⟨hall, hnodup, hle⟩ := ih hknown
    have hlt : e.nextStrand < (e.spawn (.trigger node .start none [])).2.nextStrand := Nat.lt_succ_self _
    refine ⟨.cons ((Started.spawn h node).hires (.spawnStarts rest _)) hall,
      List.nodup_cons.mpr ⟨fun hin => ?_, hnodup⟩, fun m hm => ?_⟩
    · exact absurd (hle _ hin) (Nat.not_le.mpr hlt)
    · rcases List.mem_cons.mp hm with rfl | hm
      · exact Nat.le_refl _
      · exact hlt.le.trans (hle m hm)

/-- A gather of tasks that have just been started waits for all of them. -/
theorem Waits.of_started {e : Engine} (he : e.Enrolled) {members : List Nat} {starts : List String}
    (hstarts : starts ≠ []) (hall : List.Forall₂ (Started e) members starts) (hnodup : members.Nodup) (strand : Nat)
    (s : Strand) (p : Parked) : Waits ⟨(e.gather members strand).2.park s p, none⟩ e.gathers.length strand starts
      { id := e.gathers.length, members := members, strand := strand } members := by
  have hc := Engine.gather_calls e members strand
  have hnone : (e.gathers.find? fun x => x.id == e.gathers.length) = none :=
    List.find?_eq_none.mpr fun x hx => by simpa using (he.gathers x hx).ne
  refine ⟨?_, rfl, rfl, Nat.zero_add _, hnodup, fun _ hm => hm, ?_, ?_, fun m hm => ?_⟩
  · show ((e.gather members strand).2.gathers.find? fun x => x.id == e.gathers.length) = _
    rw [Engine.gathers_gather, List.find?_append, hnone]
    simp
  · rintro rfl
    exact hstarts (List.forall₂_nil_left_iff.mp hall)
  · refine List.forall₂_iff_zip.mpr ⟨hall.length_eq, fun {m node} hmem => ?_⟩
    have hstarted := List.forall₂_zip hall hmem
    have hm : m ∈ members := (List.of_mem_zip hmem).1
    obtain ⟨hout, howes, htells⟩ := Engine.gather_self e hnodup strand hm hstarted.task hstarted.outcome
    obtain ⟨hzero, hzero'⟩ := he.strays e.gathers.length m (Nat.le_refl _)
    refine .works (x := ({ id := m, frames := [.task m] }, .turn (.call (.trigger node .start none [])))) ?_ rfl
      (.begins rfl) hout (howes.trans (by rw [hzero])) (htells.trans hzero') hm
    refine Staffed.mem_population (List.mem_cons_of_mem _ ?_)
    rw [show (e.gather members strand).2.strands = e.strands from hc.strands]
    exact hstarted.strand
  · have hminds := Engine.gather_minds e members strand (g := e.gathers.length) (.inr hm)
    obtain ⟨howes, htells⟩ := he.strays e.gathers.length m (Nat.le_refl _)
    exact ⟨hminds.owes.trans howes, hminds.tells.trans htells⟩

/-! ## Runs -/

/-- How a run stands that the strand `s` called and that has not ended. -/
inductive Underway (t : Engine.Turn) (s : Strand) (events starts : List String) : Prop
  /-- an event node is being set up, on the strand of the run -/
  | arms {x : Strand × Parked} {node : String} {rest : List String} {results : List TriggerResult}
      (hx : x ∈ t.population) (hid : x.1.id = s.id)
      (horder : results.map TriggerResult.origin ++ node :: rest = events)
      (hf : Fetches node .arm (.arming rest starts results :: s.frames) x)
  /-- some start triggers have yet to end, or the run has yet to hear of them -/
  | waits {x : Strand × Parked} {g : Nat} {results : List TriggerResult} {G : Gather} {left : List Nat}
      (hx : x ∈ t.population) (hid : x.1.id = s.id) (hp : x.2 = .gather g)
      (hframes : x.1.frames = .gathering results :: s.frames)
      (horder : results.map TriggerResult.origin = events) (hw : Waits t g s.id starts G left)
  /-- all start triggers have ended, and the run is about to be taken up -/
  | wakes {x : Strand × Parked} {g : Nat} {results ts : List TriggerResult}
      (hx : x ∈ t.population) (hid : x.1.id = s.id) (hp : x.2 = .gather g)
      (hframes : x.1.frames = .gathering results :: s.frames)
      (horder : (results ++ ts).map TriggerResult.origin = events ++ starts) (hh : Heard t g s.id ts)
  /-- the run has all results -/
  | joins {s' : Strand} {results ts : List TriggerResult}
      (hn : t.next = some (s', .back (.response (.triggers ts)))) (hid : s'.id = s.id)
      (hframes : s'.frames = .gathering results :: s.frames)
      (horder : (results ++ ts).map TriggerResult.origin = events ++ starts)

/-- The next part of a run. -/
theorem Underway.armNext {e : Engine} (he : e.Enrolled) {s : Strand} (s' : Strand) (hid : s'.id = s.id)
    (hframes : s'.frames = s.frames) {events starts rest : List String} {results : List TriggerResult}
    (hstarts : starts ≠ []) (horder : results.map TriggerResult.origin ++ rest = events) :
    Underway (e.armNext s' rest starts results) s events starts := by
  obtain ⟨id, sc, frames⟩ := s'
  obtain rfl : id = s.id := hid
  obtain rfl : frames = s.frames := hframes
  cases rest with
  | cons node rest => exact .arms (x := (_, _)) List.mem_cons_self rfl horder (.begins rfl)
  | nil =>
    obtain ⟨hall, hnodup, -⟩ := started_spawnStarts starts he.tasks
    have he' : (e.spawnStarts starts).2.Enrolled := he.attends (.of_hires (k := none) (.spawnStarts starts e))
    exact .waits (x := (_, _)) List.mem_cons_self rfl rfl rfl (by simpa using horder)
      (Waits.of_started he' hstarts hall hnodup s.id _ _)

/-- A run that is under way has something left to run. -/
theorem Underway.not_idle (hr : Roused t) (hsits : ∀ x ∈ t.population, ∃ b, Sits b x) {s : Strand}
    {events starts : List String} (hu : Underway t s events starts) : ¬t.Idle := by
  intro hidle
  have hfetches : ∀ {node origin base} {x : Strand × Parked}, x ∈ t.population → ¬Fetches node origin base x := by
    intro node origin base x hx hf
    obtain ⟨b, hsit⟩ := hsits x hx
    rw [population_of_none hidle.1] at hx
    obtain ⟨hturn, hsleep⟩ := hr.of_idle hidle hx
    rcases hf.parked hsit with ⟨sig, hp⟩ | ⟨i, hp⟩
    · exact hturn sig hp
    · exact hsleep i hp
  cases hu with
  | arms hx _ _ hf => exact hfetches hx hf
  | waits _ _ _ _ _ hw =>
    -- one of the tasks left is at work, or its gather is about to be told
    obtain ⟨m, hm⟩ := List.exists_mem_of_ne_nil _ hw.rest
    obtain ⟨node, -, hmember⟩ := hw.member (hw.subset m hm)
    cases hmember with
    | works hx _ hf => exact hfetches hx hf
    | ended _ _ _ _ htells =>
      rw [Engine.tells, hidle.pending, if_pos hm] at htells
      cases htells
  | wakes _ _ _ _ _ hh => exact hh.pending.ne' (hidle.pending _)
  | joins hn =>
    rw [hidle.1] at hn
    cases hn

/-- Whether a strand is about to set up an event node and cannot: the node is gone, or what it has registered
cannot be cancelled. -/
def Engine.Turn.Refuses (t : Engine.Turn) (id : Nat) (err : Raised) : Prop :=
  ∃ (s : Strand) (node : String), t.next = some (s, .call (.trigger node .arm none [])) ∧ s.id = id ∧
    t.engine.running = true ∧ (t.engine.graph.node? node = none ∧ err = .causeAt (.nodeNotFound node) node ∨
      (t.engine.graph.node? node).isSome = true ∧
        ∃ f, (t.engine.scheduler.cancelOwner node).1 = .error f ∧ err = .fault f)

/-- Whether a strand waits for several tasks, of which one is on another strand. -/
def Engine.Turn.Awaits (t : Engine.Turn) (id m : Nat) : Prop :=
  ∃ x ∈ t.population, x.1.id = id ∧ ∃ g G, x.2 = .gather g ∧ t.engine.gather? g = some G ∧ m ∈ G.members

/-- Whether an error without a text is about to leave a trigger of the run that the strand `s` has called: one that
sets up an event node, or one of the start triggers that the run waits for. The strand `s'` has begun the trigger. -/
def Engine.Turn.Loses (t : Engine.Turn) (s s' : Strand) : Prop :=
  s'.id = s.id ∧ (∃ rest starts results, s'.frames = .arming rest starts results :: s.frames) ∧
      (∃ node, t.Spills s' node .arm) ∨
    t.Awaits s.id s'.id ∧ s'.frames = [.task s'.id] ∧ ∃ node, t.Spills s' node .start

/-- Why an event node cannot be set up. -/
theorem Engine.armed_eq_error {e : Engine} {node : String} {err : Raised} : (e.armed node .arm).1 = .error err ↔
    e.graph.node? node = none ∧ err = .causeAt (.nodeNotFound node) node ∨
      (e.graph.node? node).isSome = true ∧ ∃ f, (e.scheduler.cancelOwner node).1 = .error f ∧ err = .fault f := by
  cases hn : e.graph.node? node with
  | none => simp [Engine.armed, Graph.requireNode, hn, eq_comm]
  | some n =>
    have hid : n.id = node := by simpa using List.find?_some hn
    have harmed : e.armed node .arm = e.disarm n := by simp [Engine.armed, Graph.requireNode, hn]
    rw [harmed]
    rcases hc : e.scheduler.cancelOwner node with ⟨_ | _, s⟩ <;> simp [Engine.disarm, hid, hc, eq_comm]

/-- Whether a run has one result for each of some nodes, in their order, and is an error exactly when one of them
is. -/
structure RunResult.Covers (r : RunResult) (nodes : List String) : Prop where
  origins : r.triggers.map TriggerResult.origin = nodes
  status : r.status = .error ↔ ∃ x ∈ r.triggers, x.status = .error

theorem RunResult.covers_statusOf (running : Bool) {results : List TriggerResult} {nodes : List String}
    (h : results.map TriggerResult.origin = nodes) : Covers ⟨statusOf running results, results⟩ nodes := by
  refine ⟨h, ?_⟩
  unfold statusOf
  split
  · next hany => simpa using hany
  · next hany =>
    have hnone : ¬∃ x ∈ results, x.status = .error := by simpa using hany
    split <;> simp [hnone]

/-- A run succeeds when all of its triggers do and it is not stopped meanwhile. -/
theorem RunResult.success_statusOf (running : Bool) (results : List TriggerResult) :
    success ⟨statusOf running results, results⟩ = (running && results.all TriggerResult.success) := by
  have hone : ∀ x : TriggerResult, x.success = !(x.status == .error || x.status == .cancelled) := by
    intro x
    simp only [TriggerResult.success]
    cases x.status <;> rfl
  have hall : results.all TriggerResult.success =
      !(results.any (fun x => x.status == .error) || results.any fun x => x.status == .cancelled) := by
    induction results with
    | nil => rfl
    | cons x xs ih =>
      rw [List.all_cons, List.any_cons, List.any_cons, ih, hone]
      cases x.status == .error <;> cases x.status == .cancelled <;> simp
  rw [hall, success, statusOf]
  cases results.any fun x => x.status == .error <;> cases results.any fun x => x.status == .cancelled <;>
    cases running <;> rfl

section Steps

variable {s : Strand} {events starts : List String}

/-- A run whose event node cannot be set up is left with the error. -/
theorem Underway.refused (h : Staffed t) (hsits : ∀ x ∈ t.population, ∃ b, Sits b x)
    (hu : Underway t s events starts) {err : Raised} (hr : t.Refuses s.id err) :
    ∃ (s' : Strand) (sig : Signal) (e' : Engine) (rest : List String) (results : List TriggerResult),
      t.next = some (s', sig) ∧ t.engine.turn s' sig = e'.go s' (.raise err) ∧ s'.id = s.id ∧
      s'.frames = .arming rest starts results :: s.frames := by
  obtain ⟨s', node, hn, hid, hrun, hwhy⟩ := hr
  have harmed := Engine.armed_eq_error.mpr hwhy
  have hmem := Engine.Turn.mem_population_of_next hn
  have hraise : ∃ e' : Engine, t.engine.turn s' (.call (.trigger node .arm none [])) = e'.go s' (.raise err) := by
    rw [← Engine.armed_freshScope] at harmed
    refine ⟨(t.engine.freshScope.2.armed node .arm).2, ?_⟩
    show t.engine.startTrigger s' node .arm none [] = _
    rw [Engine.startTrigger_eq t.engine s' node .arm none [] hrun]
    generalize t.engine.freshScope.2.armed node .arm = armed at harmed ⊢
    obtain ⟨result, e₁⟩ := armed
    obtain rfl : result = .error err := harmed
    rfl
  obtain ⟨e', hturn⟩ := hraise
  cases hu with
  | @arms x node' rest results hx hxid _ hf =>
    obtain rfl := h.unique hmem hx (hid.trans hxid.symm)
    refine ⟨s', _, e', rest, results, hn, hturn, hid, ?_⟩
    cases hf with
    | begins hf => exact hf
    | conducts hf =>
      obtain ⟨b, hsit⟩ := hsits _ hmem
      exact absurd rfl (hf.ne_trigger hsit node .arm none [])
  | waits hx hxid hp =>
    obtain rfl := h.unique hmem hx (hid.trans hxid.symm)
    cases hp
  | wakes hx hxid hp =>
    obtain rfl := h.unique hmem hx (hid.trans hxid.symm)
    cases hp
  | joins hn' =>
    rw [hn] at hn'
    cases hn'

theorem hasCome_gather (e : Engine) (g : Nat) :
    e.hasCome (.gather g) = ((e.gather? g).bind Gather.outcome).isSome := rfl

theorem unpark_gather {e : Engine} {g : Nat} {ts : List TriggerResult}
    (h : (e.gather? g).bind Gather.outcome = some (.ok ts)) :
    (e.unpark (.gather g)).1 = .back (.response (.triggers ts)) := by
  rw [Engine.gather?] at h
  simp only [Engine.unpark, h]

/-- What one step does to a run whose event nodes can be set up and whose errors have texts: it goes on, or it
returns. -/
theorem Underway.beat (h : Staffed t) (hb : Beat t t') (hsits : ∀ x ∈ t.population, ∃ b, Sits b x)
    (hstarts : starts ≠ []) (hr : ∀ err, ¬t.Refuses s.id err) (hl : ∀ s', ¬t.Loses s s')
    (hu : Underway t s events starts) :
    Underway t' s events starts ∨
      ∃ r : RunResult, t'.Resumes s (.back (.response (.run r))) ∧ r.Covers (events ++ starts) := by
  -- the stages of a run: its triggers are begun one by one, then waited for, then put together
  cases hu with
  | @arms x node rest results hx hid horder hf =>
    obtain ⟨s', p⟩ := x
    obtain ⟨b, hsit⟩ := hsits _ hx
    refine .inl ?_
    rcases hb.track h hx with ⟨sig, hn, hp, rfl⟩ | ⟨-, hx', -⟩ | ⟨e, -, -, -, rfl⟩
    · obtain rfl : p = .turn sig := hp
      rcases hf.turn (e := t.engine) hsit with
        ⟨r, rfl, hframes, hro⟩ | ⟨err, e', rfl, -, hrun, harmed, -⟩ | ⟨-, y, hy, hyid, hyf⟩ | hspills
      · -- the trigger is over, and the next part of the run begins
        have heq : t.engine.turn s' (.back (.response (.trigger r))) =
            t.engine.armNext { s' with frames := s.frames } rest starts (results ++ [r]) := by
          rw [Engine.turn_back hframes]
          rfl
        rw [heq]
        refine .armNext h.enrolled { s' with frames := s.frames } hid rfl hstarts ?_
        rw [← horder]
        simp [hro]
      · exact absurd ⟨s', node, hn, hid, hrun, Engine.armed_eq_error.mp harmed⟩ (hr err)
      · exact .arms hy (hyid.trans hid) horder hyf
      · exact absurd (.inl ⟨rfl, ⟨_, _, _, rfl⟩, node, s', sig, hn, hid, hspills⟩)
          (hl { s with frames := .arming rest starts results :: s.frames })
    · exact .arms hx' hid horder hf
    · exact .arms (x := (_, _)) List.mem_cons_self hid horder (hf.unpark hsit e)
  | @waits x g results G left hx hid hp hframes horder hw =>
    refine .inl ?_
    rcases hb.track h hx with ⟨sig, -, hturn, -⟩ | ⟨-, hx', -⟩ | ⟨e, -, -, hcome, -⟩
    · rw [hp] at hturn
      cases hturn
    · have hheld : ∀ m ∈ G.members, ∀ node, ¬t.Spills { id := m, frames := [.task m] } node .start :=
        fun m hm node hspills => hl _ (.inr ⟨⟨x, hx, hid, g, G, hp, hw.found, hm⟩, rfl, node, hspills⟩)
      rcases hw.beat h hb hsits hheld with ⟨G', left', hw'⟩ | ⟨ts, hh, hts⟩
      · exact .waits hx' hid hp hframes horder hw'
      · exact .wakes hx' hid hp hframes (by rw [List.map_append, horder, hts]) hh
    · rw [hp, hasCome_gather, hw.found, Option.bind_some, hw.outcome] at hcome
      cases hcome
  | @wakes x g results ts hx hid hp hframes horder hh =>
    refine .inl ?_
    rcases hb.track h hx with ⟨sig, -, hturn, -⟩ | ⟨-, hx', hpending⟩ | ⟨e, -, hgathers, -, rfl⟩
    · rw [hp] at hturn
      cases hturn
    · refine .wakes hx' hid hp hframes horder ⟨hh.outcome_beat h hb, ?_⟩
      rcases hpending with hcome | hle
      · rw [hp, hasCome_gather, hh.outcome] at hcome
        cases hcome
      · exact hh.pending.trans_le (hid ▸ hle)
    · have hsignal : (e.unpark x.2).1 = .back (.response (.triggers ts)) := by
        have hout : (e.gather? g).bind Gather.outcome = some (.ok ts) := by
          rw [Engine.gather?, hgathers]
          exact hh.outcome
        rw [hp]
        exact unpark_gather hout
      rw [hsignal]
      exact .joins rfl hid hframes horder
  | @joins s' results ts hn hid hframes horder =>
    obtain rfl := hb.play.eq_turn hn
    rw [Engine.turn_back hframes]
    exact .inr ⟨_, ⟨_, rfl, hid, rfl⟩, RunResult.covers_statusOf t.engine.running horder⟩

end Steps

/-! ## Every run -/

section Runs

variable {run : Nat → Engine.Turn} {n : Nat}

theorem eventNodes_beginRun (e : Engine) (x : Notice) :
    (e.beginRun.emit x).eventNodes.map Node.id = e.eventNodes.map Node.id := by
  show ((e.graph.nodes.map _).filter e.isArmed).map Node.id = (e.graph.nodes.filter e.isArmed).map Node.id
  rw [List.filter_map, List.map_map]
  rfl

/-- A run begins. -/
theorem Underway.begins (h : Staffed t) (s : Strand)
    (hstarts : t.engine.graph.ofKind t.engine.config.startKind ≠ []) :
    Underway (t.engine.turn s (.call .run)) s (t.engine.eventNodes.map Node.id)
      ((t.engine.graph.ofKind t.engine.config.startKind).map Node.id) := by
  have hentry : t.engine.entryPoints = .ok (t.engine.graph.ofKind t.engine.config.startKind) := by
    unfold Engine.entryPoints
    split
    · next hnil => exact absurd hnil hstarts
    · rfl
  have heq : t.engine.turn s (.call .run) = (t.engine.beginRun.emit (.runStarted
      ((t.engine.graph.ofKind t.engine.config.startKind).map Node.id))).armNext s (t.engine.eventNodes.map Node.id)
        ((t.engine.graph.ofKind t.engine.config.startKind).map Node.id) [] := by
    show t.engine.startRun s = _
    simp only [Engine.startRun, hentry, eventNodes_beginRun]
  have he : ∀ x, (t.engine.beginRun.emit x).Enrolled := by
    intro x
    have ha : t.engine.Attends (t.engine.beginRun.emit x) none := .of_eq rfl rfl rfl rfl
    exact h.enrolled.attends ha
  rw [heq]
  exact .armNext (he _) s rfl rfl (by simpa using hstarts) rfl

/-- A run whose event node could not be set up raises. -/
theorem Underway.raises {t'' : Engine.Turn} {s : Strand} {events starts : List String} (h : Staffed t)
    (hsits : ∀ x ∈ t.population, ∃ b, Sits b x) (hu : Underway t s events starts) {err : Raised}
    (hr : t.Refuses s.id err) (hb : Beat t t') (hb' : Beat t' t'') : t''.Resumes s (.raise err) := by
  obtain ⟨s', sig, e', rest, results, hn, hturn, hid, hframes⟩ := hu.refused h hsits hr
  obtain rfl := hb.play.eq_turn hn
  rw [hturn] at hb'
  obtain rfl := hb'.play.eq_turn rfl
  rw [Engine.turn_raise hframes]
  exact ⟨_, rfl, hid, rfl⟩

/-- What happens to a run with an error without a text: it leaves the trigger as a fault; and when it does so on the
strand of the run, the run raises it. -/
theorem Engine.Turn.Loses.resumes {t₁ t₂ t₃ : Engine.Turn} {s s' : Strand} (h : t.Loses s s') (hb : Beat t t₁)
    (hb₁ : Beat t₁ t₂) (hb₂ : Beat t₂ t₃) : t₃.Resumes s' (.raise (.fault .value)) := by
  rcases h with ⟨-, -, node, hspills⟩ | ⟨-, -, node, hspills⟩
  · exact hspills.resumes hb hb₁ hb₂
  · exact hspills.resumes hb hb₁ hb₂

theorem Engine.Turn.Loses.raises {t₁ t₂ t₃ t₄ : Engine.Turn} {s s' : Strand} (h : t.Loses s s')
    (hframes : s'.frames ≠ [.task s'.id]) (hb : Beat t t₁) (hb₁ : Beat t₁ t₂) (hb₂ : Beat t₂ t₃) (hb₃ : Beat t₃ t₄) :
    t₄.Resumes s (.raise (.fault .value)) := by
  rcases h with ⟨hid, ⟨rest, starts, results, hf⟩, node, hspills⟩ | ⟨-, htask, -⟩
  · obtain ⟨s₃, hn, hid₃, hf₃⟩ := hspills.resumes hb hb₁ hb₂
    obtain rfl := hb₃.play.eq_turn hn
    rw [Engine.turn_raise (hf₃.trans hf)]
    exact ⟨_, rfl, hid₃.trans hid, rfl⟩
  · exact absurd htask hframes

/-- Whether a run is under way from a state until before another, every event node can be set up that it comes to
meanwhile, and no error without a text leaves a trigger of it. -/
def GoesOn (run : Nat → Engine.Turn) (a k : Nat) (s : Strand) (events starts : List String) : Prop :=
  ∀ i, a < i → i < k → Underway (run i) s events starts ∧ (∀ err, ¬(run i).Refuses s.id err) ∧
    ∀ s', ¬(run i).Loses s s'

theorem GoesOn.succ {a k : Nat} {s : Strand} {events starts : List String} (h : GoesOn run a k s events starts)
    (hu : Underway (run k) s events starts) (hr : ∀ err, ¬(run k).Refuses s.id err) (hl : ∀ s', ¬(run k).Loses s s') :
    GoesOn run a (k + 1) s events starts := by
  intro i hai hik
  rcases Nat.lt_succ_iff_lt_or_eq.mp hik with hik | rfl
  · exact h i hai hik
  · exact ⟨hu, hr, hl⟩

/-- Runs contain every failure. Whatever behaviours do and whatever else goes on, a run goes on, and never without
something left to run, until it returns one result for each event node that was there when it began, followed by
one for each start node, and it is an error exactly when one of these is; unless an event node cannot be set up
when its turn comes, and then the run raises, or an error whose text cannot be written leaves a trigger of it as a
fault. -/
theorem run_returns_unless_refused (hopens : Opens (run 0)) (hbeats : ∀ k < n, Beat (run k) (run (k + 1)))
    {a : Nat} (ha : a < n) {s : Strand} (hcall : (run a).next = some (s, .call .run))
    (hstarts : (run a).engine.graph.ofKind (run a).engine.config.startKind ≠ []) {events starts : List String}
    (hevents : (run a).engine.eventNodes.map Node.id = events)
    (hnodes : ((run a).engine.graph.ofKind (run a).engine.config.startKind).map Node.id = starts) :
    GoesOn run a n s events starts ∧ Underway (run n) s events starts ∧ ¬(run n).Idle ∨
      (∃ j, a < j ∧ j ≤ n ∧ GoesOn run a j s events starts ∧ ∃ r : RunResult,
        (run j).Resumes s (.back (.response (.run r))) ∧ r.Covers (events ++ starts)) ∨
      (∃ j, a < j ∧ j < n ∧ GoesOn run a j s events starts ∧ Underway (run j) s events starts ∧
        ∃ err, (run j).Refuses s.id err ∧ (j + 2 ≤ n → (run (j + 2)).Resumes s (.raise err))) ∨
      ∃ j, a < j ∧ j < n ∧ GoesOn run a j s events starts ∧ Underway (run j) s events starts ∧
        ∃ s', (run j).Loses s s' ∧ (j + 3 ≤ n → (run (j + 3)).Resumes s' (.raise (.fault .value))) ∧
          (s'.frames ≠ [.task s'.id] → j + 4 ≤ n → (run (j + 4)).Resumes s (.raise (.fault .value))) := by
  have hne : starts ≠ [] := by
    rw [← hnodes]
    simpa using hstarts
  -- by induction on the number of steps after the call
  induction n, ha using Nat.le_induction with
  | base =>
    have h := staffed_run hopens hbeats (Nat.le_succ a)
    have hturn := (hbeats a (Nat.lt_succ_self a)).play.eq_turn hcall
    have hu : Underway (run (a + 1)) s events starts := by
      rw [hturn, ← hevents, ← hnodes]
      exact .begins h s hstarts
    exact .inl ⟨fun i hai hia => absurd hai (Nat.not_lt.mpr (Nat.lt_succ_iff.mp hia)), hu,
      hu.not_idle (roused_run hopens hbeats le_rfl) (sits_run hopens hbeats le_rfl)⟩
  | succ k hak ih =>
    have hbeats' : ∀ i < k, Beat (run i) (run (i + 1)) := fun i hi => hbeats i (Nat.lt_succ_of_lt hi)
    rcases ih hbeats' with ⟨hgoes, hu, -⟩ | ⟨j, haj, hjk, hdone⟩ | ⟨j, haj, hjk, hgoes, hu, err, hr, -⟩ |
      ⟨j, haj, hjk, hgoes, hu, s', hl, -⟩
    · by_cases hrefuses : ∃ err, (run k).Refuses s.id err
      · obtain ⟨err, hr⟩ := hrefuses
        exact .inr (.inr (.inl ⟨k, hak, Nat.lt_succ_self k, hgoes, hu, err, hr, fun hle => absurd hle (by omega)⟩))
      by_cases hloses : ∃ s', (run k).Loses s s'
      · obtain ⟨s', hl⟩ := hloses
        exact .inr (.inr (.inr ⟨k, hak, Nat.lt_succ_self k, hgoes, hu, s', hl, fun hle => absurd hle (by omega),
          fun _ hle => absurd hle (by omega)⟩))
      have hr := not_exists.mp hrefuses
      have hl := not_exists.mp hloses
      rcases hu.beat (staffed_run hopens hbeats' le_rfl) (hbeats k (Nat.lt_succ_self k))
        (sits_run hopens hbeats' le_rfl) hne hr hl with hu' | hreturns
      · exact .inl ⟨hgoes.succ hu hr hl, hu',
          hu'.not_idle (roused_run hopens hbeats le_rfl) (sits_run hopens hbeats le_rfl)⟩
      · exact .inr (.inl ⟨k + 1, Nat.lt_succ_of_lt hak, le_rfl, hgoes.succ hu hr hl, hreturns⟩)
    · exact .inr (.inl ⟨j, haj, Nat.le_succ_of_le hjk, hdone⟩)
    · refine .inr (.inr (.inl ⟨j, haj, Nat.lt_succ_of_lt hjk, hgoes, hu, err, hr, fun hle => ?_⟩))
      exact hu.raises (staffed_run hopens hbeats' hjk.le) (sits_run hopens hbeats' hjk.le) hr
        (hbeats j (Nat.lt_succ_of_lt hjk)) (hbeats (j + 1) (by omega))
    · refine .inr (.inr (.inr ⟨j, haj, Nat.lt_succ_of_lt hjk, hgoes, hu, s', hl, fun hle => ?_, fun hf hle => ?_⟩))
      · exact hl.resumes (hbeats j (by omega)) (hbeats (j + 1) (by omega)) (hbeats (j + 2) (by omega))
      · exact hl.raises hf (hbeats j (by omega)) (hbeats (j + 1) (by omega)) (hbeats (j + 2) (by omega))
          (hbeats (j + 3) (by omega))

end Runs

/-! ## Nodes that are removed meanwhile -/

/-- A behaviour that removes a node. -/
def meddling (id : String) : Behavior := fun _ => .edit (.removeNode id) fun _ => .finish .null

/-- A run of two start nodes and two event nodes, of which the first removes a node when it is set up. -/
def meddleSession (id : String) : Engine.Turn :=
  opening (.initial {}
    { kinds := [.sketch "event.start" .event [] [Library.leads "exec"] none,
        .sketch "meddler" .event [] [Library.leads "exec"] (some (meddling id)),
        .sketch "alarm" .event [] [Library.leads "exec"] none] }
    { nodes := [{ serial := 0, id := "s", kind := "event.start" }, { serial := 1, id := "m", kind := "meddler" },
        { serial := 2, id := "a", kind := "alarm" }, { serial := 3, id := "z", kind := "event.start" }]
      nextSerial := 4 } 0.01)
    [.run]

/-- The state after a number of steps of that session. -/
def meddled (id : String) (n : Nat) : Engine.Turn := (follow n (meddleSession id, fun _ => {})).1

/-- Whether an event node is about to be set up and cannot. -/
def Engine.Turn.refuses (t : Engine.Turn) : Bool :=
  match t.next with
  | some (_, .call (.trigger node .arm _ _)) => !(t.engine.armed node .arm).1.isOk
  | _ => false

theorem Engine.Turn.Refuses.refuses {t : Engine.Turn} {id : Nat} {err : Raised} (h : t.Refuses id err) :
    t.refuses = true := by
  obtain ⟨s, node, hn, -, -, hwhy⟩ := h
  simp only [Engine.Turn.refuses, hn, Engine.armed_eq_error.mpr hwhy]
  rfl

/-- Whether a behaviour is about to raise an error without a text. -/
def Engine.Turn.spills (t : Engine.Turn) : Bool :=
  match t.next with
  | some (_, .call (.behave _ (.fail (.mute _)))) => true
  | _ => false

theorem Engine.Turn.Spills.spills {t : Engine.Turn} {s : Strand} {node : String} {origin : Origin}
    (h : t.Spills s node origin) : t.spills = true := by
  obtain ⟨s', sig, hn, -, i, g, agenda, rfl, -⟩ := h
  simp only [Engine.Turn.spills, hn]

/-- A run whose start node is removed meanwhile returns a result for each node. -/
theorem run_returns_meddled :
    (meddled "z" 1).next = some ({ id := 0, frames := [.session] }, .call .run) ∧
      ∃ j, 1 < j ∧ j ≤ 34 ∧ ∃ r : RunResult,
        (meddled "z" j).Resumes { id := 0, frames := [.session] } (.back (.response (.run r))) ∧
        r.Covers ["m", "a", "s", "z"] := by
  have hopens : Opens (meddled "z" 0) := by
    show Opens (meddleSession "z")
    refine ⟨_, _, _, _, _, ?_, rfl⟩
    exact ⟨by decide, by decide⟩
  have hgoes : ∀ k < 34, (Engine.advance (meddled "z" k)).isSome = true := by decide +kernel
  have hbeats : ∀ k < 34, Beat (meddled "z" k) (meddled "z" (k + 1)) :=
    fun k hk => .of_advance (advance_follow (hgoes k hk))
  have hcall : (meddled "z" 1).next = some ({ id := 0, frames := [.session] }, .call .run) := by
    with_unfolding_all rfl
  have hidle : (meddled "z" 34).Idle := by with_unfolding_all exact ⟨rfl, rfl⟩
  have hsets : ∀ k < 34, (meddled "z" k).refuses = false := by decide +kernel
  have hholds : ∀ k < 34, (meddled "z" k).spills = false := by decide +kernel
  have hevents : (meddled "z" 1).engine.eventNodes.map Node.id = ["m", "a"] := by decide +kernel
  have hnodes : ((meddled "z" 1).engine.graph.ofKind (meddled "z" 1).engine.config.startKind).map Node.id =
      ["s", "z"] := by decide +kernel
  refine ⟨hcall, ?_⟩
  rcases run_returns_unless_refused hopens hbeats (by decide) hcall (by decide +kernel) hevents hnodes with
    ⟨-, -, hbusy⟩ | ⟨j, haj, hj, -, hreturns⟩ | ⟨j, -, hj, -, -, err, hrefuses, -⟩ | ⟨j, -, hj, -, -, s', hloses, -⟩
  · exact absurd hidle hbusy
  · exact ⟨j, haj, hj, hreturns⟩
  · have hnot := hsets j hj
    rw [hrefuses.refuses] at hnot
    cases hnot
  · have hnot := hholds j hj
    rcases hloses with ⟨-, -, node, hspills⟩ | ⟨-, -, node, hspills⟩ <;>
      · rw [hspills.spills] at hnot
        cases hnot

/-- A run raises when an event node is removed before it is set up. -/
theorem run_raises_meddled :
    (meddled "a" 1).next = some ({ id := 0, frames := [.session] }, .call .run) ∧
      ((meddled "a" 1).engine.graph.ofKind (meddled "a" 1).engine.config.startKind).map Node.id = ["s", "z"] ∧
      (meddled "a" 13).Resumes { id := 0, frames := [.session] } (.raise (.causeAt (.nodeNotFound "a") "a")) := by
  refine ⟨?_, by decide +kernel, ?_⟩
  · with_unfolding_all rfl
  · with_unfolding_all exact ⟨_, rfl, rfl, rfl⟩

end Patchbay
