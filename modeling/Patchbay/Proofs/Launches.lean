import Mathlib.Data.Nat.Count
import Patchbay.Proofs.Listeners

/-!
# Triggers that registrations start

A registration that fires, or hears of an event, starts a trigger on a strand of its own: the trigger is given how
often an interval has fired, or the payload of an event, and its strand is queued. An event starts one for each of
its listeners, in the order in which they were registered.

Contents:
* `Launch`: a trigger that is to start; `Engine.Launches`: a change in which triggers are started.
* `Expires`: a step at which an interval expires.

Results:
* `launches_dispatch`, `launches_expire`: what an event and an interval start.
* `attuned_run`: the invariant of listeners holds in every state of a session.
* `counts_run`: how often an interval has fired.
-/

namespace Patchbay

/-- What the trigger that a registration starts is given, when it has fired a number of times. -/
def Firing.seeds (c : Firing) (fired : Nat) (payload : Value) : Dict :=
  match c.carried with
  | .nothing => []
  | .tick => [(.str "tick", .int fired)]
  | .payload => [(.str "payload", payload)]

/-- A trigger that is to continue from an output of a node, with what it is given. -/
structure Launch where
  node : String
  port : String
  seeds : Dict

/-- The call that begins the trigger. -/
def Launch.call (l : Launch) : Call := .trigger l.node .event (some l.port) l.seeds

/-- The strand of the trigger before its first turn. -/
def Launch.strand (l : Launch) (m : Nat) : Strand × Parked := ({ id := m, frames := [.task m] }, .turn (.call l.call))

namespace Engine

/-! ## Starting -/

/-- A change in which triggers are started one after another: each on a new strand, which is queued. -/
structure Launches (e : Engine) (ls : List Launch) (e' : Engine) : Prop where
  nextStrand : e'.nextStrand = e.nextStrand + ls.length
  strands : e'.strands = ((ls.zipIdx e.nextStrand).map fun x => x.1.strand x.2).reverse ++ e.strands
  queue : e'.scheduler.loop.ready.map Prod.snd =
    e.scheduler.loop.ready.map Prod.snd ++ (ls.zipIdx e.nextStrand).map fun x => .resume x.2

namespace Launches

variable {e e' e'' : Engine} {ls ls' : List Launch}

theorem nil (hn : e'.nextStrand = e.nextStrand) (hs : e'.strands = e.strands)
    (hl : e'.scheduler.loop = e.scheduler.loop) : e.Launches [] e' := by
  refine ⟨hn, hs, ?_⟩
  rw [hl, List.zipIdx_nil, List.map_nil, List.append_nil]

theorem append (h : e.Launches ls e') (h' : e'.Launches ls' e'') : e.Launches (ls ++ ls') e'' := by
  refine ⟨?_, ?_, ?_⟩
  · rw [h'.nextStrand, h.nextStrand, List.length_append, Nat.add_assoc]
  · rw [h'.strands, h.strands, h.nextStrand, List.zipIdx_append, List.map_append, List.reverse_append, List.append_assoc]
  · rw [h'.queue, h.queue, h.nextStrand, List.zipIdx_append, List.map_append, List.append_assoc]

/-- A trigger is started. -/
theorem fire (hrun : e.running = true) {l : Launch} (hnode : e.graph.hasNode l.node = true) :
    e.Launches [l] (e.fire l.node l.port l.seeds).2 := by
  unfold Engine.fire
  rw [if_pos (by rw [hrun, hnode]; rfl)]
  refine ⟨rfl, rfl, ?_⟩
  show (e.scheduler.loop.ready ++ [(_, _)]).map Prod.snd = _
  rw [List.map_append]
  rfl

/-- The strand of each of the triggers. -/
theorem mem (h : e.Launches ls e') {i : Nat} {l : Launch} (hi : ls[i]? = some l) :
    l.strand (e.nextStrand + i) ∈ e'.strands := by
  rw [h.strands]
  refine List.mem_append_left _ (List.mem_reverse.mpr (List.mem_map.mpr ⟨(l, e.nextStrand + i), ?_, rfl⟩))
  exact List.mk_add_mem_zipIdx_iff_getElem?.mpr hi

/-- Each of the strands is about to be taken up. -/
theorem pending (h : e.Launches ls e') {i : Nat} {l : Launch} (hi : ls[i]? = some l) :
    0 < e'.scheduler.loop.pending (.resume (e.nextStrand + i)) := by
  have hmem : Job.resume (e.nextStrand + i) ∈ e'.scheduler.loop.ready.map Prod.snd := by
    rw [h.queue]
    refine List.mem_append_right _ (List.mem_map.mpr ⟨(l, e.nextStrand + i), ?_, rfl⟩)
    exact List.mk_add_mem_zipIdx_iff_getElem?.mpr hi
  obtain ⟨x, hx, heq⟩ := List.mem_map.mp hmem
  refine List.count_pos_iff.mpr (List.mem_map.mpr ⟨x, ?_, heq⟩)
  exact List.mem_append_left _ (List.mem_append_right _ hx)

end Launches

/-! ## Calling a registration -/

/-- An engine with a registration that was called once more. -/
def counted (e : Engine) (id : Nat) : Engine :=
  { e with scheduler := e.scheduler.modify id fun r => { r with fired := r.fired + 1 } }

theorem find?_counted (e : Engine) (id j : Nat) : (e.counted id).scheduler.find? j =
    (e.scheduler.find? j).map fun r => if r.id == id then { r with fired := r.fired + 1 } else r :=
  Scheduler.find?_modify e.scheduler id j fun _ => rfl

theorem call_eq {e : Engine} {id : Nat} {r : Registration Firing} (hr : e.scheduler.find? id = some r)
    (payload : Value) :
    Scheduler.call withScheduler runFiring id payload e =
      ((e.counted id).fire r.callback.node r.callback.port (r.callback.seeds (r.fired + 1) payload)).2 := by
  have hfind := e.find?_counted id id
  rw [hr, Option.map_some, if_pos (by simpa using Scheduler.id_of_find? hr)] at hfind
  have hfind' : ((withScheduler.get e).modify id fun r => { r with fired := r.fired + 1 }).find? id = _ := hfind
  simp only [Scheduler.call, hfind']
  rfl

/-- What the firing of a registration comes to. -/
theorem expire_cases (e : Engine) (id : Nat) :
    (∀ r, e.scheduler.find? id = some r → r.cancelled = true) ∧
        Scheduler.expire withScheduler .fire runFiring id e = e ∨
      ∃ r r', e.scheduler.find? id = some r ∧ r.cancelled = false ∧ r.Stays r' ∧
        Scheduler.expire withScheduler .fire runFiring id e =
          ((({ e with scheduler := e.scheduler.firing .fire r } : Engine).counted id).fire r'.callback.node
            r'.callback.port (r'.callback.seeds (r'.fired + 1) .null)).2 := by
  cases hr : e.scheduler.find? id with
  | none =>
    refine .inl ⟨fun _ hr => (nomatch hr), ?_⟩
    have hr' : (withScheduler.get e).find? id = none := hr
    simp only [Scheduler.expire, hr']
  | some r =>
    have hr' : (withScheduler.get e).find? id = some r := hr
    cases hc : r.cancelled with
    | true =>
      refine .inl ⟨fun x hx => ?_, ?_⟩
      · obtain rfl := Option.some.inj hx
        exact hc
      · simp only [Scheduler.expire, hr', hc, if_true]
    | false =>
      rcases (Scheduler.Grows.firing e.scheduler r).find? id with ⟨x, r', hx, hr'', hstays⟩ | ⟨hnone, -⟩
      · obtain rfl := Option.some.inj (hr.symm.trans hx)
        refine .inr ⟨r, r', rfl, hc, hstays, ?_⟩
        rw [← call_eq (e := { e with scheduler := e.scheduler.firing .fire r }) hr'']
        simp only [Scheduler.expire, hr', hc, Bool.false_eq_true, if_false]
        rfl
      · rw [hr] at hnone
        cases hnone

/-! ## Events and intervals -/

theorem running_fire (e : Engine) (node port : String) (seeds : Dict) :
    (e.fire node port seeds).2.running = e.running := by
  unfold Engine.fire
  split <;> rfl

theorem graph_fire (e : Engine) (node port : String) (seeds : Dict) : (e.fire node port seeds).2.graph = e.graph := by
  unfold Engine.fire
  split <;> rfl

theorem registrations_fire (e : Engine) (node port : String) (seeds : Dict) :
    (e.fire node port seeds).2.scheduler.registrations = e.scheduler.registrations := by
  unfold Engine.fire
  split <;> rfl

/-- Listeners are called one after another. -/
theorem launches_deliver (payload : Value) (regs : List (Registration Firing)) (e : Engine) (hrun : e.running = true)
    (hnodes : ∀ r ∈ regs, e.graph.hasNode r.callback.node = true)
    (hcarried : ∀ r ∈ regs, r.callback.carried = .payload)
    (hfound : ∀ r ∈ regs, ∃ r', e.scheduler.find? r.id = some r' ∧ r'.cancelled = false ∧ r'.callback = r.callback) :
    e.Launches (regs.map fun r => ⟨r.callback.node, r.callback.port, [(.str "payload", payload)]⟩)
      (Scheduler.deliver withScheduler runFiring payload e (regs.map Registration.id)) := by
  induction regs generalizing e with
  | nil => exact .nil rfl rfl rfl
  | cons r rest ih =>
    obtain ⟨hnode, hnodes⟩ := List.forall_mem_cons.mp hnodes
    obtain ⟨hcarry, hcarried⟩ := List.forall_mem_cons.mp hcarried
    obtain ⟨⟨r', hr', hc, hcallback⟩, hfound⟩ := List.forall_mem_cons.mp hfound
    let l : Launch := ⟨r.callback.node, r.callback.port, [(.str "payload", payload)]⟩
    let e₁ : Engine := ((e.counted r.id).fire l.node l.port l.seeds).2
    have hfirst : e.Launches [l] e₁ := by
      have hcounted : e.Launches [] (e.counted r.id) := .nil rfl rfl rfl
      exact hcounted.append (.fire (e := e.counted r.id) hrun hnode)
    have hstep : Scheduler.deliver withScheduler runFiring payload e ((r :: rest).map Registration.id) =
        Scheduler.deliver withScheduler runFiring payload e₁ (rest.map Registration.id) := by
      have hget : (withScheduler.get e).find? r.id = some r' := hr'
      have hseeds : r'.callback.seeds (r'.fired + 1) payload = l.seeds := by
        rw [hcallback, Firing.seeds, hcarry]
      rw [List.map_cons, Scheduler.deliver, List.foldl_cons, hget]
      simp only [hc, Bool.false_eq_true, if_false]
      rw [call_eq hr' payload, hseeds, hcallback]
      rfl
    rw [hstep]
    refine hfirst.append (ih e₁ ?_ ?_ hcarried fun x hx => ?_)
    · exact (running_fire _ _ _ _).trans hrun
    · intro x hx
      rw [show e₁.graph = e.graph from graph_fire _ _ _ _]
      exact hnodes x hx
    · obtain ⟨x', hx', hxc, hxcallback⟩ := hfound x hx
      have hfind : e₁.scheduler.find? x.id = (e.counted r.id).scheduler.find? x.id := by
        rw [Scheduler.find?, Scheduler.find?, registrations_fire]
      rw [find?_counted, hx', Option.map_some] at hfind
      refine ⟨_, hfind, ?_, ?_⟩
      · split
        · exact hxc
        · exact hxc
      · split
        · exact hxcallback
        · exact hxcallback

/-- An event starts one trigger for each of its listeners, in the order in which they were registered. -/
theorem launches_dispatch {e : Engine} (h : e.scheduler.Attuned) (hrun : e.running = true) {name : String}
    (hnodes : ∀ r ∈ e.scheduler.hearing name, e.graph.hasNode r.owner = true) (payload : Value) :
    e.Launches ((e.scheduler.hearing name).map fun r => ⟨r.owner, r.callback.port, [(.str "payload", payload)]⟩)
      (e.dispatch (.str name) payload).2 := by
  have hmem : ∀ r ∈ e.scheduler.hearing name,
      r ∈ e.scheduler.registrations ∧ r.kind = .listener ∧ r.cancelled = false := by
    intro r hr
    obtain ⟨hr, hp⟩ := List.mem_filter.mp hr
    simp only [Bool.and_eq_true, beq_iff_eq, Bool.not_eq_true'] at hp
    exact ⟨hr, hp.1.1, hp.1.2⟩
  have hids := h.listenersFor name
  have hdispatch : (e.dispatch (.str name) payload).2 = Scheduler.deliver withScheduler runFiring payload e
      ((e.scheduler.hearing name).map Registration.id) := by
    have hget : (withScheduler.get e).listenersFor (.str name) = _ := hids
    simp only [Engine.dispatch, Scheduler.dispatch, hget]
  have hlaunches := launches_deliver payload (e.scheduler.hearing name) e hrun (fun r hr => ?_) (fun r hr => ?_)
    fun r hr => ?_
  · rw [hdispatch]
    convert hlaunches using 1
    refine List.map_congr_left fun r hr => ?_
    rw [(h.regular r (hmem r hr).1).node]
  · rw [(h.regular r (hmem r hr).1).node]
    exact hnodes r hr
  · obtain ⟨hr, hk, -⟩ := hmem r hr
    rw [(h.regular r hr).carried, hk]
    rfl
  · obtain ⟨hr, -, hc⟩ := hmem r hr
    exact ⟨r, h.find?_of_mem hr, hc, rfl⟩

end Engine

/-! ## What is kept -/

namespace Scheduler

variable {P : Nat → Prop} {s s' : Scheduler Firing Job}

theorem Spares.count (s : Scheduler Firing Job) (id : Nat) :
    s.Spares (s.modify id fun r => { r with fired := r.fired + 1 }) := .modify s id fun _ => rfl

theorem Act.sound (h : s.Act P s') (hs : s.Sound) : s'.Sound := by
  cases h with
  | soon hj hP => exact hs.soon _
  | wait due hP => exact (Spares.plainTimer s due (j := .timeout _) fun _ _ => nofun).sound hs
  | sleep hP hsleep => exact (Spares.sleep hsleep).sound hs
  | settle i outcome => exact (Spares.settle s i outcome).sound hs
  | endSleep i => exact (ends_endSleep s i).sound hs
  | callLater owner delay port => exact (Spares.callLater s owner delay _).sound hs
  | every owner seconds port => exact (Spares.every s owner seconds _).sound hs
  | listen owner event port => exact (Spares.listen s owner event _).sound hs
  | cancel id => exact (Spares.cancel s id).sound hs
  | hear hids hid => exact (Spares.count s _).sound hs

theorem Spares.firing (s : Scheduler Firing Job) (r : Registration Firing) : s.Spares (s.firing .fire r) := by
  unfold Scheduler.firing
  split
  · exact rearm s r
  · exact forget s r

/-- Whether a scheduler is as engines leave it, and an interval has fired a number of times. -/
structure Tallies (s : Scheduler Firing Job) (id k : Nat) : Prop where
  sound : s.Sound
  attuned : s.Attuned
  counts : s.Counts id k

namespace Tallies

variable {id k : Nat}

theorem acts (h : s.Tallies id k) (ha : s.Acts P s') : s'.Tallies id k := by
  refine ha.induction (I := fun s => s.Tallies id k) (fun s s' h ha => ?_) h
  exact ⟨ha.sound h.sound, h.attuned.act h.sound ha, h.counts.grows (h.attuned.grows ha)⟩

theorem takes (h : s.Tallies id k) {j : Job} {loop : Loop Job} (ht : s.loop.Takes j loop) :
    Tallies { s with loop := loop } id k :=
  ⟨h.sound.takes ht, h.attuned.takes ht, h.counts⟩

/-- A registration fires that is no listener. -/
theorem fires (h : s.Tallies id k) {i : Nat} {r : Registration Firing} (hr : s.find? i = some r)
    (hk : r.kind ≠ .listener) : Tallies ((s.firing .fire r).modify i fun r => { r with fired := r.fired + 1 }) id
      (if i = id ∧ r.kind = .interval then k + 1 else k) := by
  refine ⟨?_, (h.attuned.firing (mem_of_find? hr) hk).call i, h.counts.fires hr⟩
  exact ((Spares.firing s r).trans (.count _ i)).sound h.sound

end Tallies

end Scheduler

/-! ## Steps -/

/-- A step at which an interval expires: the loop takes its job, and it has not been cancelled. -/
def Expires (id : Nat) (t t' : Engine.Turn) : Prop :=
  t.next = none ∧ ∃ loop r, t.engine.scheduler.loop.Takes (.fire id) loop ∧ t.engine.scheduler.find? id = some r ∧
    r.kind = .interval ∧ r.cancelled = false ∧ t' = (t.engine.withLoop loop).handle (.fire id)

section Steps

variable {t t' : Engine.Turn} {id k : Nat}

/-- What an engine does by operations alone. -/
theorem Engine.Does.tallies {P : Nat → Prop} {e e' : Engine} (hd : e.Does P e') (hP : ∀ id, P id)
    (h : e.scheduler.Tallies id k) : e'.scheduler.Tallies id k := h.acts (hd.acts fun id _ _ => hP id)

/-- The loop makes a registration fire: it is not there or is cancelled, or it is called and counted. -/
theorem tallies_fire (h : t.engine.scheduler.Tallies id k) {i : Nat} {loop : Loop Job}
    (ht : t.engine.scheduler.loop.Takes (.fire i) loop) :
    (∀ r, t.engine.scheduler.find? i = some r → r.cancelled = true) ∧
        ((t.engine.withLoop loop).handle (.fire i)).engine.scheduler.Tallies id k ∨
      ∃ r, t.engine.scheduler.find? i = some r ∧ r.cancelled = false ∧
        ((t.engine.withLoop loop).handle (.fire i)).engine.scheduler.Tallies id
          (if i = id ∧ r.kind = .interval then k + 1 else k) := by
  have htaken := h.takes ht
  rcases (t.engine.withLoop loop).expire_cases i with ⟨hoff, heq⟩ | ⟨r, r', hr, hc, -, heq⟩
  · refine .inl ⟨hoff, ?_⟩
    show (Scheduler.expire Engine.withScheduler .fire Engine.runFiring i (t.engine.withLoop loop)).scheduler.Tallies id k
    rw [heq]
    exact htaken
  · refine .inr ⟨r, hr, hc, ?_⟩
    show (Scheduler.expire Engine.withScheduler .fire Engine.runFiring i (t.engine.withLoop loop)).scheduler.Tallies id _
    rw [heq]
    have hk := h.attuned.ne_listener ht hr
    exact (Engine.Does.fire (P := fun _ => True) _ _ _ _).tallies (fun _ => trivial) (htaken.fires hr hk)

/-- An interval is counted when it expires, and at no other step. -/
theorem Beat.tallies [Decidable (Expires id t t')] (hb : Beat t t') (h : t.engine.scheduler.Tallies id k) :
    t'.engine.scheduler.Tallies id (if Expires id t t' then k + 1 else k) := by
  by_cases hexpires : Expires id t t'
  · rw [if_pos hexpires]
    obtain ⟨-, loop, r, ht, hr, hk, hc, rfl⟩ := hexpires
    rcases tallies_fire h ht with ⟨hoff, -⟩ | ⟨x, hx, -, htallies⟩
    · rw [hoff r hr] at hc
      cases hc
    · obtain rfl := Option.some.inj (hr.symm.trans hx)
      rwa [if_pos ⟨rfl, hk⟩] at htallies
  · rw [if_neg hexpires]
    rcases hb.does t.engine.wakes_any fun _ _ _ => trivial with hdoes | ⟨hn, j, loop, ht, ⟨-, hdoes⟩ | ⟨i, rfl, rfl⟩⟩
    · exact hdoes.tallies (fun _ => trivial) h
    · exact hdoes.tallies (fun _ => trivial) (h.takes ht)
    · rcases tallies_fire h ht with ⟨-, htallies⟩ | ⟨r, hr, hc, htallies⟩
      · exact htallies
      · rwa [if_neg] at htallies
        rintro ⟨rfl, hk⟩
        exact hexpires ⟨hn, loop, r, ht, hr, hk, hc, rfl⟩

/-- An interval that expires starts one trigger, which is given how often it has expired. -/
theorem launches_expire (hexpires : Expires id t t') (h : t.engine.scheduler.Tallies id k)
    (hrun : t.engine.running = true) {r : Registration Firing} (hr : t.engine.scheduler.find? id = some r)
    (hnode : t.engine.graph.hasNode r.owner = true) :
    ∃ e : Engine, e.nextStrand = t.engine.nextStrand ∧ e.strands = t.engine.strands ∧
      e.Launches [⟨r.owner, r.callback.port, [(.str "tick", .int (k + 1 : Nat))]⟩] t'.engine := by
  obtain ⟨-, loop, x, ht, hx, hk, hc, rfl⟩ := hexpires
  obtain rfl := Option.some.inj (hr.symm.trans hx)
  have hregular := h.attuned.regular r (Scheduler.mem_of_find? hr)
  have hfired : r.fired = k := by
    have hcounts := h.counts
    rw [Scheduler.Counts, hr] at hcounts
    exact hcounts hk
  rcases (t.engine.withLoop loop).expire_cases id with ⟨hoff, -⟩ | ⟨x, r', hx, -, hstays, heq⟩
  · rw [hoff r hr] at hc
    cases hc
  · obtain rfl := Option.some.inj (hr.symm.trans hx)
    have hcallback : r'.callback.node = r.owner := by rw [hstays.callback, hregular.node]
    have hseeds : r'.callback.seeds (r'.fired + 1) .null = [(.str "tick", .int (k + 1 : Nat))] := by
      rw [Firing.seeds, hstays.callback, hregular.carried, hk, hstays.fired hk, hfired]
      rfl
    rw [hseeds, hcallback, hstays.callback] at heq
    let e : Engine := ({ t.engine.withLoop loop with
      scheduler := (t.engine.withLoop loop).scheduler.firing .fire r } : Engine).counted id
    refine ⟨e, rfl, rfl, ?_⟩
    show e.Launches _ (Scheduler.expire Engine.withScheduler .fire Engine.runFiring id (t.engine.withLoop loop))
    rw [heq]
    exact .fire (e := e) hrun hnode

theorem Opens.tallies (h : Opens t) : t.engine.scheduler.Tallies id 0 := by
  have hsched : ∃ shortest, t.engine.scheduler = { minInterval := shortest } := by
    obtain ⟨config, registry, graph, shortest, requests, -, rfl⟩ := h
    cases requests <;> exact ⟨shortest, rfl⟩
  obtain ⟨shortest, heq⟩ := hsched
  rw [heq]
  exact ⟨.initial shortest, .initial shortest, rfl⟩

end Steps

section Runs

variable {run : Nat → Engine.Turn} {n : Nat}

open Classical in
/-- How often an interval has expired before a state of a run. -/
noncomputable def expiries (run : Nat → Engine.Turn) (id k : Nat) : Nat :=
  Nat.count (fun c => Expires id (run c) (run (c + 1))) k

/-- The engine has counted how often an interval has expired. -/
theorem tallies_run (hopens : Opens (run 0)) (hbeats : ∀ k < n, Beat (run k) (run (k + 1))) (id : Nat) {k : Nat}
    (hk : k ≤ n) : (run k).engine.scheduler.Tallies id (expiries run id k) := by
  classical
  induction k with
  | zero =>
    rw [expiries, Nat.count_zero]
    exact hopens.tallies
  | succ k ih =>
    have hnext := (hbeats k hk).tallies (ih (Nat.le_of_succ_le hk))
    rw [expiries, Nat.count_succ]
    rw [expiries] at hnext
    split
    · next hexpires => rwa [if_pos hexpires] at hnext
    · next hnot => rwa [if_neg hnot] at hnext

end Runs

end Patchbay
