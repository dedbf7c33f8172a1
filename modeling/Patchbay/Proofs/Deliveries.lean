import Mathlib.Tactic.IntervalCases
import Patchbay.Proofs.Containment
import Patchbay.Proofs.Launches
import Patchbay.Proofs.Seeds

/-!
# Deliveries

An event, and each expiry of an interval, starts its triggers on strands of their own, and each of these strands
begins its trigger once: it waits for its first turn, which the loop has a job for; it has that turn; and from then
on it is in the trigger, or over. The trigger begins with the payload of the event, or with how often the interval
has expired, and whatever it pulls from that output of the node later on is what it began with, however many
triggers of the node are under way.

Contents:
* `Launch.Waits`, `Launch.Begins`, `Spent`: the strand of a trigger before, at and after its first turn.
* `Delivered`: a trigger that begins once and pulls what it was given; `Delivers`: a step that starts such triggers.

Results:
* `begins_once`: the first turn of a strand.
* `delivered_once`: events and expiries.
-/

namespace Patchbay

/-! ## The first turn of a strand -/

/-- Whether the strand of a trigger waits for its first turn, which the loop has a job for. -/
structure Launch.Waits (l : Launch) (m : Nat) (t : Engine.Turn) : Prop where
  mem : l.strand m ∈ t.engine.strands
  pending : 0 < t.engine.scheduler.loop.pending (.resume m)

/-- Whether the strand of a trigger is about to begin it. -/
def Launch.Begins (l : Launch) (m : Nat) (t : Engine.Turn) : Prop :=
  t.next = some ({ id := m, frames := [.task m] }, .call l.call)

/-- Whether the strand of a trigger of a node has begun it. -/
inductive Spent (node : String) (m : Nat) (t : Engine.Turn) : Prop
  | goesOn {x : Strand × Parked} (hx : x ∈ t.population) (hid : x.1.id = m) (h : Conducts node .event [.task m] x)
  /-- a fault leaves the trigger -/
  | falls {s : Strand} {pre : List Frame} (hn : t.next = some (s, .raise (.fault .value))) (hid : s.id = m)
      (hf : s.frames = pre ++ [.task m]) (hpre : ∀ f ∈ pre, f.isFlow = true)
  | ended (habsent : ∀ x ∈ t.population, x.1.id ≠ m) (hknown : m < t.engine.nextStrand)

section Steps

variable {t t' : Engine.Turn} {l : Launch} {m : Nat} {node : String}

/-- A strand waits on for its first turn, or has it. -/
theorem Launch.Waits.beat (h : Staffed t) (hb : Beat t t') (hw : l.Waits m t) : l.Waits m t' ∨ l.Begins m t' := by
  rcases hb.track h (Staffed.mem_population hw.mem) with ⟨sig, hn, -, -⟩ | ⟨-, hx, hpending⟩ | ⟨e, -, -, -, rfl⟩
  · have hids := h.ids
    rw [Engine.Turn.population_of_next hn, List.map_cons, List.nodup_cons] at hids
    exact absurd (List.mem_map_of_mem hw.mem) hids.1
  · have hjob : 0 < t'.engine.scheduler.loop.pending (.resume m) := by
      rcases hpending with hcome | hle
      · cases hcome
      · exact hw.pending.trans_le hle
    cases hn : t'.next with
    | none =>
      rw [population_of_none hn] at hx
      exact .inl ⟨hx, hjob⟩
    | some y =>
      rw [Engine.Turn.population_of_next hn] at hx
      rcases List.mem_cons.mp hx with heq | hx
      · obtain ⟨hs, hsig⟩ := Prod.mk.inj heq
        refine .inr ?_
        rw [Launch.Begins, hn, show y = (y.1, y.2) from rfl, ← hs, ← Parked.turn.inj hsig]
      · exact .inl ⟨hx, hjob⟩
  · exact .inr rfl

/-- A trigger from an output of a node begins with its first turn, unless the engine does not run. -/
theorem Engine.startTrigger_event {e : Engine} (hrun : e.running = true) (s : Strand) (node : String)
    (port : Option String) (seeds : Dict) : e.startTrigger s node .event port seeds =
      (e.freshScope.2.emit (.triggerStarted e.nextTrigger node .event)).nest { s with scope := e.seeded node seeds }
        (.trigger node .event) (.walk (e.firstAgenda node port)) := by
  have hseeded : (seeds.foldl (fun sc x => sc.publish node x.1 x.2)
      ({ trigger := e.nextTrigger } : Scope)).trigger = e.nextTrigger := e.seeded_trigger node seeds
  rw [Engine.startTrigger_eq e s node .event port seeds hrun, Fetches.armed_of_ne _ node (by decide)]
  dsimp only
  rw [hseeded]
  cases port <;> rfl

namespace Spent

/-- The first turn of a strand. -/
theorem of_begins (hb : Beat t t') (hbegins : l.Begins m t) : Spent l.node m t' := by
  obtain rfl := hb.play.eq_turn hbegins
  show Spent l.node m (t.engine.startTrigger _ l.node .event (some l.port) l.seeds)
  cases hrun : t.engine.running with
  | true =>
    rw [Engine.startTrigger_event hrun]
    exact .goesOn List.mem_cons_self rfl (.within [] rfl (.of_eq rfl))
  | false =>
    rw [Engine.startTrigger_refused hrun]
    exact .goesOn List.mem_cons_self rfl (.yields rfl rfl)

/-- The strand of a task that comes to its end is over. -/
theorem of_completes (h : Staffed t) {s : Strand} {sig : Signal} (hn : t.next = some (s, sig)) (hid : s.id = m)
    {outcome : Except Raised Response} (heq : t.engine.turn s sig = ⟨t.engine.completeTask m outcome, none⟩) :
    Spent node m (t.engine.turn s sig) := by
  have hcalls := Engine.Calls.completeTask t.engine m outcome
  have hids := h.ids
  rw [Engine.Turn.population_of_next hn, List.map_cons, List.nodup_cons] at hids
  rw [heq]
  refine .ended (fun y hy hym => ?_) ?_
  · have hy' : y ∈ t.engine.strands := hcalls.strands ▸ hy
    exact hids.1 (List.mem_map.mpr ⟨y, hy', hym.trans hid.symm⟩)
  · show m < (t.engine.completeTask m _).nextStrand
    rw [hcalls.nextStrand, ← hid]
    exact h.known _ (Engine.Turn.mem_population_of_next hn)

/-- A strand that has begun its trigger stays in it, or is over. -/
theorem beat (h : Staffed t) (hb : Beat t t') (hsits : ∀ x ∈ t.population, ∃ b, Sits b x) (hs : Spent node m t) :
    Spent node m t' := by
  cases hs with
  | ended habsent hknown => exact .ended (hb.absent hknown habsent) (hknown.trans_le hb.nextStrand_le)
  | @falls s pre hn hid hf hpre =>
    obtain rfl := hb.play.eq_turn hn
    cases pre with
    | nil => exact .of_completes h hn hid (by rw [Engine.turn_raise hf]; rfl)
    | cons f pre =>
      have hflow := hpre f List.mem_cons_self
      have heq : t.engine.turn s (.raise (.fault .value)) =
          t.engine.go { s with frames := pre ++ [.task m] } (.raise (.fault .value)) := by
        rw [Engine.turn_raise hf]
        cases f <;> first | rfl | cases hflow
      rw [heq]
      exact .falls rfl hid rfl fun g hg => hpre g (List.mem_cons_of_mem _ hg)
  | @goesOn x hx hid hc =>
    obtain ⟨s, p⟩ := x
    obtain ⟨b, hsit⟩ := hsits _ hx
    rcases hb.track h hx with ⟨sig, hn, hp, rfl⟩ | ⟨-, hx', -⟩ | ⟨e, -, -, -, rfl⟩
    · obtain rfl : p = .turn sig := hp
      rcases hc.turn (e := t.engine) hsit with ⟨r, rfl, hframes, -⟩ | ⟨-, y, hy, hyid, hyc⟩ | ⟨i, g, agenda, rfl, hf⟩
      · exact .of_completes h hn hid (by rw [Engine.turn_back hframes]; rfl)
      · exact .goesOn hy (hyid.trans hid) hyc
      · have hf : s.frames = [.walk agenda, .trigger node .event] ++ [.task m] := hf
        exact .falls rfl hid hf (by simp [Frame.isFlow])
    · exact .goesOn hx' hid hc
    · exact .goesOn List.mem_cons_self hid (hc.unpark hsit e)

/-- A strand that has begun its trigger begins no other one. -/
theorem ne_of_trigger (h : Staffed t) (hsits : ∀ x ∈ t.population, ∃ b, Sits b x) (hs : Spent node m t) {s : Strand}
    {node' : String} {origin : Origin} {port : Option String} {seeds : Dict}
    (hn : t.next = some (s, .call (.trigger node' origin port seeds))) : s.id ≠ m := by
  have hmem := Engine.Turn.mem_population_of_next hn
  cases hs with
  | ended habsent _ => exact habsent _ hmem
  | falls hn' =>
    rw [hn] at hn'
    cases hn'
  | goesOn hx hid hc =>
    intro hsid
    obtain rfl := h.unique hmem hx (hsid.trans hid.symm)
    obtain ⟨b, hsit⟩ := hsits _ hmem
    exact hc.ne_trigger hsit node' origin port seeds rfl

end Spent

end Steps

/-! ## Runs -/

/-- What the first turn of the strand of a trigger leads to: a trigger of the node, with a scope of its own that holds
what the trigger is given. -/
def Launch.begun (l : Launch) (m : Nat) (e : Engine) : Engine.Turn :=
  (e.freshScope.2.emit (.triggerStarted e.nextTrigger l.node .event)).nest
    { id := m, scope := e.seeded l.node l.seeds, frames := [.task m] } (.trigger l.node .event)
    (.walk (e.firstAgenda l.node (some l.port)))

/-- Whether a trigger that was started on a strand of its own at a step begins once: its strand waits for its first
turn, or has had it, and begins no trigger at any other time. The trigger begins as one of the node, and what it
pulls from the output that it was given is what it was given. -/
def Delivered (run : Nat → Engine.Turn) (a n m : Nat) (l : Launch) : Prop :=
  (∀ k, a < k → k ≤ n → l.Waits m (run k)) ∨
    ∃ b, a < b ∧ b ≤ n ∧ l.Begins m (run b) ∧
      (∀ k, a < k → k ≤ n → ∀ s node origin port seeds,
        (run k).next = some (s, .call (.trigger node origin port seeds)) → s.id = m → k = b) ∧
      (b < n → run (b + 1) = l.begun m (run b).engine) ∧
      ∀ key v, l.seeds = [(.str key, v)] → ∀ c, b < c → c < n → ∀ s,
        (run c).next = some (s, .call (.output l.node key)) → s.scope.trigger = (run b).engine.nextTrigger →
        run (c + 1) = (run c).engine.go s (.back (.pulled v [(.output l.node (.str key), 1)]))

/-- Whether a step starts triggers on strands of their own, one after another, and no others, and each of them is
delivered. -/
structure Delivers (run : Nat → Engine.Turn) (a n : Nat) (ls : List Launch) : Prop where
  launches : ∃ e : Engine, e.nextStrand = (run a).engine.nextStrand ∧ e.strands = (run a).engine.strands ∧
    e.Launches ls (run (a + 1)).engine
  delivered : ∀ i l, ls[i]? = some l → Delivered run a n ((run a).engine.nextStrand + i) l

/-- A step that carries out the command to dispatch an event. -/
theorem Engine.Turn.Carries.dispatch {t t' : Engine.Turn} {event payload : Value}
    (h : t.Carries (.dispatch event payload)) (hb : Beat t t') : t'.engine = (t.engine.dispatch event payload).2 := by
  have hcommand : (t.engine.command (.dispatch event payload)).2 = (t.engine.dispatch event payload).2 := by
    rw [Engine.command_dispatch]
  obtain ⟨s, sig, hn, rfl | ⟨i, k, rfl⟩⟩ := h
  · rw [hb.play.eq_turn hn, ← hcommand]
    show (t.engine.request s (.command (.dispatch event payload))).engine = _
    rw [Engine.request_command]
    rfl
  · rw [hb.play.eq_turn hn, ← hcommand]
    rfl

theorem Engine.hasNode_of_nodeWithKind {e : Engine} {id : String} {x : Node} {K : Kind Behavior}
    (h : e.nodeWithKind id = .ok (x, K)) : e.graph.hasNode id = true := by
  have hfind := Engine.node?_of_nodeWithKind h
  have hid : x.id = id := beq_iff_eq.mp (List.find?_some (p := fun n : Node => n.id == id) hfind)
  exact List.any_eq_true.mpr ⟨x, List.mem_of_find?_eq_some hfind, beq_iff_eq.mpr hid⟩

section Runs

variable {run : Nat → Engine.Turn} {n a m : Nat} {l : Launch}

theorem expiries_succ {id : Nat} (h : Expires id (run a) (run (a + 1))) :
    expiries run id (a + 1) = expiries run id a + 1 := by
  classical
  rw [expiries, Nat.count_succ, if_pos h]
  rfl

/-- A strand has its first turn once. -/
theorem begins_once (hopens : Opens (run 0)) (hbeats : ∀ k < n, Beat (run k) (run (k + 1))) (ha : a < n)
    (hwaits : l.Waits m (run (a + 1))) :
    (∀ k, a < k → k ≤ n → l.Waits m (run k)) ∨
      ∃ b, a < b ∧ b ≤ n ∧ (∀ k, a < k → k < b → l.Waits m (run k)) ∧ l.Begins m (run b) ∧
        ∀ k, b < k → k ≤ n → Spent l.node m (run k) := by
  -- by induction on the number of steps after the start
  induction n, ha using Nat.le_induction with
  | base =>
    refine .inl fun k hak hka => ?_
    obtain rfl : k = a + 1 := by omega
    exact hwaits
  | succ n han ih =>
    have hstaffed := staffed_run hopens hbeats (Nat.le_succ n)
    have hlast := hbeats n (Nat.lt_succ_self n)
    rcases ih fun k hk => hbeats k (Nat.lt_succ_of_lt hk) with hall | ⟨b, hab, hbn, hbefore, hbegins, hafter⟩
    · rcases (hall n han le_rfl).beat hstaffed hlast with hwaits' | hbegins
      · refine .inl fun k hak hkn => ?_
        rcases Nat.le_succ_iff.mp hkn with hkn | rfl
        · exact hall k hak hkn
        · exact hwaits'
      · exact .inr ⟨n + 1, Nat.lt_succ_of_lt han, le_rfl, fun k hak hkn => hall k hak (Nat.lt_succ_iff.mp hkn), hbegins,
          fun k hnk hkn => absurd hnk (Nat.not_lt.mpr hkn)⟩
    · refine .inr ⟨b, hab, Nat.le_succ_of_le hbn, hbefore, hbegins, fun k hbk hkn => ?_⟩
      rcases Nat.le_succ_iff.mp hkn with hkn | rfl
      · exact hafter k hbk hkn
      · rcases Nat.lt_or_eq_of_le hbn with hbn | rfl
        · exact (hafter n hbn le_rfl).beat hstaffed hlast (sits_run hopens hbeats (Nat.le_succ n))
        · exact .of_begins hlast hbegins

/-- A trigger that was started at a step, while its node stays in the graph with a kind whose behaviour publishes
nothing. -/
theorem Engine.Launches.delivered (hopens : Opens (run 0)) (hbeats : ∀ k < n, Beat (run k) (run (k + 1))) (ha : a < n)
    (hrun : ∀ k, a < k → k ≤ n → (run k).engine.running = true) {e : Engine} {ls : List Launch}
    (hlaunches : e.Launches ls (run (a + 1)).engine) {i : Nat} (hi : ls[i]? = some l) {K : Kind Behavior} (hK : K.Quiet)
    (hkey : ∀ key v, l.seeds = [(.str key, v)] → (K.outputPort key).isSome = true)
    (hnode : ∀ k, a < k → k ≤ n → ∃ x, (run k).engine.nodeWithKind l.node = .ok (x, K)) :
    Delivered run a n (e.nextStrand + i) l := by
  have hplays : ∀ k < n, Play (run k) (run (k + 1)) := fun k hk => (hbeats k hk).play
  have hwaits : l.Waits (e.nextStrand + i) (run (a + 1)) := ⟨hlaunches.mem hi, hlaunches.pending hi⟩
  refine (begins_once hopens hbeats ha hwaits).imp_right ?_
  rintro ⟨b, hab, hbn, hbefore, hbegins, hafter⟩
  refine ⟨b, hab, hbn, hbegins, fun k hak hkn s node origin port seeds hn hid => ?_, fun hbn => ?_,
    fun key v hseeds c hbc hcn s hn hT => ?_⟩
  · rcases Nat.lt_trichotomy k b with hkb | hkb | hbk
    · -- a strand that waits for its turn has none
      have hstaffed := staffed_run hopens hbeats hkn
      have hids := hstaffed.ids
      rw [Engine.Turn.population_of_next hn, List.map_cons, List.nodup_cons] at hids
      exact absurd (List.mem_map.mpr ⟨_, (hbefore k hak hkb).mem, hid.symm⟩) hids.1
    · exact hkb
    · exact absurd hid ((hafter k hbk hkn).ne_of_trigger (staffed_run hopens hbeats hkn) (sits_run hopens hbeats hkn) hn)
  · rw [(hplays b hbn).eq_turn hbegins]
    show (run b).engine.startTrigger _ l.node .event (some l.port) l.seeds = _
    exact Engine.startTrigger_event (hrun b hab hbn.le) _ _ _ _
  · have hstart : (run b).next = some ({ id := e.nextStrand + i, frames := [.task (e.nextStrand + i)] },
        .call (.trigger l.node .event (some l.port) [(.str key, v)])) := hseeds ▸ hbegins
    exact pulled_run hopens hplays hbc hcn hstart rfl hK (hkey key v hseeds)
      (fun k hbk hkc => hnode k (hab.trans hbk) (hkc.trans hcn.le)) hn hT

/-- Events and ticks are delivered once each and are not mixed up. While the engine runs and the nodes stay in the
graph, an event starts one trigger for each listener that is registered for its name at the moment, in the order of
registration, and an interval that expires starts one; each of these triggers begins once, and what it pulls from
the output that carries the payload, or the tick, is the payload of the event, or the number of times that the
interval has expired by then. -/
theorem delivered_once (hopens : Opens (run 0)) (hbeats : ∀ k < n, Beat (run k) (run (k + 1))) (ha : a < n)
    (hrun : ∀ k, a ≤ k → k ≤ n → (run k).engine.running = true) :
    (∀ name payload K, (run a).Carries (.dispatch (.str name) payload) → Library.listener.build = .ok K →
      (∀ r ∈ (run a).engine.scheduler.hearing name, ∀ k, a ≤ k → k ≤ n →
        ∃ x, (run k).engine.nodeWithKind r.owner = .ok (x, K)) →
      Delivers run a n (((run a).engine.scheduler.hearing name).map fun r =>
        ⟨r.owner, r.callback.port, [(.str "payload", payload)]⟩)) ∧
    ∀ id r K, Expires id (run a) (run (a + 1)) → (run a).engine.scheduler.find? id = some r →
      Library.interval.build = .ok K →
      (∀ k, a ≤ k → k ≤ n → ∃ x, (run k).engine.nodeWithKind r.owner = .ok (x, K)) →
      Delivers run a n [⟨r.owner, r.callback.port, [(.str "tick", .int (expiries run id (a + 1) : Nat))]⟩] := by
  have hrun' : ∀ k, a < k → k ≤ n → (run k).engine.running = true := fun k hak => hrun k hak.le
  have htallies := fun id => tallies_run hopens hbeats id ha.le
  constructor
  · intro name payload K hcarries hK hnodes
    have howners : ∀ r ∈ (run a).engine.scheduler.hearing name, (run a).engine.graph.hasNode r.owner = true :=
      fun r hr => (hnodes r hr a le_rfl ha.le).elim fun _ hx => Engine.hasNode_of_nodeWithKind hx
    have hlaunches := Engine.launches_dispatch (htallies 0).attuned (hrun a le_rfl ha.le) howners payload
    rw [← hcarries.dispatch (hbeats a ha)] at hlaunches
    refine ⟨⟨_, rfl, rfl, hlaunches⟩, fun i l hi => ?_⟩
    obtain ⟨r, hr, rfl⟩ := List.mem_map.mp (List.mem_of_getElem? hi)
    refine hlaunches.delivered hopens hbeats ha hrun' hi (quiet_of_listener hK) (fun key v hseeds => ?_)
      fun k hak hkn => hnodes r hr k hak.le hkn
    obtain rfl := Value.str.inj (Prod.mk.inj (List.cons.inj hseeds).1).1
    exact Declaration.outputPort_of_build hK rfl
  · intro id r K hexpires hr hK hnodes
    obtain ⟨x, hx⟩ := hnodes a le_rfl ha.le
    obtain ⟨e, hstrand, hstrands, hlaunches⟩ := launches_expire hexpires (htallies id) (hrun a le_rfl ha.le) hr
      (Engine.hasNode_of_nodeWithKind hx)
    rw [show expiries run id a + 1 = expiries run id (a + 1) from (expiries_succ hexpires).symm] at hlaunches
    refine ⟨⟨e, hstrand, hstrands, hlaunches⟩, fun i l hi => ?_⟩
    obtain rfl := List.mem_singleton.mp (List.mem_of_getElem? hi)
    rw [← hstrand]
    refine hlaunches.delivered hopens hbeats ha hrun' hi (quiet_of_interval hK) (fun key v hseeds => ?_)
      fun k hak hkn => hnodes k hak.le hkn
    obtain rfl := Value.str.inj (Prod.mk.inj (List.cons.inj hseeds).1).1
    exact Declaration.outputPort_of_build hK rfl

end Runs

/-! ## Two events and two ticks -/

/-- A session with an interval and a listener, whose payload is logged. Two events are dispatched at once, and then
the interval expires twice. -/
def chimeSession : Engine.Turn :=
  opening (.initial {}
    { kinds := [Library.start, Library.interval, Library.listener, Library.log].filterMap fun d => d.build.toOption }
    { nodes := [{ serial := 0, id := "s", kind := "event.start" },
        { serial := 1, id := "i", kind := "time.interval", literals := [("ms", .int 20)] },
        { serial := 2, id := "e", kind := "event.listen", literals := [("name", .str "go")] },
        { serial := 3, id := "l", kind := "debug.log" }]
      edges := [⟨"e", "exec", "l", "exec"⟩, ⟨"e", "payload", "l", "message"⟩]
      nextSerial := 4 } 0.01)
    [.run, .command (.dispatch (.str "go") (.int 1)), .command (.dispatch (.str "go") (.int 2)), .advance (.int 50)]

/-- The state after a number of steps of that session. -/
def chimed (n : Nat) : Engine.Turn := (follow n (chimeSession, fun _ => {})).1

set_option maxRecDepth 2048 in
/-- The second event has the payload 2, and the second tick is 2. -/
theorem delivered_once_chimed :
    (chimed 41).Carries (.dispatch (.str "go") (.int 2)) ∧
      Delivers chimed 41 68 [⟨"e", "exec", [(.str "payload", .int 2)]⟩] ∧
    Expires 0 (chimed 87) (chimed 88) ∧
      Delivers chimed 87 90 [⟨"i", "exec", [(.str "tick", .int 2)]⟩] := by
  have hopens : Opens (chimed 0) := by
    show Opens chimeSession
    exact ⟨_, _, _, _, _, ⟨by decide +kernel, by decide +kernel⟩, rfl⟩
  have hgoes : ∀ k < 90, (Engine.advance (chimed k)).isSome = true := by decide +kernel
  have hbeats : ∀ k < 90, Beat (chimed k) (chimed (k + 1)) := fun k hk => .of_advance (advance_follow (hgoes k hk))
  have hrun : ∀ k ≤ 90, 41 ≤ k → (chimed k).engine.running = true := by decide +kernel
  obtain ⟨K, L, hK, hL⟩ : ∃ K L, Library.listener.build = .ok K ∧ Library.interval.build = .ok L := by
    with_unfolding_all exact ⟨_, _, rfl, rfl⟩
  have hcarries : (chimed 41).Carries (.dispatch (.str "go") (.int 2)) := by
    with_unfolding_all exact ⟨_, _, rfl, .inl rfl⟩
  have hlistens : ∀ k, 41 ≤ k → k ≤ 68 → ∃ x, (chimed k).engine.nodeWithKind "e" = .ok (x, K) := by
    obtain rfl := Except.ok.inj hK
    intro k hk hk'
    interval_cases k <;> with_unfolding_all exact ⟨_, rfl⟩
  have hticks : ∀ k, 87 ≤ k → k ≤ 90 → ∃ x, (chimed k).engine.nodeWithKind "i" = .ok (x, L) := by
    obtain rfl := Except.ok.inj hL
    intro k hk hk'
    interval_cases k <;> with_unfolding_all exact ⟨_, rfl⟩
  have hexpires : Expires 0 (chimed 87) (chimed 88) := by
    obtain ⟨loop, hn, hclosed, hnext, r, hr, hkind, hoff⟩ : ∃ loop, (chimed 87).next = none ∧
        (chimed 87).engine.closed = false ∧ (chimed 87).engine.scheduler.loop.next? = some (.fire 0, loop) ∧
        ∃ r, (chimed 87).engine.scheduler.find? 0 = some r ∧ r.kind = .interval ∧ r.cancelled = false := by
      with_unfolding_all exact ⟨_, rfl, rfl, rfl, _, rfl, rfl, rfl⟩
    refine ⟨hn, loop, r, Loop.takes_next? hnext, hr, hkind, hoff, ?_⟩
    have hadvance := advance_follow (hgoes 87 (by decide))
    rw [← chimed, Engine.advance, hn, hclosed, hnext] at hadvance
    exact (Option.some.inj hadvance).symm
  refine ⟨hcarries, ?_, hexpires, ?_⟩
  · -- the event
    obtain ⟨r, hhearing, howner, hport⟩ : ∃ r, (chimed 41).engine.scheduler.hearing "go" = [r] ∧ r.owner = "e" ∧
        r.callback.port = "exec" := by
      with_unfolding_all exact ⟨_, rfl, rfl, rfl⟩
    have hdelivers := (delivered_once hopens (n := 68) (fun k hk => hbeats k (by omega)) (a := 41) (by decide)
      (fun k hk hk' => hrun k (by omega) hk)).1 "go" (.int 2) K hcarries hK ?_
    · rw [hhearing, List.map_singleton, howner, hport] at hdelivers
      exact hdelivers
    · intro r' hr' k hk hk'
      rw [hhearing] at hr'
      rw [List.mem_singleton.mp hr', howner]
      exact hlistens k hk hk'
  · -- the tick
    obtain ⟨r, hr, howner, hport⟩ : ∃ r, (chimed 87).engine.scheduler.find? 0 = some r ∧ r.owner = "i" ∧
        r.callback.port = "exec" := by
      with_unfolding_all exact ⟨_, rfl, rfl, rfl⟩
    have hcount : expiries chimed 0 88 = 2 := by
      obtain ⟨r, hr, hkind, hfired⟩ : ∃ r, (chimed 88).engine.scheduler.find? 0 = some r ∧ r.kind = .interval ∧
          r.fired = 2 := by
        with_unfolding_all exact ⟨_, rfl, rfl, rfl⟩
      have hcounts := (tallies_run hopens hbeats 0 (k := 88) (by decide)).counts
      rw [Scheduler.Counts, hr] at hcounts
      exact (hcounts hkind).symm.trans hfired
    have hdelivers := (delivered_once hopens hbeats (a := 87) (by decide)
      (fun k hk hk' => hrun k hk' (by omega))).2 0 r L hexpires hr hL fun k hk hk' => by
        rw [howner]
        exact hticks k hk hk'
    rw [hcount, howner, hport] at hdelivers
    exact hdelivers

end Patchbay
