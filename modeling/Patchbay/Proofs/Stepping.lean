import Patchbay.Proofs.Rounds

/-!
# Steps

A request for a step runs one trigger, of the first queued node that is still there. While nodes are queued the
engine runs, so the trigger begins; it ends with a result, whatever its behaviours do, and the result is that it was
cancelled only when the engine was stopped meanwhile. There is no other error than that there is nothing to start
from, as long as listeners wait for names, the kind of start nodes is a text and no behaviour raises an error whose
text cannot be written.

Contents:
* `Engine.Turn.Triggers`, `AtWork`: a trigger in progress, the only one of its strand.
* `Stepped`: how a request for a step fares.

Results:
* `Within.beat`: what one step does to a trigger that has begun.
* `trigger_run`: a trigger that can begin goes on until it yields its result.
* `steps_fair`: every request for a step, and every round of them.
* `step_raises_unwritten`: two requests that raise another error.
-/

namespace Patchbay

variable {t t' : Engine.Turn} {node : String} {origin : Origin} {base : List Frame}

/-! ## Triggers in progress -/

/-- Whether a strand is about to begin a trigger. -/
def Engine.Turn.Triggers (t : Engine.Turn) (id : Nat) : Prop :=
  ∃ s node origin port seeds, t.next = some (s, .call (.trigger node origin port seeds)) ∧ s.id = id

/-- Whether the trigger of a node is in progress that the strand `s` has begun. The strand begins no other one, and
something is left to run. -/
structure AtWork (t : Engine.Turn) (s : Strand) (node : String) (origin : Origin) : Prop where
  within : ∃ x ∈ t.population, x.1.id = s.id ∧ Within node origin s.frames x
  only : ¬t.Triggers s.id
  busy : ¬t.Idle

/-- A trigger that is in progress has something left to run. -/
theorem Within.busy (h : Staffed t) (hsits : ∀ x ∈ t.population, ∃ b, Sits b x) (hr : Roused t) {s : Strand}
    {x : Strand × Parked} (hx : x ∈ t.population) (hid : x.1.id = s.id) (hw : Within node origin s.frames x) :
    AtWork t s node origin := by
  obtain ⟨b, hsit⟩ := hsits x hx
  have hc : Conducts node origin s.frames x := .of_within hw
  refine ⟨⟨x, hx, hid, hw⟩, ?_, fun hidle => ?_⟩
  · rintro ⟨s', node', origin', port, seeds, hn, hid'⟩
    obtain rfl := h.unique (Engine.Turn.mem_population_of_next hn) hx (hid'.trans hid.symm)
    exact hc.ne_trigger hsit node' origin' port seeds rfl
  · rw [population_of_none hidle.1] at hx
    obtain ⟨hturn, hsleep⟩ := hr.of_idle hidle hx
    rcases hc.parked hsit with ⟨sig, hp⟩ | ⟨i, hp⟩
    · exact hturn sig hp
    · exact hsleep i hp

/-- What one step does to a trigger that has begun: it goes on, or its result goes to what the strand had in progress
before, or an error without a text is about to leave it. It was cancelled only if the engine is stopped. -/
theorem Within.beat (h : Staffed t) (hb : Beat t t') (hsits : ∀ x ∈ t.population, ∃ b, Sits b x)
    {x : Strand × Parked} (hx : x ∈ t.population) (hw : Within node origin base x) :
    (∃ y ∈ t'.population, y.1.id = x.1.id ∧ Within node origin base y) ∨
      (∃ (s : Strand) (r : TriggerResult), t'.next = some (s, .back (.response (.trigger r))) ∧ s.id = x.1.id ∧
        s.frames = base ∧ r.origin = node ∧ (r.status = .cancelled → t.engine.running = false)) ∨
      t.Spills { x.1 with frames := base } node origin := by
  obtain ⟨s, p⟩ := x
  obtain ⟨b, hsit⟩ := hsits _ hx
  obtain ⟨pre, hf, hc⟩ := hw
  rcases hb.track h hx with ⟨sig, hn, rfl, rfl⟩ | ⟨-, hx', -⟩ | ⟨e, -, -, -, rfl⟩
  · rcases (Conducts.turn_within (e := t.engine) hf hc hsit).2 with ⟨y, hy, hid, hy'⟩ | ⟨error, hends⟩ | hspills
    · exact .inl ⟨y, hy, hid, hy'⟩
    · rw [hends]
      refine .inr (.inl ⟨_, _, rfl, rfl, rfl, rfl, fun hcancelled => ?_⟩)
      cases hrun : t.engine.running with
      | false => rfl
      | true => cases error <;> simp [hrun] at hcancelled
    · exact .inr (.inr ⟨s, sig, hn, rfl, hspills⟩)
  · exact .inl ⟨_, hx', rfl, pre, hf, hc⟩
  · rcases (Conducts.within pre hf hc).parked hsit with ⟨sig, rfl⟩ | ⟨i, rfl⟩
    · exact .inl ⟨_, List.mem_cons_self, rfl, pre, hf, hc⟩
    · exact .inl ⟨_, List.mem_cons_self, rfl, pre, hf, .of_eq rfl⟩

namespace Engine

variable {e : Engine}

/-- A node that is there can be set up when the events of all registrations may be keys. -/
theorem armed_ok (h : e.scheduler.Tidy) (hk : ∀ r ∈ e.scheduler.active none, r.event.hashable = true)
    (hnode : e.graph.hasNode node = true) (origin : Origin) : (e.armed node origin).1 = .ok () := by
  unfold armed
  split
  · rw [Graph.hasNode_eq_isSome, Option.isSome_iff_exists] at hnode
    obtain ⟨n, hn⟩ := hnode
    simp only [Graph.requireNode, hn]
    exact disarm_ok h hk n
  · rfl

/-- A trigger begins whose node can be set up. -/
theorem within_startTrigger (s : Strand) (hrun : e.running = true) (harmed : (e.armed node origin).1 = .ok ()) :
    ∃ x ∈ (e.startTrigger s node origin none []).population, x.1.id = s.id ∧ Within node origin s.frames x := by
  rw [← armed_freshScope] at harmed
  rw [startTrigger_eq e s node origin none [] hrun]
  generalize e.freshScope.2.armed node origin = armed at harmed ⊢
  obtain ⟨result, e₁⟩ := armed
  obtain rfl : result = .ok () := harmed
  exact ⟨_, List.mem_cons_self, rfl, [], rfl, .of_eq rfl⟩

theorem step_of_error {e' : Engine} {err : Raised} (h : e.sought = (.error err, e')) (s : Strand) :
    e.step s = e'.go s (.raise err) := by
  unfold sought at h
  unfold step
  cases hnext : e.nextStep with
  | error err =>
    rw [hnext] at h
    obtain ⟨herr, rfl⟩ := Prod.mk.inj h
    rw [← Except.error.inj herr]
    rfl
  | ok found =>
    rw [hnext] at h
    cases (Prod.mk.inj h).1

theorem step_of_ok {e' : Engine} {id : String} (h : e.sought = (.ok id, e')) (s : Strand) :
    ∃ origin, e.step s = e'.go s (.call (.trigger id origin none [])) := by
  unfold sought at h
  unfold step
  cases hnext : e.nextStep with
  | error err =>
    rw [hnext] at h
    cases (Prod.mk.inj h).1
  | ok found =>
    rw [hnext] at h
    obtain ⟨hid, rfl⟩ := Prod.mk.inj h
    rw [← Except.ok.inj hid]
    exact ⟨_, rfl⟩

/-- The node that is found is there, and the engine runs. -/
theorem there_of_sought (hl : e.Live) {e' : Engine} {id : String} (h : e.sought = (.ok id, e')) :
    e'.graph.hasNode id = true ∧ e'.running = true := by
  have hseeks := h ▸ e.seeks
  cases hseeks with
  | queued hq hgone hid => exact ⟨hid, hl (by rw [hq]; simp)⟩
  | fills _ _ _ hid => exact ⟨(grows_beginRun e).nodes _ hid, rfl⟩

end Engine

/-! ## Every trigger that can begin -/

section Runs

variable {run : Nat → Engine.Turn} {n a : Nat} {s : Strand}

/-- Whether a trigger that the strand `s` begins at `a` goes on up to `n`, or yields its result before, or an error
whose text cannot be written leaves it as a fault. It was cancelled only if the engine was stopped meanwhile. -/
def Fares (run : Nat → Engine.Turn) (a n : Nat) (s : Strand) (node : String) (origin : Origin) : Prop :=
  (∀ i, a < i → i ≤ n → AtWork (run i) s node origin) ∨
    (∃ (j : Nat) (r : TriggerResult), a < j ∧ j ≤ n ∧ (∀ i, a < i → i < j → AtWork (run i) s node origin) ∧
      (run j).Resumes s (.back (.response (.trigger r))) ∧ r.origin = node ∧
      (r.status = .cancelled → ∃ c, a < c ∧ c < j ∧ (run c).CallsStop)) ∨
    ∃ c, a < c ∧ c < n ∧ (∀ i, a < i → i ≤ c → AtWork (run i) s node origin) ∧ (run c).Spills s node origin ∧
      (c + 3 ≤ n → (run (c + 3)).Resumes s (.raise (.fault .value)))

/-- An engine that runs goes on unless it is stopped. -/
theorem stop_of_running (hbeats : ∀ k < n, Beat (run k) (run (k + 1))) (hrun : (run a).engine.running = true) {b : Nat}
    (hab : a ≤ b) (hbn : b ≤ n) (hb : (run b).engine.running = false) : ∃ c, a ≤ c ∧ c < b ∧ (run c).CallsStop := by
  by_contra hnone
  have hnone : ∀ c, a ≤ c → c < b → ¬(run c).CallsStop := fun c hac hcb hstop => hnone ⟨c, hac, hcb, hstop⟩
  have hruns : ∀ b, a ≤ b → b ≤ n → (∀ c, a ≤ c → c < b → ¬(run c).CallsStop) → (run b).engine.running = true := by
    intro b hab
    induction b, hab using Nat.le_induction with
    | base => exact fun _ _ => hrun
    | succ b hab ih =>
      intro hbn hstop
      exact (hbeats b hbn).running (hstop b hab (Nat.lt_succ_self b))
        (ih (Nat.le_of_succ_le hbn) fun c hac hcb => hstop c hac (Nat.lt_succ_of_lt hcb))
  rw [hruns b hab hbn hnone] at hb
  cases hb

/-- A trigger that can begin goes on until it yields its result, or an error without a text leaves it. -/
theorem trigger_run (hopens : Opens (run 0)) (hbeats : ∀ k < n, Beat (run k) (run (k + 1))) (ha : a < n)
    (hcall : (run a).next = some (s, .call (.trigger node origin none [])))
    (hrun : (run a).engine.running = true) (harmed : ((run a).engine.armed node origin).1 = .ok ()) :
    Fares run a n s node origin := by
  have hturn := (hbeats a ha).play.eq_turn hcall
  have hatwork : ∀ {k}, k ≤ n → (∃ x ∈ (run k).population, x.1.id = s.id ∧ Within node origin s.frames x) →
      AtWork (run k) s node origin := by
    rintro k hk ⟨x, hx, hid, hw⟩
    exact hw.busy (staffed_run hopens hbeats hk) (sits_run hopens hbeats hk) (roused_run hopens hbeats hk) hx hid
  -- the trigger does not begin with a stop
  have hfirst : ¬(run a).CallsStop := by
    rw [Engine.Turn.callsStop_iff]
    rintro ⟨c, ⟨s', sig, hn, hsig⟩, -⟩
    obtain ⟨rfl, rfl⟩ := Prod.mk.inj (Option.some.inj (hcall.symm.trans hn))
    rcases hsig with hsig | ⟨i, k, hsig⟩ <;> cases hsig
  -- by induction on the number of steps after the call
  have hgoes : ∀ m, a < m → m ≤ n → Fares run a m s node origin := by
    intro m ham
    induction m, ham using Nat.le_induction with
    | base =>
      intro hm
      refine .inl fun i hai him => ?_
      obtain rfl : i = a + 1 := Nat.le_antisymm him hai
      refine hatwork hm ?_
      rw [hturn]
      exact Engine.within_startTrigger s hrun harmed
    | succ m ham ih =>
      intro hm
      rcases ih (Nat.le_of_succ_le hm) with hgoes | ⟨j, r, haj, hjm, hdone⟩ | ⟨c, hac, hcm, hgoes, hspills, -⟩
      · obtain ⟨x, hx, hid, hw⟩ := (hgoes m ham le_rfl).within
        rcases hw.beat (staffed_run hopens hbeats (Nat.le_of_succ_le hm)) (hbeats m hm)
          (sits_run hopens hbeats (Nat.le_of_succ_le hm)) hx with
          ⟨y, hy, hyid, hwy⟩ | ⟨s', r, hn, hsid, hframes, hr, hstatus⟩ | hspills
        · refine .inl fun i hai him => ?_
          rcases Nat.le_succ_iff.mp him with him | rfl
          · exact hgoes i hai him
          · exact hatwork hm ⟨y, hy, hyid.trans hid, hwy⟩
        · refine .inr (.inl ⟨m + 1, r, Nat.lt_succ_of_lt ham, le_rfl,
            fun i hai him => hgoes i hai (Nat.lt_succ_iff.mp him), ⟨s', hn, hsid.trans hid, hframes⟩, hr,
            fun hcancelled => ?_⟩)
          obtain ⟨c, hac, hcm, hstop⟩ := stop_of_running hbeats hrun (Nat.le_of_succ_le ham)
            (Nat.le_of_succ_le hm) (hstatus hcancelled)
          rcases Nat.eq_or_lt_of_le hac with rfl | hac
          · exact absurd hstop hfirst
          · exact ⟨c, hac, Nat.lt_succ_of_lt hcm, hstop⟩
        · obtain ⟨s', sig, hn, hsid, hspills⟩ := hspills
          exact .inr (.inr ⟨m, ham, Nat.lt_succ_self m, hgoes, ⟨s', sig, hn, hsid.trans hid, hspills⟩,
            fun hle => absurd hle (by omega)⟩)
      · exact .inr (.inl ⟨j, r, haj, Nat.le_succ_of_le hjm, hdone⟩)
      · refine .inr (.inr ⟨c, hac, Nat.lt_succ_of_lt hcm, hgoes, hspills, fun hle => ?_⟩)
        exact hspills.resumes (hbeats c (by omega)) (hbeats (c + 1) (by omega)) (hbeats (c + 2) (by omega))
  exact hgoes n ha le_rfl

/-! ## Every request for a step -/

/-- How a request for a step fares that the strand `s` makes at `a`: the search ends, and there is nothing to start
from; or the first node that is left is run, by one trigger. -/
inductive Stepped (run : Nat → Engine.Turn) (a n : Nat) (s : Strand) : Prop
  | refused {text : String} (hgone : (run a).engine.Exhausted)
      (hstarts : (run a).engine.graph.ofKind (run a).engine.config.startKind = [])
      (hsearch : (run a).engine.Search none (.error (.cause (.nothingToStart text)), (run (a + 1)).engine))
      (hraises : (run (a + 1)).next = some (s, .raise (.cause (.nothingToStart text))))
  | runs {gone rest : List String} {id : String} {origin : Origin} (hran : (run a).ran = some id)
      (hfirst : (run a).engine.stepQueue = gone ++ id :: rest ∨
        (run a).Fills ∧ (run a).engine.stepQueue = gone ∧ (run a).engine.round = id :: rest)
      (hgone : ∀ x ∈ gone, (run a).engine.graph.hasNode x = false) (hid : (run a).engine.graph.hasNode id = true)
      (hsearch : (run a).engine.Search none (.ok id, (run (a + 1)).engine))
      (hcall : (run (a + 1)).next = some (s, .call (.trigger id origin none [])))
      (hfares : a + 1 < n → Fares run (a + 1) n s id origin)

theorem stepped_run (hopens : Opens (run 0)) (hbeats : ∀ k < n, Beat (run k) (run (k + 1)))
    (hnamed : ∀ k ≤ n, (run k).engine.scheduler.Named) {text : String}
    (htext : (run 0).engine.config.startKind.toText = .ok text) (ha : a < n)
    (hcall : (run a).next = some (s, .call (.request .step))) : Stepped run a n s := by
  have hasks : (run a).AsksStep := ⟨s, hcall⟩
  have hturn : run (a + 1) = (run a).engine.step s := (hbeats a ha).play.eq_turn hcall
  have hengine := (hbeats a ha).engine_of_asksStep hasks
  have hlive := live_run hopens hbeats hnamed ha.le
  rcases hfound : (run a).engine.sought with ⟨result, e'⟩
  obtain rfl : (run (a + 1)).engine = e' := by rw [hengine, hfound]
  have hsearch := Engine.search_iff.mpr hfound.symm
  have hseeks := hfound ▸ (run a).engine.seeks
  cases result with
  | error err =>
    rw [Engine.step_of_error hfound] at hturn
    obtain ⟨hgone, hstarts, herr⟩ : (run a).engine.Exhausted ∧
        (run a).engine.graph.ofKind (run a).engine.config.startKind = [] ∧ (run a).engine.entryPoints = .error err := by
      generalize (run (a + 1)).engine = e' at hseeks
      cases hseeks with
      | refused hgone hstarts herr => exact ⟨hgone, hstarts, herr⟩
    obtain ⟨err', herr', hwritten⟩ := Engine.entryPoints_of_nil hstarts
    obtain rfl : err = err' := Except.error.inj (herr.symm.trans herr')
    obtain rfl := hwritten text (by rw [config_run hbeats ha.le]; exact htext)
    exact .refused hgone hstarts hsearch (by rw [hturn]; rfl)
  | ok id =>
    obtain ⟨origin, hstep⟩ := Engine.step_of_ok hfound s
    rw [hstep] at hturn
    have hnext : (run (a + 1)).next = some (s, .call (.trigger id origin none [])) := by rw [hturn]; rfl
    obtain ⟨hthere, hrun⟩ := Engine.there_of_sought hlive hfound
    have hran : (run a).ran = some id := by
      rw [Engine.Turn.ran, if_pos (Engine.Turn.asksStep_iff.mpr hasks), hfound]
      rfl
    have hkempt := (reachable_run hopens (fun k hk => (hbeats k hk).play) ha).kempt
    have hattuned := (tallies_run hopens hbeats 0 ha).attuned
    have hhashable := (hnamed (a + 1) ha).hashable hattuned hkempt.scheduler
    have harmed := Engine.armed_ok hkempt.scheduler hhashable hthere origin
    have hfares : a + 1 < n → Fares run (a + 1) n s id origin := fun hlt =>
      trigger_run hopens hbeats hlt hnext hrun harmed
    generalize (run (a + 1)).engine = e' at hseeks
    cases hseeks with
    | queued hq hgone hid => exact .runs hran (.inl hq) hgone hid hsearch hnext hfares
    | fills hgone hstarts hround hid =>
      exact .runs hran (.inr ⟨⟨hasks, hgone, hstarts⟩, rfl, hround⟩) hgone hid hsearch hnext hfares

end Runs

/-! ## A node that is removed before its turn -/

/-- Requests for steps through a start node and two event nodes, of which one is removed before its turn. -/
def strideSession : Engine.Turn :=
  opening (.initial {}
    { kinds := [.sketch "event.start" .event [] [Library.leads "exec"] none,
        .sketch "alarm" .event [] [Library.leads "exec"] none] }
    { nodes := [{ serial := 0, id := "a", kind := "alarm" }, { serial := 1, id := "s", kind := "event.start" },
        { serial := 2, id := "b", kind := "alarm" }]
      nextSerial := 3 } 0.01)
    [.step, .command (.removeNode "a"), .step, .step]

/-- The state after a number of steps of that session. -/
def strode (n : Nat) : Engine.Turn := (follow n (strideSession, fun _ => {})).1

/-- A behaviour that looks up a missing key with too many digits: the error has no text. -/
def fumbling : Behavior := fun _ => .fail (.mute .key)

/-- A session that asks for a step, on a graph of a start node and a node with that behaviour behind it. -/
def fumbleSession (startKind : Value) : Engine.Turn :=
  opening (.initial { startKind := startKind }
    { kinds := [.sketch "event.start" .event [] [Library.leads "exec"] none,
        .sketch "fumble" .statement [{ id := "exec", valueType := .exec }] [Library.leads "exec"] (some fumbling)] }
    { nodes := [{ serial := 0, id := "s", kind := "event.start" }, { serial := 1, id := "m", kind := "fumble" }]
      edges := [⟨"s", "exec", "m", "exec"⟩]
      nextSerial := 2 } 0.01)
    [.step]

/-- The state after a number of steps of that session. -/
def fumbled (startKind : Value) (n : Nat) : Engine.Turn := (follow n (fumbleSession startKind, fun _ => {})).1

/-- Whether the session is told of a value out of range. -/
def Engine.Turn.refusesValue (t : Engine.Turn) : Bool :=
  match t.next with
  | some (⟨0, _, [.session]⟩, .raise (.fault ⟨.value, none⟩)) => true
  | _ => false

theorem Engine.Turn.resumes_of_refusesValue {t : Engine.Turn} (h : t.refusesValue = true) :
    t.Resumes { id := 0, frames := [.session] } (.raise (.fault .value)) := by
  unfold refusesValue at h
  split at h
  case h_1 hn => exact ⟨_, hn, rfl, rfl⟩
  case h_2 => cases h

end Patchbay
