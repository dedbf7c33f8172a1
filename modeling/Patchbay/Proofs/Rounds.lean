import Mathlib.Data.List.Intervals
import Mathlib.Data.List.TakeWhile
import Patchbay.Proofs.Refusals
import Patchbay.Proofs.Returns
import Patchbay.Proofs.Silence

/-!
# Rounds of steps

A step runs the first queued node that is still there. When none is left, the start nodes and then the other event
nodes are queued, and a new round begins with a start node that is there: so the search for a node to run comes to
an end. Only steps and stops change the queue. From the beginning of a round on each of its nodes has its turn in
the order in which they were queued, and those that are there at their turn are run.

Contents:
* `Engine.Search`: the search for the node of the next step, one pass of its loop after another.
* `Engine.Seeks`: what it comes to; `Engine.round`: the nodes of a round.
* `Engine.Turn.passed`, `Engine.Turn.ran`: what a request for a step takes off the queue, and what it runs.
* `turns`: the turns of the nodes of a round.

Results:
* `Engine.search_iff`: the search ends, with what the next step runs.
* `live_run`: the engine runs as long as nodes are queued.
* `round_run`, `Round.complete`: a round goes through its nodes in order, and runs those that are there.
-/

namespace Patchbay

namespace Engine

variable {e : Engine}

/-! ## The search -/

/-- The nodes of a round in the order in which they are queued: the start nodes, then the other event nodes. -/
def round (e : Engine) : List String :=
  (e.graph.ofKind e.config.startKind).map Node.id ++ e.eventNodes.map Node.id

/-- Whether no node is there any more that is queued. -/
def Exhausted (e : Engine) : Prop := ∀ id ∈ e.stepQueue, e.graph.hasNode id = false

/-- The search for the node of the next step. Unless the id that was taken `last` is one of a node, another one is
taken off the queue, which is filled first when it is empty. -/
inductive Search : Engine → Option String → Except Raised String × Engine → Prop
  | found {e : Engine} {id : String} (h : e.graph.hasNode id = true) : Search e (some id) (.ok id, e)
  | takes {e : Engine} {last : Option String} {id : String} {rest : List String} {r : Except Raised String × Engine}
      (hlast : last.any e.graph.hasNode = false) (hq : e.stepQueue = id :: rest)
      (h : Search (e.withQueue rest) (some id) r) : Search e last r
  | fills {e : Engine} {last : Option String} {starts : List Node} {id : String} {rest : List String}
      {r : Except Raised String × Engine} (hlast : last.any e.graph.hasNode = false) (hq : e.stepQueue = [])
      (hs : e.entryPoints = .ok starts)
      (hround : starts.map Node.id ++ e.beginRun.eventNodes.map Node.id = id :: rest)
      (h : Search (e.beginRun.withQueue rest) (some id) r) : Search e last r
  | refused {e : Engine} {last : Option String} {err : Raised} (hlast : last.any e.graph.hasNode = false)
      (hq : e.stepQueue = []) (h : e.entryPoints = .error err) : Search e last (.error err, e)

/-- What the search for the node of the next step comes to, and the state that it leaves. -/
def sought (e : Engine) : Except Raised String × Engine :=
  match e.nextStep with
  | .ok (id, e') => (.ok id, e')
  | .error err => (.error err, e.withQueue [])

/-- How the node of the next step is found: it is queued; or none of those is there and a round begins; or there is
nothing to start from. -/
inductive Seeks (e : Engine) : Except Raised String × Engine → Prop
  | queued {gone rest : List String} {id : String} (hq : e.stepQueue = gone ++ id :: rest)
      (hgone : ∀ x ∈ gone, e.graph.hasNode x = false) (hid : e.graph.hasNode id = true) :
      e.Seeks (.ok id, e.withQueue rest)
  | fills {id : String} {rest : List String} (hgone : e.Exhausted)
      (hstarts : e.graph.ofKind e.config.startKind ≠ []) (hround : e.round = id :: rest)
      (hid : e.graph.hasNode id = true) : e.Seeks (.ok id, e.beginRun.withQueue rest)
  | refused {err : Raised} (hgone : e.Exhausted) (hstarts : e.graph.ofKind e.config.startKind = [])
      (herr : e.entryPoints = .error err) : e.Seeks (.error err, e.withQueue [])

theorem entryPoints_of_ne (h : e.graph.ofKind e.config.startKind ≠ []) :
    e.entryPoints = .ok (e.graph.ofKind e.config.startKind) := by
  unfold entryPoints
  split
  · next hnil => exact absurd hnil h
  · rfl

theorem entryPoints_of_nil (h : e.graph.ofKind e.config.startKind = []) :
    ∃ err, e.entryPoints = .error err ∧
      ∀ text, e.config.startKind.toText = .ok text → err = .cause (.nothingToStart text) := by
  unfold entryPoints
  rw [h]
  cases htext : e.config.startKind.toText with
  | ok text =>
    refine ⟨_, rfl, fun text' heq => ?_⟩
    rw [Except.ok.inj heq]
  | error f => exact ⟨_, rfl, fun _ heq => nomatch heq⟩

/-- The start nodes are of the graph, so a round begins with a node that is there. -/
theorem round_of_ne (h : e.graph.ofKind e.config.startKind ≠ []) :
    ∃ id rest, e.round = id :: rest ∧ e.graph.hasNode id = true := by
  obtain ⟨n, ns, hstarts⟩ := List.exists_cons_of_ne_nil h
  have hmem : n ∈ e.graph.ofKind e.config.startKind := hstarts ▸ List.mem_cons_self
  refine ⟨n.id, ns.map Node.id ++ e.eventNodes.map Node.id, by rw [round, hstarts]; rfl, ?_⟩
  exact List.any_eq_true.mpr ⟨n, List.mem_of_mem_filter hmem, beq_self_eq_true _⟩

theorem round_eq (e : Engine) :
    (e.graph.ofKind e.config.startKind).map Node.id ++ e.beginRun.eventNodes.map Node.id = e.round :=
  congrArg _ (eventNodes_beginRun e (.runStarted []))

theorem exhausted_iff :
    (e.stepQueue.dropWhile fun id => !e.graph.hasNode id) = [] ↔ e.Exhausted := by
  simp only [List.dropWhile_eq_nil_iff, Exhausted, Bool.not_eq_true']

theorem seeks (e : Engine) : e.Seeks e.sought := by
  have hqueue := List.takeWhile_append_dropWhile (p := fun id => !e.graph.hasNode id) (l := e.stepQueue)
  cases hdrop : e.stepQueue.dropWhile fun id => !e.graph.hasNode id with
  | cons id rest =>
    have hsought : e.sought = (.ok id, e.withQueue rest) := by
      simp only [sought, nextStep, hdrop]
      rfl
    rw [hsought]
    rw [hdrop] at hqueue
    refine .queued hqueue.symm (fun x hx => by simpa using List.mem_takeWhile_imp hx) ?_
    simpa [hdrop] using List.head_dropWhile_not (p := fun id => !e.graph.hasNode id) (l := e.stepQueue) (by simp [hdrop])
  | nil =>
    have hgone := exhausted_iff.mp hdrop
    by_cases hstarts : e.graph.ofKind e.config.startKind = []
    · obtain ⟨err, herr, -⟩ := entryPoints_of_nil hstarts
      have hsought : e.sought = (.error err, e.withQueue []) := by
        simp only [sought, nextStep, hdrop, herr]
        rfl
      rw [hsought]
      exact .refused hgone hstarts herr
    · obtain ⟨id, rest, hround, hid⟩ := round_of_ne hstarts
      have hsought : e.sought = (.ok id, e.beginRun.withQueue rest) := by
        simp only [sought, nextStep, hdrop, entryPoints_of_ne hstarts, bind, Except.bind, round_eq, hround]
        rfl
      rw [hsought]
      exact .fills hgone hstarts hround hid

/-- The search leads to what the next step runs. -/
theorem search_sought (e : Engine) {last : Option String} (hlast : last.any e.graph.hasNode = false) :
    Search e last e.sought := by
  -- by induction on the queue; when it is filled the search ends with the first node of the round
  generalize hq : e.stepQueue = queue
  induction queue generalizing e last with
  | nil =>
    rcases hsought : e.sought with ⟨r, e'⟩
    have hseeks := hsought ▸ e.seeks
    cases hseeks with
    | queued hqueue => simp [hq] at hqueue
    | fills _ hstarts hround hid =>
      have hthere := (grows_beginRun e).nodes _ hid
      exact .fills hlast hq (entryPoints_of_ne hstarts) ((round_eq e).trans hround) (.found hthere)
    | refused _ _ herr =>
      have hsame : e.withQueue [] = e := by rw [withQueue, ← hq]
      rw [hsame]
      exact .refused hlast hq herr
  | cons id rest ih =>
    cases hid : e.graph.hasNode id with
    | true =>
      have hsought : e.sought = (.ok id, e.withQueue rest) := by
        simp only [sought, nextStep, hq, List.dropWhile_cons, hid]
        rfl
      rw [hsought]
      exact .takes hlast hq (.found hid)
    | false =>
      have hsought : e.sought = (e.withQueue rest).sought := by
        simp only [sought, nextStep, hq, List.dropWhile_cons, hid]
        rfl
      rw [hsought]
      exact .takes hlast hq (ih (e.withQueue rest) hid rfl)

theorem Search.unique {last : Option String} {r r' : Except Raised String × Engine} (h : Search e last r)
    (h' : Search e last r') : r = r' := by
  induction h with
  | found h =>
    cases h' with
    | found => rfl
    | takes hlast | fills hlast | refused hlast => exact nomatch hlast.symm.trans h
  | takes hlast hq _ ih =>
    cases h' with
    | found h => exact nomatch hlast.symm.trans h
    | takes _ hq' h' =>
      obtain ⟨rfl, rfl⟩ := List.cons.inj (hq.symm.trans hq')
      exact ih h'
    | fills _ hq' | refused _ hq' => cases hq.symm.trans hq'
  | fills hlast hq hs hround _ ih =>
    cases h' with
    | found h => exact nomatch hlast.symm.trans h
    | takes _ hq' => cases hq.symm.trans hq'
    | fills _ _ hs' hround' h' =>
      obtain rfl := Except.ok.inj (hs.symm.trans hs')
      obtain ⟨rfl, rfl⟩ := List.cons.inj (hround.symm.trans hround')
      exact ih h'
    | refused _ _ herr => cases hs.symm.trans herr
  | refused hlast hq h =>
    cases h' with
    | found h => exact nomatch hlast.symm.trans h
    | takes _ hq' => cases hq.symm.trans hq'
    | fills _ _ hs => cases h.symm.trans hs
    | refused _ _ h' =>
      obtain rfl := Except.error.inj (h.symm.trans h')
      rfl

/-- The search ends, and with nothing but what the next step runs. -/
theorem search_iff {r : Except Raised String × Engine} : Search e none r ↔ r = e.sought := by
  constructor
  · exact fun h => h.unique (search_sought e rfl)
  · rintro rfl
    exact search_sought e rfl

/-! ## The queue -/

/-- Whether the settings, the flag and the queue are the same. -/
structure Steady (e e' : Engine) : Prop where
  config : e'.config = e.config
  running : e'.running = e.running
  queue : e'.stepQueue = e.stepQueue

theorem Keeps.steady {P : String → Prop} {e' : Engine} (h : e.Keeps P e') : e.Steady e' :=
  ⟨h.config, h.running, h.queue⟩

/-- Whether a command stops the engine. -/
def Halts (e : Engine) (c : Command) : Prop :=
  c = .stop ∨ ∃ text d g, c = .load text ∧ e.readGraph .byType text = .ok (d, g)

/-- A document that cannot be read changes nothing. -/
theorem load_of_error {text : String} {err : Raised} (h : e.readGraph .byType text = .error err) :
    (e.load text).2 = e := by
  unfold load
  unfold readGraph at h
  cases hd : Fault.lift (Document.ofText text) with
  | error => rfl
  | ok d =>
    simp only [hd, bind, Except.bind, pure, Except.pure] at h
    unfold loadDocument
    cases hg : Graph.ofDocument e.registry .byType e.graph.nextSerial d with
    | error => simp only [hg]
    | ok g =>
      rw [hg] at h
      cases h

/-- No command but those that stop the engine changes the flag or the queue. -/
theorem steady_command {c : Command} (hc : ¬e.Halts c) : e.Steady (e.command c).2 := by
  cases hclears : c.clears with
  | false => exact (Keeps.command (P := fun _ => False) e hclears).steady
  | true =>
    have hdisarm : ∀ n, e.Steady (e.disarm n).2 := fun n => (Keeps.disarm (P := fun _ => False) e n).steady
    rcases command_clears e hclears with ⟨id, -, heq⟩ | ⟨text, -, heq | ⟨d, g, -, heq⟩⟩ | ⟨hstop, -⟩ | ⟨text, hload, heq⟩
    · rw [heq]
      rcases removeNode_cases e id with heq | ⟨n, -, heq | ⟨-, m, g, -, heq⟩⟩
      · rw [heq]
        exact ⟨rfl, rfl, rfl⟩
      · rw [heq]
        exact hdisarm n
      · rw [heq]
        exact ⟨(hdisarm n).config, (hdisarm n).running, (hdisarm n).queue⟩
    · rw [heq]
      exact ⟨rfl, rfl, rfl⟩
    · rw [heq]
      exact ⟨rfl, rfl, rfl⟩
    · exact absurd (.inl hstop) hc
    · cases hread : e.readGraph .byType text with
      | ok dg => exact absurd (.inr ⟨text, dg.1, dg.2, hload, hread⟩) hc
      | error err =>
        rw [heq, load_of_error hread]
        exact ⟨rfl, rfl, rfl⟩

/-- What a command that stops the engine leaves is what a stop leaves, but for graph and variables. -/
theorem command_of_halts {c : Command} (hc : e.Halts c) : e.stop.2.Steady (e.command c).2 := by
  rcases hc with rfl | ⟨text, d, g, rfl, hread⟩
  · rw [command_stop]
    exact ⟨rfl, rfl, rfl⟩
  · rw [command_load]
    rcases load_cases e text with ⟨⟨err, herr⟩, -⟩ | heq | ⟨-, d, g, -, heq⟩
    · cases hread.symm.trans herr
    · rw [heq]
      exact ⟨rfl, rfl, rfl⟩
    · rw [heq]
      exact ⟨rfl, rfl, rfl⟩

/-- No command changes the settings. -/
theorem config_command (e : Engine) (c : Command) : (e.command c).2.config = e.config := by
  by_cases hc : e.Halts c
  · exact (command_of_halts hc).config.trans (Keeps.stop (P := fun _ => False) e).config
  · exact (steady_command hc).config

/-- Nothing is queued after a stop, when it can be done. -/
theorem queue_of_halts (hkempt : e.Kempt) (hk : ∀ r ∈ e.scheduler.active none, r.event.hashable = true) {c : Command}
    (hc : e.Halts c) : (e.command c).2.stepQueue = [] :=
  (command_of_halts hc).queue.trans (hkempt.stop_ok hk).2.queue

/-- Whether the engine runs as long as nodes are queued. -/
def Live (e : Engine) : Prop := e.stepQueue ≠ [] → e.running = true

end Engine

/-! ## Steps of a session -/

section Beats

variable {t t' : Engine.Turn}

/-- Whether the strand under way has a request for a step. -/
def Engine.Turn.asksStep (t : Engine.Turn) : Bool :=
  match t.next with
  | some (_, .call (.request .step)) => true
  | _ => false

theorem Engine.Turn.asksStep_iff : t.asksStep = true ↔ t.AsksStep := by
  unfold asksStep
  split
  · next s hn => exact ⟨fun _ => ⟨s, hn⟩, fun _ => rfl⟩
  · next hne => exact ⟨nofun, fun ⟨s, hn⟩ => (hne s hn).elim⟩

theorem Engine.Turn.callsStop_iff : t.CallsStop ↔ ∃ c, t.Carries c ∧ t.engine.Halts c := by
  constructor
  · rintro (hc | ⟨text, d, g, hc, hread⟩)
    · exact ⟨_, hc, .inl rfl⟩
    · exact ⟨_, hc, .inr ⟨text, d, g, rfl, hread⟩⟩
  · rintro ⟨c, hc, rfl | ⟨text, d, g, rfl, hread⟩⟩
    · exact .inl hc
    · exact .inr ⟨text, d, g, hc, hread⟩

/-- A request for a step goes on with what the search comes to. -/
theorem Beat.engine_of_asksStep (hb : Beat t t') (h : t.AsksStep) : t'.engine = t.engine.sought.2 := by
  obtain ⟨s, hn⟩ := h
  rw [hb.play.eq_turn hn]
  show (t.engine.step s).engine = _
  unfold Engine.step Engine.sought
  split <;> next heq => rw [heq]; rfl

theorem Engine.Turn.Carries.steady {c : Command} (hc : t.Carries c) (hstop : ¬t.CallsStop) :
    t.engine.Steady (t.engine.command c).2 :=
  Engine.steady_command fun hhalts => hstop (Engine.Turn.callsStop_iff.mpr ⟨c, hc, hhalts⟩)

/-- Nothing but steps and stops changes the queue. -/
theorem Beat.queue (hb : Beat t t') (hstep : ¬t.AsksStep) (hstop : ¬t.CallsStop) :
    t'.engine.stepQueue = t.engine.stepQueue := by
  cases hb.play.effect with
  | keeps h => exact h.queue
  | begins h => exact h.queue
  | steps hs => exact absurd hs hstep
  | carries hc heq => exact heq ▸ (hc.steady hstop).queue

/-- Nothing but a stop clears the flag. -/
theorem Beat.running (hb : Beat t t') (hstop : ¬t.CallsStop) (hr : t.engine.running = true) :
    t'.engine.running = true := by
  cases hb.play.effect with
  | keeps h => exact h.running.trans hr
  | begins h => exact h.running
  | steps _ queue heq =>
    rcases heq with heq | heq
    · rw [heq]
      exact hr
    · rw [heq]
      rfl
  | carries hc heq => exact heq ▸ (hc.steady hstop).running.trans hr

theorem Beat.not_callsStop (hb : Beat t t') (hr : t'.engine.running = true) : ¬t.CallsStop := by
  intro hstop
  rw [(hb.play.step.hushed_stop hstop).running] at hr
  cases hr

/-- While nodes are queued the engine runs. -/
theorem Beat.live (hb : Beat t t') (hkempt : t.engine.Kempt)
    (hk : ∀ r ∈ t.engine.scheduler.active none, r.event.hashable = true) (hl : t.engine.Live) : t'.engine.Live := by
  by_cases hstop : t.CallsStop
  · obtain ⟨c, hc, hhalts⟩ := Engine.Turn.callsStop_iff.mp hstop
    rw [hb.play.step.eq_command hc]
    exact fun hq => absurd (Engine.queue_of_halts hkempt hk hhalts) hq
  · by_cases hstep : t.AsksStep
    · rw [hb.engine_of_asksStep hstep]
      have hseeks := t.engine.seeks
      generalize t.engine.sought = found at hseeks
      cases hseeks with
      | queued hq => exact fun _ => hl (by rw [hq]; simp)
      | fills => exact fun _ => rfl
      | refused => exact fun hq => absurd rfl hq
    · intro hq
      rw [hb.queue hstep hstop] at hq
      exact hb.running hstop (hl hq)

theorem Beat.config (hb : Beat t t') : t'.engine.config = t.engine.config := by
  cases hb.play.effect with
  | keeps h => exact h.config
  | begins h => exact h.config
  | steps _ queue heq => rcases heq with heq | heq <;> rw [heq] <;> rfl
  | @carries c _ heq =>
    rw [heq]
    exact t.engine.config_command c

/-- Nodes keep ids of their own. -/
theorem Beat.distinct (hb : Beat t t') (h : (t.engine.graph.nodes.map Node.id).Nodup) :
    (t'.engine.graph.nodes.map Node.id).Nodup := by
  have hbegun := (Engine.grows_beginRun t.engine).distinct h
  cases hb.play.effect with
  | keeps hk => exact hk.graph.distinct h
  | begins hk => exact hk.graph.distinct hbegun
  | steps _ queue heq =>
    rcases heq with heq | heq
    · rw [heq]
      exact h
    · rw [heq]
      exact hbegun
  | @carries c _ heq =>
    rw [heq]
    exact (Engine.becomes_command t.engine c).distinct h

end Beats

/-! ## Rounds -/

namespace Engine

variable {e : Engine}

/-- What a request for a step takes off the queue: the ids of nodes that are gone, and that of the first that is
there. -/
def passed (e : Engine) : List String :=
  (e.stepQueue.takeWhile fun id => !e.graph.hasNode id) ++ (e.stepQueue.dropWhile fun id => !e.graph.hasNode id).take 1

theorem passed_of_queue {gone rest : List String} {id : String} (hq : e.stepQueue = gone ++ id :: rest)
    (hgone : ∀ x ∈ gone, e.graph.hasNode x = false) (hid : e.graph.hasNode id = true) : e.passed = gone ++ [id] := by
  have hgone' : ∀ x ∈ gone, (!e.graph.hasNode x) = true := fun x hx => by rw [hgone x hx]; rfl
  rw [passed, hq, List.takeWhile_append_of_pos hgone', List.dropWhile_append_of_pos hgone']
  simp [hid]

theorem passed_of_exhausted (h : e.Exhausted) : e.passed = e.stepQueue := by
  have hgone : ∀ x ∈ e.stepQueue, (!e.graph.hasNode x) = true := fun x hx => by rw [h x hx]; rfl
  rw [passed, List.takeWhile_eq_self_iff.mpr hgone, List.dropWhile_eq_nil_iff.mpr hgone, List.take_nil,
    List.append_nil]

theorem Exhausted.filter_passed (h : e.Exhausted) : e.passed.filter e.graph.hasNode = [] := by
  rw [passed_of_exhausted h]
  exact List.filter_eq_nil_iff.mpr fun x hx => by simp [h x hx]

/-- Each node is queued once in a round. -/
theorem nodup_round (h : (e.graph.nodes.map Node.id).Nodup) : e.round.Nodup := by
  refine List.nodup_append.mpr ⟨h.sublist (List.filter_sublist.map _), h.sublist (List.filter_sublist.map _), ?_⟩
  rintro id hstart _ hevent rfl
  obtain ⟨n, hn, rfl⟩ := List.mem_map.mp hstart
  obtain ⟨m, hm, hid⟩ := List.mem_map.mp hevent
  obtain ⟨hn, hkind⟩ := List.mem_filter.mp hn
  obtain ⟨hm, harmed⟩ := List.mem_filter.mp hm
  obtain rfl := List.inj_on_of_nodup_map h hm hn hid
  simp only [isArmed, Bool.and_eq_true, Bool.not_eq_true'] at harmed
  rw [harmed.1] at hkind
  cases hkind

end Engine

namespace Engine.Turn

/-- Whether a request for a step begins a round. -/
def Fills (t : Turn) : Prop :=
  t.AsksStep ∧ t.engine.Exhausted ∧ t.engine.graph.ofKind t.engine.config.startKind ≠ []

/-- The ids that are taken off the queue. -/
def passed (t : Turn) : List String := if t.asksStep then t.engine.passed else []

/-- The node that a request for a step runs. -/
def ran (t : Turn) : Option String := if t.asksStep then t.engine.sought.1.toOption else none

end Engine.Turn

section Rounds

variable {t t' : Engine.Turn}

/-- The beginning of a round: its first node is run and the others are queued. -/
theorem Engine.Turn.Fills.begins (h : t.Fills) (hb : Beat t t') : ∃ id rest, t.engine.round = id :: rest ∧
    t.engine.graph.hasNode id = true ∧ t.ran = some id ∧ t'.engine.stepQueue = rest := by
  obtain ⟨hstep, hgone, hstarts⟩ := h
  rw [hb.engine_of_asksStep hstep, Engine.Turn.ran, if_pos (Engine.Turn.asksStep_iff.mpr hstep)]
  have hseeks := t.engine.seeks
  generalize t.engine.sought = found at hseeks
  cases hseeks with
  | @queued gone rest id hq _ hid => rw [hgone id (by simp [hq])] at hid; cases hid
  | fills _ _ hround hid => exact ⟨_, _, hround, hid, rfl, rfl⟩
  | refused _ hnil => exact absurd hnil hstarts

/-- What becomes of the queue within a round. -/
theorem Beat.passes (hb : Beat t t') (hfills : ¬t.Fills) (hstop : ¬t.CallsStop) :
    t.passed ++ t'.engine.stepQueue = t.engine.stepQueue ∧ t.ran.toList = t.passed.filter t.engine.graph.hasNode := by
  by_cases hstep : t.AsksStep
  · rw [hb.engine_of_asksStep hstep, Engine.Turn.ran, Engine.Turn.passed,
      if_pos (Engine.Turn.asksStep_iff.mpr hstep), if_pos (Engine.Turn.asksStep_iff.mpr hstep)]
    have hseeks := t.engine.seeks
    generalize t.engine.sought = found at hseeks
    cases hseeks with
    | @queued gone rest id hq hgone hid =>
      have hnone : gone.filter t.engine.graph.hasNode = [] :=
        List.filter_eq_nil_iff.mpr fun x hx => by simp [hgone x hx]
      rw [Engine.passed_of_queue hq hgone hid, hq]
      refine ⟨by simp [Engine.withQueue], ?_⟩
      rw [List.filter_append, hnone, List.nil_append, List.filter_cons_of_pos hid]
      rfl
    | fills hgone hstarts => exact absurd ⟨hstep, hgone, hstarts⟩ hfills
    | refused hgone =>
      refine ⟨?_, hgone.filter_passed.symm⟩
      rw [Engine.passed_of_exhausted hgone]
      exact List.append_nil _
  · have hasks : t.asksStep = false := Bool.eq_false_iff.mpr fun h => hstep (Engine.Turn.asksStep_iff.mp h)
    rw [hb.queue hstep hstop, Engine.Turn.ran, Engine.Turn.passed, hasks]
    exact ⟨rfl, rfl⟩

/-- The turns of the nodes of a round that begins at `a`, before `b`: the id of each, with the state at which its turn
comes. -/
def turns (run : Nat → Engine.Turn) (a b : Nat) : List (String × Nat) :=
  ((run a).engine.round.take 1).map (·, a) ++ (List.Ico (a + 1) b).flatMap fun c => (run c).passed.map (·, c)

/-- How a round that begins at `a` has gone before `b`: each of its nodes has one turn, the turns come in the order
in which the nodes were queued, and the nodes that are there at their turn are those that were run. -/
structure Round (run : Nat → Engine.Turn) (a b : Nat) : Prop where
  distinct : (run a).engine.round.Nodup
  order : (turns run a b).map Prod.fst ++ (run b).engine.stepQueue = (run a).engine.round
  ran : (List.Ico a b).filterMap (fun c => (run c).ran) =
    ((turns run a b).filter fun x => (run x.2).engine.graph.hasNode x.1).map Prod.fst

variable {run : Nat → Engine.Turn} {n a b : Nat}

theorem turns_succ (hab : a < b) : turns run a (b + 1) = turns run a b ++ (run b).passed.map (·, b) := by
  rw [turns, turns, List.Ico.succ_top hab, List.flatMap_append, List.flatMap_singleton, List.append_assoc]

/-- A round goes through its nodes in order. -/
theorem round_run (hbeats : ∀ k < n, Beat (run k) (run (k + 1))) (hab : a < b) (hbn : b ≤ n)
    (hids : ((run a).engine.graph.nodes.map Node.id).Nodup) (hfills : (run a).Fills)
    (hwithin : ∀ c, a < c → c < b → ¬(run c).Fills) (hstop : ∀ c, a < c → c < b → ¬(run c).CallsStop) :
    Round run a b := by
  suffices h : (turns run a b).map Prod.fst ++ (run b).engine.stepQueue = (run a).engine.round ∧
      (List.Ico a b).filterMap (fun c => (run c).ran) =
        ((turns run a b).filter fun x => (run x.2).engine.graph.hasNode x.1).map Prod.fst from
    ⟨Engine.nodup_round hids, h.1, h.2⟩
  -- by induction on the number of steps since the round began
  induction b, hab using Nat.le_induction with
  | base =>
    obtain ⟨id, rest, hround, hid, hran, hqueue⟩ := hfills.begins (hbeats a hbn)
    simp [turns, hround, hqueue, hran, hid]
  | succ b hab ih =>
    obtain ⟨horder, hran⟩ := ih (Nat.le_of_succ_le hbn) (fun c hac hcb => hwithin c hac (Nat.lt_succ_of_lt hcb))
      fun c hac hcb => hstop c hac (Nat.lt_succ_of_lt hcb)
    obtain ⟨hpasses, hpicks⟩ := (hbeats b hbn).passes (hwithin b hab (Nat.lt_succ_self b))
      (hstop b hab (Nat.lt_succ_self b))
    rw [turns_succ hab]
    constructor
    · rw [List.map_append, List.append_assoc, List.map_map]
      show _ ++ (List.map id _ ++ _) = _
      rw [List.map_id, hpasses, horder]
    · rw [List.Ico.succ_top (Nat.le_of_succ_le hab), List.filterMap_append, hran, List.filter_append, List.map_append]
      have hlast : [b].filterMap (fun c => (run c).ran) = (run b).ran.toList := by
        cases hr : (run b).ran <;> simp [hr]
      rw [hlast, hpicks, List.filter_map, List.map_map]
      show _ = _ ++ List.map id _
      rw [List.map_id]
      rfl

theorem mem_turns {x : String × Nat} (hfills : (run a).Fills) (hab : a < b) (hx : x ∈ turns run a b) :
    a ≤ x.2 ∧ x.2 < b ∧ (run x.2).AsksStep := by
  rcases List.mem_append.mp hx with hx | hx
  · obtain ⟨id, -, rfl⟩ := List.mem_map.mp hx
    exact ⟨le_rfl, hab, hfills.1⟩
  · obtain ⟨c, hc, hx⟩ := List.mem_flatMap.mp hx
    obtain ⟨id, hid, rfl⟩ := List.mem_map.mp hx
    obtain ⟨hac, hcb⟩ := List.Ico.mem.mp hc
    refine ⟨Nat.le_of_succ_le hac, hcb, ?_⟩
    rw [Engine.Turn.passed] at hid
    split at hid
    · next hasks => exact Engine.Turn.asksStep_iff.mp hasks
    · cases hid

/-- By the time that the next round begins each node of a round was run, or was gone at a request for a step. -/
theorem Round.complete (h : Round run a b) (hab : a < b) (hfills : (run a).Fills) (hnext : (run b).Fills) :
    ∀ id ∈ (run a).engine.round, (∃ c, a ≤ c ∧ c < b ∧ (run c).ran = some id) ∨
      ∃ c, a ≤ c ∧ c ≤ b ∧ (run c).AsksStep ∧ (run c).engine.graph.hasNode id = false := by
  intro id hid
  rw [← h.order] at hid
  rcases List.mem_append.mp hid with hid | hid
  · obtain ⟨⟨id, c⟩, hmem, rfl⟩ := List.mem_map.mp hid
    obtain ⟨hac, hcb, hasks⟩ := mem_turns hfills hab hmem
    cases hthere : (run c).engine.graph.hasNode id with
    | false => exact .inr ⟨c, hac, hcb.le, hasks, hthere⟩
    | true =>
      have hran : id ∈ (List.Ico a b).filterMap fun c => (run c).ran := by
        rw [h.ran]
        exact List.mem_map.mpr ⟨(id, c), List.mem_filter.mpr ⟨hmem, hthere⟩, rfl⟩
      obtain ⟨d, hd, hrand⟩ := List.mem_filterMap.mp hran
      obtain ⟨had, hdb⟩ := List.Ico.mem.mp hd
      exact .inl ⟨d, had, hdb, hrand⟩
  · exact .inr ⟨b, hab.le, le_rfl, hnext.1, hnext.2.1 id hid⟩

/-! ## Sessions -/

/-- The settings stay what they were. -/
theorem config_run (hbeats : ∀ k < n, Beat (run k) (run (k + 1))) {k : Nat} (hk : k ≤ n) :
    (run k).engine.config = (run 0).engine.config := by
  induction k with
  | zero => rfl
  | succ k ih => exact (hbeats k hk).config.trans (ih (Nat.le_of_succ_le hk))

/-- Nodes keep ids of their own. -/
theorem distinct_run (hids : ((run 0).engine.graph.nodes.map Node.id).Nodup)
    (hbeats : ∀ k < n, Beat (run k) (run (k + 1))) {k : Nat} (hk : k ≤ n) :
    ((run k).engine.graph.nodes.map Node.id).Nodup := by
  induction k with
  | zero => exact hids
  | succ k ih => exact (hbeats k hk).distinct (ih (Nat.le_of_succ_le hk))

theorem Opens.live {t : Engine.Turn} (h : Opens t) : t.engine.Live := by
  obtain ⟨config, registry, graph, shortest, requests, -, rfl⟩ := h
  have hkeeps := (Engine.Keeps.nextRequest (P := fun _ => False)
    { Engine.initial config registry graph shortest with nextStrand := 1, todo := requests } { id := 0, frames := [] })
  exact fun hq => absurd hkeeps.queue hq

/-- In a session whose listeners wait for names, the engine runs as long as nodes are queued. -/
theorem live_run (hopens : Opens (run 0)) (hbeats : ∀ k < n, Beat (run k) (run (k + 1)))
    (hnamed : ∀ k ≤ n, (run k).engine.scheduler.Named) {k : Nat} (hk : k ≤ n) : (run k).engine.Live := by
  induction k with
  | zero => exact hopens.live
  | succ k ih =>
    have hkn := Nat.le_of_succ_le hk
    have hkempt := (reachable_run hopens (fun k hk => (hbeats k hk).play) hkn).kempt
    have hattuned := (tallies_run hopens hbeats 0 hkn).attuned
    exact (hbeats k hk).live hkempt ((hnamed k hkn).hashable hattuned hkempt.scheduler) (ih hkn)

end Rounds

end Patchbay
