import Patchbay.Proofs.Completion

/-!
# Leaked registrations

Nothing should be registered while an engine is stopped, nor by a node that is in its graph no more: a
stop cancels everything, and the removal of a node what the node has registered. But a behaviour may
register something after it has waited, and nobody asks then whether the engine still runs and still has
the node. These late registrations are the only ones that leak.

Contents:
* `Engine.Leakless`: nothing is registered that should not be.
* `made`: the registrations that a step makes.

Results:
* `leakless_iff_made_in_time`: a session leaks nothing exactly when it registers nothing late.
* `leaks_after_stop`: a listener of the library that is registered after a stop.
-/

namespace Patchbay

namespace Engine

/-- Whether nothing is registered while the engine is stopped, and nothing by a node that is not in its
graph. -/
structure Leakless (e : Engine) : Prop where
  stopped : e.running = false → e.scheduler.active none = []
  owned : ∀ r ∈ e.scheduler.active none, e.graph.hasNode r.owner = true

/-- The same by the index of a scheduler. -/
def Attended (e : Engine) : Prop :=
  ∀ owner, ∀ id ∈ e.scheduler.ownedBy owner, e.running = true ∧ e.graph.hasNode owner = true

section Attendance

variable {P : String → Prop} {e e' : Engine}

theorem leakless_iff (h : e.scheduler.Tidy) : e.Leakless ↔ e.Attended := by
  constructor
  · intro hl owner id hid
    obtain ⟨r, hr, -, rfl⟩ := h.exists_active hid
    refine ⟨?_, hl.owned r hr⟩
    cases hrun : e.running with
    | true => rfl
    | false =>
      rw [hl.stopped hrun] at hr
      cases hr
  · intro ha
    refine ⟨fun hrun => List.eq_nil_iff_forall_not_mem.mpr fun r hr => ?_, fun r hr => ?_⟩
    · have hset := (ha _ _ (h.mem_active.mp hr).1).1
      rw [hrun] at hset
      cases hset
    · exact (ha _ _ (h.mem_active.mp hr).1).2

/-- What is new was registered in time. -/
theorem Attended.keeps (h : e.Attended) (ht : e.scheduler.Tidy) (hk : e.Keeps P e')
    (hnew : ∀ owner, ∀ id ∈ e'.scheduler.ownedBy owner, e.scheduler.registrations.length ≤ id →
      e.running = true ∧ e.graph.hasNode owner = true) : e'.Attended := by
  intro owner id hid
  have hbefore : e.running = true ∧ e.graph.hasNode owner = true := by
    rcases hk.scheduler.owned ht owner id hid with hold | ⟨-, hlen⟩
    · exact h owner id hold
    · exact hnew owner id hid hlen
  exact ⟨hk.running.trans hbefore.1, hk.graph.nodes owner hbefore.2⟩

theorem Attended.beginRun (h : e.Attended) : e.beginRun.Attended := fun owner id hid =>
  ⟨rfl, (grows_beginRun e).nodes owner (h owner id hid).2⟩

theorem tearDown_scheduler (e : Engine) (n : Node) : (e.tearDown n).scheduler = e.scheduler := by
  unfold tearDown
  split <;> rfl

theorem disarm_scheduler (e : Engine) (n : Node) :
    (e.disarm n).2.scheduler = (e.scheduler.cancelOwner n.id).2 := by
  unfold disarm
  split
  · next h => rw [h]
  · next h => rw [tearDown_scheduler, h]

/-- Of those who may not register, nothing is new. -/
theorem not_new (ht : e.scheduler.Tidy) {s : Scheduler Firing Job}
    (h : e.scheduler.Evolves (fun _ => False) s) {owner : String} {id : Nat} (hid : id ∈ s.ownedBy owner) :
    id < e.scheduler.registrations.length := by
  rcases h.owned ht owner id hid with hold | ⟨hnever, -⟩
  · exact ht.lt_of_owned hold
  · exact hnever.elim

/-- A node goes with all that it has registered. -/
theorem Attended.removeNode (h : e.Attended) (ht : e.scheduler.Tidy)
    (hk : ∀ r ∈ e.scheduler.active none, r.event.hashable = true) (id : String) :
    (e.removeNode id).2.Attended := by
  have hdisarm : ∀ n, (e.disarm n).2.Attended := fun n =>
    h.keeps (P := fun _ => False) ht (.disarm e n) fun owner j hj hlen =>
      absurd (not_new ht (Keeps.disarm e n).scheduler hj) (by omega)
  rcases removeNode_cases e id with heq | ⟨n, hn, heq | ⟨-, m, g, hremove, heq⟩⟩
  · rw [heq]
    exact h
  · rw [heq]
    exact hdisarm n
  · rw [heq]
    intro owner j hj
    have hnid : n.id = id := by simpa using List.find?_some hn
    have hne : owner ≠ id := by
      rintro rfl
      have hgone := (ht.cancelOwner_ok (ht.keyed_iff.mpr hk n.id)).2.1
      change j ∈ (e.disarm n).2.scheduler.ownedBy owner at hj
      rw [disarm_scheduler, ← hnid, hgone] at hj
      cases hj
    obtain ⟨hrun, hnode⟩ := hdisarm n owner j hj
    refine ⟨hrun, ?_⟩
    obtain ⟨-, rfl⟩ := Graph.removeNode_eq_ok hremove
    rw [Graph.hasNode_eq_isSome] at hnode ⊢
    rw [Graph.node?_filter_of_ne _ hne]
    exact hnode

/-- Nothing is registered after a stop. -/
theorem Kempt.owned_stop (h : e.Kempt) (hk : ∀ r ∈ e.scheduler.active none, r.event.hashable = true) :
    ∀ owner, e.stop.2.scheduler.ownedBy owner = [] := by
  have hkempt : e.stop.2.Kempt :=
    Kempt.keeps (P := fun _ => False) (e := ({ e with running := false } : Engine).withQueue e.stop.2.stepQueue)
      ⟨h.scheduler, h.graph⟩ (.stop e)
  intro owner
  refine List.eq_nil_iff_forall_not_mem.mpr fun id hid => ?_
  obtain ⟨r, hr, -⟩ := hkempt.scheduler.exists_active hid
  rw [(h.stop_ok hk).2.active] at hr
  cases hr

/-- What a command leaves was registered in time before it. -/
theorem Attended.command (h : e.Attended) (hkempt : e.Kempt)
    (hk : ∀ r ∈ e.scheduler.active none, r.event.hashable = true) {c : Command}
    (hc : ∀ text, c ≠ .replaceGraph text) : (e.command c).2.Attended := by
  have ht := hkempt.scheduler
  have hnone : ∀ {e' : Engine}, e'.scheduler = e.stop.2.scheduler → e'.Attended := by
    intro e' heq owner id hid
    rw [heq, hkempt.owned_stop hk owner] at hid
    cases hid
  cases hclears : c.clears with
  | false =>
    exact h.keeps (P := fun _ => False) ht (.command e hclears) fun owner id hid hlen =>
      absurd (not_new ht (evolves_command e c) hid) (by omega)
  | true =>
    rcases command_clears e hclears with ⟨id, -, heq⟩ | ⟨text, rfl, -⟩ | ⟨-, heq⟩ | ⟨text, -, heq⟩
    · rw [heq]
      exact h.removeNode ht hk id
    · exact absurd rfl (hc text)
    · rw [heq]
      exact hnone rfl
    · rw [heq]
      rcases load_cases e text with ⟨-, heq⟩ | heq | ⟨-, d, g, -, heq⟩
      · rw [heq]
        exact h
      · rw [heq]
        exact hnone rfl
      · rw [heq]
        exact hnone rfl

end Attendance

end Engine

/-! ## Steps -/

/-- The active registrations that a step has made. -/
def made (t t' : Engine.Turn) : List (Registration Firing) :=
  (t'.engine.scheduler.active none).filter fun r => t.engine.scheduler.registrations.length ≤ r.id

section Steps

variable {t t' : Engine.Turn}

theorem mem_made {r : Registration Firing} : r ∈ made t t' ↔
    r ∈ t'.engine.scheduler.active none ∧ t.engine.scheduler.registrations.length ≤ r.id := by
  simp [made]

/-- A step that registers in time leaves nothing that should not be. -/
theorem Play.attended (hp : Play t t') (hkempt : t.engine.Kempt) (h : t.engine.Attended)
    (hk : ∀ r ∈ t.engine.scheduler.active none, r.event.hashable = true)
    (hc : ∀ text, ¬t.Carries (.replaceGraph text))
    (hmade : ∀ r ∈ made t t', t.engine.running = true ∧ t.engine.graph.hasNode r.owner = true) :
    t'.engine.Attended := by
  have ht := hkempt.scheduler
  have hnew : ∀ owner, ∀ id ∈ t'.engine.scheduler.ownedBy owner,
      t.engine.scheduler.registrations.length ≤ id →
      t.engine.running = true ∧ t.engine.graph.hasNode owner = true := by
    intro owner id hid hlen
    obtain ⟨r, hr, rfl, rfl⟩ := (hp.kempt hkempt).scheduler.exists_active hid
    exact hmade r (mem_made.mpr ⟨hr, hlen⟩)
  cases hp.effect with
  | keeps hkeeps => exact h.keeps ht hkeeps hnew
  | begins hkeeps =>
    refine h.beginRun.keeps ht hkeeps fun owner id hid hlen => ⟨rfl, ?_⟩
    exact (Engine.grows_beginRun t.engine).nodes owner (hnew owner id hid hlen).2
  | steps _ queue heq =>
    rcases heq with heq | heq
    · rw [heq]
      exact h
    · rw [heq]
      exact h.beginRun
  | carries hcarries heq =>
    rw [heq]
    exact h.command hkempt hk fun text hrep => hc text (hrep ▸ hcarries)

/-- A question that registers something changes nothing but the scheduler. -/
theorem perform_of_registers (e : Engine) (i : Invocation) (sc : Scope) {q : Query}
    (hq : q.registers = true) :
    (e.perform i sc q).engine.running = e.running ∧ (e.perform i sc q).engine.graph = e.graph := by
  cases q with
  | every | fireLater | listen => exact ⟨rfl, rfl⟩
  | _ => cases hq

/-- A step that registers something changes neither the flag nor the graph. -/
theorem Play.same_of_made (hp : Play t t') (hkempt : t.engine.Kempt) {r : Registration Firing}
    (hr : r ∈ made t t') : t'.engine.running = t.engine.running ∧ t'.engine.graph = t.engine.graph := by
  have ht := hkempt.scheduler
  obtain ⟨hactive, hlen⟩ := mem_made.mp hr
  have hid := ((hp.kempt hkempt).scheduler.mem_active.mp hactive).1
  have hnever : ¬t.engine.scheduler.Evolves (fun _ => False) t'.engine.scheduler := fun hev =>
    absurd (Engine.not_new ht hev hid) (by omega)
  cases hp.effect with
  | keeps hkeeps =>
    rcases hkeeps.scheduler.owned ht r.owner r.id hid with hold | ⟨⟨s, sig, hn, hreg⟩, -⟩
    · exact absurd (ht.lt_of_owned hold) (by omega)
    · obtain ⟨i, q, k, rfl, hq, -⟩ := hreg
      have hturn : t' = t.engine.turn s (.call (.behave i (.ask q k))) := hp.eq_turn hn
      rw [hturn]
      exact perform_of_registers t.engine i s.scope hq
  | begins hkeeps => exact absurd hkeeps.scheduler hnever
  | steps _ queue heq =>
    rcases heq with heq | heq <;> rw [heq] at hnever <;> exact absurd (.of_eq rfl rfl rfl rfl) hnever
  | carries _ heq =>
    rw [heq] at hnever
    exact absurd (Engine.evolves_command _ _) hnever

end Steps

theorem Opens.leakless {t : Engine.Turn} (h : Opens t) : t.engine.Leakless := by
  rw [Engine.leakless_iff h.kempt.scheduler]
  obtain ⟨config, registry, graph, shortest, requests, -, rfl⟩ := h
  intro owner id hid
  cases requests with
  | nil => simp [opening, Engine.nextRequest, Engine.initial, Scheduler.ownedBy] at hid
  | cons r rest => simp [opening, Engine.nextRequest, Engine.initial, Scheduler.ownedBy, Engine.go] at hid

/-- In a session whose listeners wait for events that may be keys, and in which nobody puts another graph
in the place of the current one by hand: nothing is ever registered while the engine is stopped or by a
node that is gone exactly when nothing is registered at a time when the engine is stopped or the node is
gone. -/
theorem leakless_iff_made_in_time {run : Nat → Engine.Turn} {n : Nat} (hopens : Opens (run 0))
    (hplay : ∀ i < n, Play (run i) (run (i + 1)))
    (hkeys : ∀ i < n, ∀ r ∈ (run i).engine.scheduler.active none, r.event.hashable = true)
    (hgraph : ∀ i < n, ∀ text, ¬(run i).Carries (.replaceGraph text)) :
    (∀ i ≤ n, (run i).engine.Leakless) ↔ ∀ i < n, ∀ r ∈ made (run i) (run (i + 1)),
      (run i).engine.running = true ∧ (run i).engine.graph.hasNode r.owner = true := by
  have hreach : ∀ i ≤ n, Reachable (run i) := by
    intro i hi
    induction i with
    | zero => exact .start hopens
    | succ i ih => exact .play (ih (Nat.le_of_succ_le hi)) (hplay i hi)
  constructor
  · intro hall i hi r hr
    obtain ⟨hrun, hnodes⟩ := (hplay i hi).same_of_made (hreach i (Nat.le_of_lt hi)).kempt hr
    have hactive := (mem_made.mp hr).1
    have hl := hall (i + 1) hi
    rw [← hrun, ← hnodes]
    refine ⟨?_, hl.owned r hactive⟩
    cases hflag : (run (i + 1)).engine.running with
    | true => rfl
    | false =>
      rw [hl.stopped hflag] at hactive
      cases hactive
  · intro hmade i hi
    induction i with
    | zero => exact hopens.leakless
    | succ i ih =>
      have hbefore := (hreach i (Nat.le_of_succ_le hi)).kempt
      have hattended := (Engine.leakless_iff hbefore.scheduler).mp (ih (Nat.le_of_succ_le hi))
      exact (Engine.leakless_iff (hreach (i + 1) hi).kempt.scheduler).mpr
        ((hplay i hi).attended hbefore hattended (hkeys i hi) (hgraph i hi) (hmade i hi))

/-! ## A listener that is late -/

/-- Whether the strand under way puts another graph in the place of the current one. -/
def Engine.Turn.replaces (t : Engine.Turn) : Bool :=
  match t.next with
  | some (_, .call (.request (.command (.replaceGraph _)))) => true
  | some (_, .call (.behave _ (.edit (.replaceGraph _) _))) => true
  | _ => false

theorem Engine.Turn.Carries.replaces {t : Engine.Turn} {text : String}
    (h : t.Carries (.replaceGraph text)) : t.replaces = true := by
  obtain ⟨s, sig, hn, rfl | ⟨i, k, rfl⟩⟩ := h
  · unfold Engine.Turn.replaces
    rw [hn]
  · unfold Engine.Turn.replaces
    rw [hn]

/-- A node of the library listens for an event whose name it gets from a node that gives way to others
before it answers. -/
def lateSession (requests : List Request) : Engine.Turn :=
  opening (.initial {}
    { kinds := .sketch "name" .expression [] [Library.yields "value" .string]
        (some fun _ => .wait .checkpoint fun _ => .finish (.str "go")) :: Library.registry.kinds }
    { nodes := [{ serial := 0, id := "s", kind := "event.start" }, { serial := 1, id := "n", kind := "name" },
        { serial := 2, id := "e", kind := "event.listen" }]
      edges := [⟨"n", "value", "e", "name"⟩]
      nextSerial := 3 } 0.01)
    requests

/-- The state after a number of steps of that session. -/
def late (requests : List Request) (n : Nat) : Engine.Turn := (follow n (lateSession requests, fun _ => {})).1

theorem opens_late (requests : List Request) : Opens (late requests 0) :=
  ⟨_, _, _, _, _, ⟨by decide, by decide⟩, rfl⟩

/-- A run whose listener is registered in time, and goes with its node before the run is stopped. -/
def timely : List Request := [.run, .command (.removeNode "e"), .command .stop]

/-- Nothing leaks, neither while the listener is registered nor after the stop. -/
theorem leakless_timely : ((late timely 33).engine.scheduler.active none).length = 1 ∧
    (late timely 33).engine.Leakless ∧ (late timely 37).engine.Leakless := by
  have hone : ((late timely 33).engine.scheduler.active none).length = 1 := by decide +kernel
  have hgoes : ∀ i < 37, (Engine.advance (late timely i)).isSome = true := by decide +kernel
  have hkeys : ∀ i < 37, ((late timely i).engine.scheduler.active none).all
      (fun r => r.event.hashable) = true := by decide +kernel
  have hkept : ∀ i < 37, (late timely i).replaces = false := by decide +kernel
  have htime : ∀ i < 37, (made (late timely i) (late timely (i + 1))).all
      (fun r => (late timely i).engine.running && (late timely i).engine.graph.hasNode r.owner) = true := by
    decide +kernel
  have hgraph : ∀ i < 37, ∀ text, ¬(late timely i).Carries (.replaceGraph text) := fun i hi text hc => by
    have hnot := hkept i hi
    rw [hc.replaces] at hnot
    cases hnot
  have hall := (leakless_iff_made_in_time (opens_late timely)
    (fun i hi => .of_advance (advance_follow (hgoes i hi))) (fun i hi => List.all_eq_true.mp (hkeys i hi))
    hgraph).mpr fun i hi r hr => Bool.and_eq_true_iff.mp (List.all_eq_true.mp (htime i hi) r hr)
  exact ⟨hone, hall 33 (by omega), hall 37 (by omega)⟩

/-- A run that is stopped while its listener waits for the name. -/
def tardy : List Request := [.startRun "r", .tick 1, .command .stop, .waitRun "r"]

/-- The listener is registered though the engine is stopped, and stays so. -/
theorem leaks_after_stop : ∃ t, Reachable t ∧ t.engine.closed = true ∧ t.engine.running = false ∧
    t.engine.scheduler.active none ≠ [] := by
  have hclosed : (late tardy 41).engine.closed = true := by decide +kernel
  have hstop : (late tardy 41).engine.running = false := by decide +kernel
  have hactive : ((late tardy 41).engine.scheduler.active none).isEmpty = false := by decide +kernel
  have h : Reachable (late tardy 41) := (Reachable.start (opens_late tardy)).follow 41 _
  exact ⟨late tardy 41, h, hclosed, hstop, by simpa using hactive⟩

end Patchbay
