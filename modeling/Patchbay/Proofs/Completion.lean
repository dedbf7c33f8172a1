import Patchbay.Proofs.Histories

/-!
# Stops that complete

A stop clears the flag, cancels everything that is registered, ends all sleeps, tears down every node and
tells observers. It can fail at one point only: a listener whose event may not be a key is registered by
its owner and cannot be cancelled. Then the flag is cleared and nothing after that point is done.

Contents:
* `Registry.farewell?`, `Registry.torn`: what the teardown of a node tells observers, and what it leaves.
* `Engine.Stopped`: the state after a stop that completes.

Results:
* `stop_completes_iff`: when a stop completes, and what is then done.
* `stop_raises`: a session whose stop fails.
-/

namespace Patchbay

/-! ## Teardowns -/

/-- What observers are told when a node is torn down. -/
def Registry.farewell? (r : Registry Behavior) (n : Node) : Option Notice :=
  match (r.find? n.kind).bind Kind.teardown with
  | some (.note _) => some (.tornDown n.id)
  | _ => none

/-- A node after its teardown. -/
def Registry.torn (r : Registry Behavior) (n : Node) : Node :=
  match (r.find? n.kind).bind Kind.teardown with
  | some (.forget key) => n.forget key
  | _ => n

namespace Engine

/-- An engine after the teardowns of some nodes: each was called once, in order. -/
structure TornDown (ns : List Node) (e e' : Engine) : Prop where
  registry : e'.registry = e.registry
  running : e'.running = e.running
  scheduler : e'.scheduler = e.scheduler
  trace : e'.trace.toList = e.trace.toList ++ ns.filterMap e.registry.farewell?
  nodes : e'.graph.nodes = e.graph.nodes.map fun m =>
    if m.serial ∈ ns.map Node.serial then e.registry.torn m else m

theorem tornDown_tearDown (e : Engine) {n : Node}
    (hkind : ∀ m ∈ e.graph.nodes, m.serial = n.serial → m.kind = n.kind) :
    TornDown [n] e (e.tearDown n) := by
  -- whatever the teardown does to the nodes with the serial of the one that is torn down
  have hnodes : ∀ {f : Node → Node}, (∀ m : Node, m.kind = n.kind → e.registry.torn m = f m) →
      (e.graph.nodes.map fun m => if m.serial == n.serial then f m else m) = e.graph.nodes.map fun m =>
        if m.serial ∈ [n].map Node.serial then e.registry.torn m else m := by
    intro f hf
    refine List.map_congr_left fun m hm => ?_
    simp only [List.map_cons, List.map_nil, List.mem_singleton, beq_iff_eq]
    split
    · next hs => rw [hf m (hkind m hm hs)]
    · rfl
  have hidle : (∀ m : Node, m.kind = n.kind → e.registry.torn m = m) →
      e.graph.nodes = e.graph.nodes.map fun m =>
        if m.serial ∈ [n].map Node.serial then e.registry.torn m else m := by
    intro hf
    rw [← hnodes hf]
    simp
  cases ht : (e.registry.find? n.kind).bind Kind.teardown with
  | none =>
    have hsame : e.tearDown n = e := by simp only [tearDown, ht]
    rw [hsame]
    refine ⟨rfl, rfl, rfl, ?_, hidle fun m hm => ?_⟩
    · simp [Registry.farewell?, ht]
    · simp only [Registry.torn, hm, ht]
  | some teardown =>
    cases teardown with
    | forget key =>
      have hforget : e.tearDown n = e.modifyNode n.serial fun n => n.forget key := by
        simp only [tearDown, ht]
      rw [hforget]
      refine ⟨rfl, rfl, rfl, ?_, hnodes fun m hm => ?_⟩
      · simp [Registry.farewell?, ht, modifyNode]
      · simp only [Registry.torn, hm, ht]
    | note fails =>
      have hnote : e.tearDown n = e.emit (.tornDown n.id) := by simp only [tearDown, ht]
      rw [hnote]
      refine ⟨rfl, rfl, rfl, ?_, hidle fun m hm => ?_⟩
      · simp [Registry.farewell?, ht, emit]
      · simp only [Registry.torn, hm, ht]

theorem torn_same (r : Registry Behavior) (p : Prop) [Decidable p] (n : Node) :
    (if p then r.torn n else n).serial = n.serial ∧ (if p then r.torn n else n).kind = n.kind := by
  unfold Registry.torn
  split
  · split <;> exact ⟨rfl, rfl⟩
  · exact ⟨rfl, rfl⟩

/-- The teardowns of nodes that are told apart. -/
theorem tornDown_foldl (ns : List Node) (e : Engine) (hd : (ns.map Node.serial).Nodup)
    (hkind : ∀ m ∈ e.graph.nodes, ∀ n ∈ ns, m.serial = n.serial → m.kind = n.kind) :
    TornDown ns e (ns.foldl tearDown e) := by
  induction ns generalizing e with
  | nil => exact ⟨rfl, rfl, rfl, by simp, by simp⟩
  | cons n rest ih =>
    obtain ⟨hnew, hrest⟩ := List.nodup_cons.mp hd
    have h₁ := tornDown_tearDown e fun m hm => hkind m hm n List.mem_cons_self
    have hlater : ∀ m ∈ (e.tearDown n).graph.nodes, ∀ x ∈ rest, m.serial = x.serial → m.kind = x.kind := by
      intro m hm x hx
      rw [h₁.nodes] at hm
      obtain ⟨m, hmem, rfl⟩ := List.mem_map.mp hm
      rw [(torn_same _ _ m).1, (torn_same _ _ m).2]
      exact hkind m hmem x (List.mem_cons_of_mem _ hx)
    have h₂ := ih (e.tearDown n) hrest hlater
    refine ⟨h₂.registry.trans h₁.registry, h₂.running.trans h₁.running, h₂.scheduler.trans h₁.scheduler,
      ?_, ?_⟩
    · rw [List.foldl_cons, h₂.trace, h₁.trace, h₁.registry, List.append_assoc, ← List.filterMap_append]
      rfl
    · rw [List.foldl_cons, h₂.nodes, h₁.nodes, h₁.registry, List.map_map]
      refine List.map_congr_left fun m hm => ?_
      simp only [Function.comp, (torn_same _ _ m).1, List.map_cons, List.map_nil, List.mem_cons,
        List.not_mem_nil, or_false]
      by_cases hs : m.serial = n.serial
      · rw [if_pos hs, hs, if_neg hnew, if_pos (.inl rfl)]
      · simp only [hs, if_false, false_or]

/-! ## Stops -/

/-- The state after a stop that completes: nothing is registered and nobody sleeps, nothing is queued,
every node was torn down once, and observers know how much was cancelled. -/
structure Stopped (e e' : Engine) : Prop where
  running : e'.running = false
  active : e'.scheduler.active none = []
  awake : ∀ x ∈ e'.scheduler.sleepers, x.outcome.isSome = true
  queue : e'.stepQueue = []
  nodes : e'.graph.nodes = e.graph.nodes.map e.registry.torn
  trace : e'.trace.toList = e.trace.toList ++ e.graph.nodes.filterMap e.registry.farewell? ++
    [.runStopped (e.scheduler.active none).length]

/-- The state after a stop that fails: the flag is cleared, and no more is done than to cancel some of
what is registered. -/
structure Stuck (e e' : Engine) : Prop where
  running : e'.running = false
  sleepers : e'.scheduler.sleepers = e.scheduler.sleepers
  queue : e'.stepQueue = e.stepQueue
  nodes : e'.graph = e.graph
  trace : e'.trace = e.trace

section Stops

variable {e : Engine}

theorem stop_of_ok {n : Nat} {s : Scheduler Firing Job} (h : e.scheduler.cancelAll = (.ok n, s)) :
    e.stop = (.ok (), { e.graph.nodes.foldl tearDown { e with running := false, scheduler := s.wakeAll.2 } with
      stepQueue := [] }.emit (.runStopped n)) := by
  simp only [stop, h]

theorem stop_of_error {f : Fault} {s : Scheduler Firing Job} (h : e.scheduler.cancelAll = (.error f, s)) :
    e.stop = (.error (.fault f), { e with running := false, scheduler := s }) := by
  simp only [stop, h]

/-- A stop completes when the events of all active registrations may be keys. -/
theorem Kempt.stop_ok (h : e.Kempt) (hk : ∀ r ∈ e.scheduler.active none, r.event.hashable = true) :
    e.stop.1 = .ok () ∧ e.Stopped e.stop.2 := by
  obtain ⟨hresult, hnone⟩ := h.scheduler.cancelAll.1 hk
  have htidy : e.scheduler.cancelAll.2.Tidy :=
    (Scheduler.Evolves.cancelAll (P := fun _ => False) e.scheduler).tidy h.scheduler
  have hwoken : Scheduler.Evolves (fun _ => False) e.scheduler.cancelAll.2 e.scheduler.cancelAll.2.wakeAll.2 :=
    .wakeAll _
  let e₁ : Engine := { e with running := false, scheduler := e.scheduler.cancelAll.2.wakeAll.2 }
  have htorn : TornDown e.graph.nodes e₁ (e.graph.nodes.foldl tearDown e₁) := by
    refine tornDown_foldl _ e₁ h.graph.serials fun m hm n hn hs => ?_
    rw [List.inj_on_of_nodup_map h.graph.serials hm hn hs]
  have hstop := stop_of_ok (e := e) (Prod.ext hresult rfl)
  rw [hstop]
  refine ⟨rfl, htorn.running, ?_, ?_, rfl, ?_, ?_⟩
  · show (e.graph.nodes.foldl tearDown e₁).scheduler.active none = []
    rw [htorn.scheduler]
    refine (hwoken.tidy htidy).active_eq_nil fun owner => List.eq_nil_iff_forall_not_mem.mpr fun id hid => ?_
    rcases hwoken.owned htidy owner id hid with hid | ⟨hnever, -⟩
    · rw [hnone owner] at hid
      cases hid
    · exact hnever
  · show ∀ x ∈ (e.graph.nodes.foldl tearDown e₁).scheduler.sleepers, x.outcome.isSome = true
    rw [htorn.scheduler]
    exact htidy.wakeAll
  · show (e.graph.nodes.foldl tearDown e₁).graph.nodes = _
    rw [htorn.nodes]
    refine List.map_congr_left fun m hm => ?_
    rw [if_pos (List.mem_map_of_mem hm)]
  · show ((e.graph.nodes.foldl tearDown e₁).trace.push _).toList = _
    rw [Array.toList_push, htorn.trace]

/-- A stop fails when the event of an active registration may not be a key. -/
theorem Kempt.stop_error (h : e.Kempt) (hk : ¬∀ r ∈ e.scheduler.active none, r.event.hashable = true) :
    e.stop.1 = .error (.fault .type) ∧ e.Stuck e.stop.2 := by
  have hresult := h.scheduler.cancelAll.2 hk
  rw [stop_of_error (e := e) (Prod.ext hresult rfl)]
  exact ⟨rfl, rfl, Scheduler.sleepers_cancelAll _, rfl, rfl, rfl⟩

end Stops

end Engine

/-- A stop completes exactly when the events of all active registrations may be keys. Then everything is
done that a stop is for; else the flag is cleared, and no node is torn down, no sleep ended and nobody
told. -/
theorem stop_completes_iff {t : Engine.Turn} (h : Reachable t) :
    (t.engine.stop.1 = .ok () ↔ ∀ r ∈ t.engine.scheduler.active none, r.event.hashable = true) ∧
      (t.engine.stop.1 = .ok () → t.engine.Stopped t.engine.stop.2) ∧
      (t.engine.stop.1 ≠ .ok () →
        t.engine.stop.1 = .error (.fault .type) ∧ t.engine.Stuck t.engine.stop.2) := by
  by_cases hk : ∀ r ∈ t.engine.scheduler.active none, r.event.hashable = true
  · obtain ⟨hok, hstopped⟩ := h.kempt.stop_ok hk
    exact ⟨⟨fun _ => hk, fun _ => hok⟩, fun _ => hstopped, fun hnot => absurd hok hnot⟩
  · obtain ⟨herror, hstuck⟩ := h.kempt.stop_error hk
    have hnot : t.engine.stop.1 ≠ .ok () := by
      rw [herror]
      exact fun heq => by cases heq
    exact ⟨⟨fun hok => absurd hok hnot, fun hall => absurd hall hk⟩, fun hok => absurd hok hnot,
      fun _ => ⟨herror, hstuck⟩⟩

/-! ## Listeners for a name that is wired -/

/-- A statement whose teardown observers hear of. -/
def bell : Kind Behavior :=
  { Kind.sketch "bell" .statement [{ id := "exec", valueType := .exec }] [Library.leads "exec"] none with
    teardown := some (.note false) }

/-- A run of a graph with a bell, in which a node of the library listens for an event whose name it gets
from another node. -/
def bellSession (name : Value) : Engine.Turn :=
  opening (.initial {}
    { kinds := .sketch "name" .expression [] [Library.yields "value" .any] (some fun _ => .finish name) ::
        bell :: Library.registry.kinds }
    { nodes := [{ serial := 0, id := "s", kind := "event.start" }, { serial := 1, id := "n", kind := "name" },
        { serial := 2, id := "e", kind := "event.listen" }, { serial := 3, id := "b", kind := "bell" }]
      edges := [⟨"n", "value", "e", "name"⟩, ⟨"s", "exec", "b", "exec"⟩]
      nextSerial := 4 } 0.01)
    [.run]

/-- The state after a number of steps of that session. -/
def rung (name : Value) (n : Nat) : Engine.Turn := (follow n (bellSession name, fun _ => {})).1

theorem reachable_rung (name : Value) (n : Nat) : Reachable (rung name n) := by
  refine (Reachable.start ⟨_, _, _, _, _, ?_, rfl⟩).follow n _
  exact ⟨by decide, by decide⟩

/-- The stop of a run with one listener, for a text. -/
theorem stop_completes_rung : (rung (.str "go") 31).engine.stop.1 = .ok () ∧
    (rung (.str "go") 31).engine.Stopped (rung (.str "go") 31).engine.stop.2 ∧
    ((rung (.str "go") 31).engine.scheduler.active none).length = 1 := by
  have hkeys : ((rung (.str "go") 31).engine.scheduler.active none).all (fun r => r.event.hashable) = true := by
    decide +kernel
  have hone : ((rung (.str "go") 31).engine.scheduler.active none).length = 1 := by decide +kernel
  obtain ⟨hiff, hstopped, -⟩ := stop_completes_iff (reachable_rung (.str "go") 31)
  have hok := hiff.mpr (List.all_eq_true.mp hkeys)
  exact ⟨hok, hstopped hok, hone⟩

/-- The stop of a run with one listener, for a list: it fails, and the bell is not torn down. -/
theorem stop_raises : ∃ t, Reachable t ∧ t.engine.running = true ∧ t.engine.stop.1 = .error (.fault .type) ∧
    t.engine.graph.nodes.filterMap t.engine.registry.farewell? ≠ [] ∧
    t.engine.stop.2.trace = t.engine.trace := by
  have hrun : (rung (.list [.int 1]) 31).engine.running = true := by decide +kernel
  have hkeys : ((rung (.list [.int 1]) 31).engine.scheduler.active none).all
      (fun r => r.event.hashable) = false := by decide +kernel
  have hbell : ((rung (.list [.int 1]) 31).engine.graph.nodes.filterMap
      (rung (.list [.int 1]) 31).engine.registry.farewell?).isEmpty = false := by decide +kernel
  have hnot : ¬∀ r ∈ (rung (.list [.int 1]) 31).engine.scheduler.active none, r.event.hashable = true := by
    rw [← List.all_eq_true, hkeys]
    exact Bool.false_ne_true
  have h := reachable_rung (.list [.int 1]) 31
  obtain ⟨herror, hstuck⟩ := h.kempt.stop_error hnot
  exact ⟨_, h, hrun, herror, by simpa using hbell, hstuck.trace⟩

end Patchbay
