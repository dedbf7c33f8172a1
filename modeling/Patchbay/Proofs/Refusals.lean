import Patchbay.Proofs.Completion
import Patchbay.Proofs.Deliveries

/-!
# Edits that are refused

A command that changes the graph, or loads a document, does all that may fail before it changes anything. What is
left to do then is to cancel registrations, and that cannot fail when listeners wait for names: a name may be a key.
So a command that is refused leaves an engine as it was. Only the number of ids that were made up may have grown: one
is made up before a node is refused.

Contents:
* `Scheduler.Named`: listeners wait for names; `Engine.Untouched`: engines that are the same.
* `Command.restructures`: the commands that change the graph.

Results:
* `Engine.disarm_ok`, `Engine.removeNode_ok`: what cannot fail.
* `refused_unchanged`: commands that are refused.
-/

namespace Patchbay

/-- Whether the listeners that are registered wait for events that are named by texts. -/
def Scheduler.Named (s : Scheduler Firing Job) : Prop :=
  ∀ r ∈ s.active none, r.kind = .listener → ∃ name, r.event = .str name

theorem Scheduler.named_of_all {s : Scheduler Firing Job}
    (h : (s.active none).all (fun r => r.kind != .listener || r.event.text?.isSome) = true) : s.Named := by
  intro r hr hk
  have hname := List.all_eq_true.mp h r hr
  simp only [hk, bne_self_eq_false, Bool.false_or, Option.isSome_iff_exists] at hname
  obtain ⟨name, hname⟩ := hname
  exact ⟨name, Scheduler.text?_eq_some.mp hname⟩

/-- Whether an engine is as another one, but for the number of ids that were made up. -/
def Engine.Untouched (e e' : Engine) : Prop := e' = { e with minted := e'.minted }

theorem Engine.Untouched.of_eq {e e' : Engine} (h : e' = e) : e.Untouched e' := by
  rw [h]
  rfl

/-- Whether a command changes the graph, or puts a document in its place. -/
def Command.restructures (c : Command) : Prop := c.editsGraph = true ∨ ∃ text, c = .load text

/-- The events of registrations may be keys when listeners wait for names. -/
theorem Scheduler.Named.hashable {s : Scheduler Firing Job} (h : s.Named) (hattuned : s.Attuned) (htidy : s.Tidy) :
    ∀ r ∈ s.active none, r.event.hashable = true := by
  intro r hr
  by_cases hk : r.kind = .listener
  · obtain ⟨name, hname⟩ := h r hr hk
    rw [hname]
    rfl
  · have hfind := (htidy.mem_active.mp hr).2
    rw [(hattuned.regular r (List.mem_of_find?_eq_some hfind)).event hk]
    rfl

namespace Engine

variable {e : Engine}

/-- Nodes can be disarmed when the events of all registrations may be keys. -/
theorem disarm_ok (h : e.scheduler.Tidy) (hk : ∀ r ∈ e.scheduler.active none, r.event.hashable = true) (n : Node) :
    (e.disarm n).1 = .ok () := by
  have hkeyed : ∀ owner, ∀ id ∈ e.scheduler.ownedBy owner, e.scheduler.Keyed id := h.keyed_iff.mpr hk
  have hcancel := (h.cancelOwner_ok (hkeyed n.id)).1
  unfold disarm
  split
  · next heq =>
    rw [heq] at hcancel
    cases hcancel
  · rfl

/-- A node that is there can be removed when it can be disarmed. -/
theorem removeNode_ok {id : String} {n : Node} (hn : e.graph.node? id = some n) (hdisarm : (e.disarm n).1 = .ok ()) :
    ∃ m, (e.removeNode id).1 = .ok m := by
  obtain ⟨e₁, heq⟩ : ∃ e₁, e.disarm n = (.ok (), e₁) := ⟨_, Prod.ext hdisarm rfl⟩
  have hstays : e₁.graph.hasNode id = true := by
    have hgrows := Graph.Grows.revises (disarm_graph e n).1
    rw [heq] at hgrows
    refine hgrows.nodes id ?_
    rw [Graph.hasNode_eq_isSome, hn]
    rfl
  rw [Graph.hasNode_eq_isSome, Option.isSome_iff_exists] at hstays
  obtain ⟨m, hm⟩ := hstays
  refine ⟨m, ?_⟩
  simp only [removeNode, hn, heq, Graph.removeNode, Graph.requireNode, hm, bind, Except.bind, pure, Except.pure]

/-- A node that cannot be removed is not there. -/
theorem removeNode_refused (hdisarm : ∀ n, (e.disarm n).1 = .ok ()) {id : String} {err : Raised}
    (h : (e.removeNode id).1 = .error err) : (e.removeNode id).2 = e := by
  cases hn : e.graph.node? id with
  | none => simp only [removeNode, hn]
  | some n =>
    obtain ⟨m, hm⟩ := removeNode_ok hn (hdisarm n)
    rw [hm] at h
    cases h

/-- Only an id may have been made up for a node that is refused. -/
theorem addNode_refused {kind : String} {literals : Named} {id : Option String} {err : Raised}
    (h : (e.addNode kind literals id).1 = .error err) :
    e.Untouched (e.addNode kind literals id).2 := by
  have hid : e.Untouched (e.nodeId id).2 := by
    unfold nodeId
    split <;> rfl
  unfold addNode at h ⊢
  split at h
  · rfl
  · dsimp only at h ⊢
    split at h
    · exact hid
    · cases h

theorem addEdge_refused {x : Edge} {err : Raised} (h : (e.addEdge x).1 = .error err) : (e.addEdge x).2 = e := by
  unfold addEdge at h ⊢
  split at h
  · rfl
  · cases h

theorem putGraph_refused {r : Except Raised Graph} {err : Raised} (h : (e.putGraph r).1 = .error err) :
    (e.putGraph r).2 = e := by
  cases r with
  | error => rfl
  | ok g => cases h

/-- A document that is refused cannot be made into a graph. -/
theorem loadDocument_refused (hstop : e.stop.1 = .ok ()) {d : Document} {err : Raised}
    (h : (e.loadDocument d).1 = .error err) : (e.loadDocument d).2 = e := by
  unfold loadDocument at h ⊢
  split at h
  · rfl
  · split at h
    · next heq =>
      rw [heq] at hstop
      cases hstop
    · cases h

theorem load_refused (hstop : e.stop.1 = .ok ()) {text : String} {err : Raised} (h : (e.load text).1 = .error err) :
    (e.load text).2 = e := by
  unfold load at h ⊢
  split at h
  · rfl
  · exact loadDocument_refused hstop h

theorem error_of_map {α β : Type} {f : α → β} {x : Except Raised α} {err : Raised} (h : x.map f = .error err) :
    x = .error err := by
  cases x with
  | ok a => cases h
  | error err' => exact congrArg Except.error (Except.error.inj h)

/-- What a command that is refused leaves, when nodes can be disarmed and the engine can be stopped. -/
theorem command_refused (hdisarm : ∀ n, (e.disarm n).1 = .ok ()) (hstop : e.stop.1 = .ok ()) {c : Command}
    (hc : c.restructures) {err : Raised} (h : (e.command c).1 = .error err) : e.Untouched (e.command c).2 := by
  rcases hc with hc | ⟨text, rfl⟩
  · cases c with
    | addNode kind literals id =>
      rw [command_addNode] at h ⊢
      exact addNode_refused (error_of_map h)
    | removeNode id =>
      rw [command_removeNode] at h ⊢
      exact .of_eq (removeNode_refused hdisarm (error_of_map h))
    | addEdge x =>
      rw [command_addEdge] at h ⊢
      exact .of_eq (addEdge_refused (error_of_map h))
    | connect x =>
      rw [command_connect] at h ⊢
      exact .of_eq (addEdge_refused (error_of_map h))
    | removeEdge x => cases h
    | setLiteral id port v => exact .of_eq (putGraph_refused h)
    | _ => cases hc
  · rw [command_load] at h ⊢
    exact .of_eq (load_refused hstop (error_of_map h))

end Engine

section Runs

variable {run : Nat → Engine.Turn} {n k : Nat}

/-- Commands that are refused leave no trace. Whenever a command that changes the graph or loads a document is
answered by an error, or a document is refused, the engine is as it was but for the number of ids that were made
up. -/
theorem refused_unchanged (hopens : Opens (run 0)) (hbeats : ∀ k < n, Beat (run k) (run (k + 1))) (hk : k ≤ n)
    (hnamed : (run k).engine.scheduler.Named) :
    (∀ (c : Command) err, c.restructures → ((run k).engine.command c).1 = .error err →
      (run k).engine.Untouched ((run k).engine.command c).2) ∧
    ∀ d err, ((run k).engine.loadDocument d).1 = .error err → ((run k).engine.loadDocument d).2 = (run k).engine := by
  have htidy := (reachable_run hopens (fun k hk => (hbeats k hk).play) hk).kempt
  have hattuned := (tallies_run hopens hbeats 0 hk).attuned
  have hhashable := hnamed.hashable hattuned htidy.scheduler
  have hdisarm := Engine.disarm_ok htidy.scheduler hhashable
  have hstop := (htidy.stop_ok hhashable).1
  exact ⟨fun c err hc herr => Engine.command_refused hdisarm hstop hc herr,
    fun d err herr => Engine.loadDocument_refused hstop herr⟩

end Runs

/-! ## A document with an edge that does not fit -/

/-- A document whose last edge leads to an input that its node does not have. -/
def misfit : Document :=
  { nodes := [{ id := "a", kind := "event.start" }, { id := "b", kind := "debug.log" }]
    edges := [⟨"a", "exec", "b", "exec"⟩, ⟨"a", "exec", "b", "in"⟩]
    globals := [("x", .int 1)] }

/-- While an interval and a listener are registered, a node with a literal for no input is refused, and so is the
document. -/
theorem refused_unchanged_chimed :
    ((chimed 45).engine.scheduler.active none).length = 2 ∧
      (∃ err, ((chimed 45).engine.command (.addNode "debug.log" [("message", .int 1), ("in", .int 2)] none)).1 =
        .error err) ∧
      (chimed 45).engine.Untouched
        ((chimed 45).engine.command (.addNode "debug.log" [("message", .int 1), ("in", .int 2)] none)).2 ∧
      (∃ err, ((chimed 45).engine.loadDocument misfit).1 = .error err) ∧
      ((chimed 45).engine.loadDocument misfit).2 = (chimed 45).engine := by
  have hopens : Opens (chimed 0) := by
    show Opens chimeSession
    exact ⟨_, _, _, _, _, ⟨by decide +kernel, by decide +kernel⟩, rfl⟩
  have hgoes : ∀ k < 45, (Engine.advance (chimed k)).isSome = true := by decide +kernel
  have hbeats : ∀ k < 45, Beat (chimed k) (chimed (k + 1)) := fun k hk => .of_advance (advance_follow (hgoes k hk))
  have hnamed : (chimed 45).engine.scheduler.Named := Scheduler.named_of_all (by decide +kernel)
  obtain ⟨hedits, hloads⟩ := refused_unchanged hopens hbeats le_rfl hnamed
  obtain ⟨err, herr⟩ : ∃ err, ((chimed 45).engine.command
      (.addNode "debug.log" [("message", .int 1), ("in", .int 2)] none)).1 = .error err := by
    with_unfolding_all exact ⟨_, rfl⟩
  obtain ⟨err', herr'⟩ : ∃ err, ((chimed 45).engine.loadDocument misfit).1 = .error err := by
    with_unfolding_all exact ⟨_, rfl⟩
  exact ⟨by decide +kernel, ⟨err, herr⟩, hedits _ _ (.inl rfl) herr, ⟨err', herr'⟩, hloads _ _ herr'⟩

end Patchbay
