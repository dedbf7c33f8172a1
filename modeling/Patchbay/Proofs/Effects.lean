import Patchbay.Proofs.Integrity
import Patchbay.Proofs.Outcomes
import Patchbay.Proofs.Sleeps

/-!
# What a turn does

A turn of a strand or a job of the loop changes much of an engine. Most of them leave alone what an
editor has set up: the flag that says whether the engine runs, the nodes, and who has registered
something. The exceptions are few: requests that begin a run, questions of a behaviour that register
something, and commands.

Contents:
* `Engine.Keeps`: what changes such as these leave alone.
* `Engine.Begins`, `Signal.Registers`, `Signal.Carries`: the exceptions.

Results:
* `Engine.turn_effect`: what a turn does.
* `Engine.Keeps.handle`: what a job does.
* `Engine.Keeps.command`: what most commands do.
* `Engine.command_clears`: what the others do.
-/

namespace Patchbay

/-- Whether observers are told that a trigger has started. -/
def Notice.StartsTrigger : Notice → Prop
  | .triggerStarted _ _ _ => True
  | _ => False

/-- Whether a command may take nodes away or stop the engine. -/
def Command.clears : Command → Bool
  | .removeNode _ => true
  | .replaceGraph _ => true
  | .stop => true
  | .load _ => true
  | _ => false

/-- Whether a question registers something. -/
def Query.registers : Query → Bool
  | .every _ _ => true
  | .fireLater _ _ => true
  | .listen _ _ => true
  | _ => false

/-- Whether a signal is a question by which the behaviour of a node registers something. -/
def Signal.Registers (sig : Signal) (owner : String) : Prop :=
  ∃ i q k, sig = .call (.behave i (.ask q k)) ∧ q.registers = true ∧ i.node = owner

/-- Whether a signal carries out a command, for an editor or for a behaviour. -/
def Signal.Carries (sig : Signal) (c : Command) : Prop :=
  sig = .call (.request (.command c)) ∨ ∃ i k, sig = .call (.behave i (.edit c k))

/-! ## Nodes -/

namespace Graph

/-- Whether nodes are told apart by their serials, and from nodes to come. -/
structure Numbered (g : Graph) : Prop where
  serials : (g.nodes.map Node.serial).Nodup
  next : ∀ n ∈ g.nodes, n.serial < g.nextSerial

/-- A graph that still has every node, told apart as before. -/
structure Grows (g g' : Graph) : Prop where
  nodes : ∀ id, g.hasNode id = true → g'.hasNode id = true
  numbered : g.Numbered → g'.Numbered
  distinct : (g.nodes.map Node.id).Nodup → (g'.nodes.map Node.id).Nodup

namespace Grows

variable {g g' g'' : Graph}

theorem refl (g : Graph) : g.Grows g := ⟨fun _ => id, id, id⟩

theorem trans (h : g.Grows g') (h' : g'.Grows g'') : g.Grows g'' :=
  ⟨fun id hid => h'.nodes id (h.nodes id hid), fun hn => h'.numbered (h.numbered hn),
    fun hd => h'.distinct (h.distinct hd)⟩

/-- A change of the edges. -/
theorem of_nodes (hn : g'.nodes = g.nodes) (hs : g'.nextSerial = g.nextSerial) : g.Grows g' := by
  refine ⟨fun id hid => ?_, fun hnum => ⟨?_, ?_⟩, fun hd => ?_⟩
  · rw [hasNode, hn]
    exact hid
  · rw [hn]
    exact hnum.serials
  · rw [hn, hs]
    exact hnum.next
  · rw [hn]
    exact hd

/-- A change of what nodes hold. -/
theorem map {f : Node → Node} (hf : ∀ n, (f n).serial = n.serial ∧ (f n).id = n.id)
    (hn : g'.nodes = g.nodes.map f) (hs : g'.nextSerial = g.nextSerial) : g.Grows g' := by
  refine ⟨fun id hid => ?_, fun hnum => ⟨?_, fun n hmem => ?_⟩, fun hd => ?_⟩
  · rw [hasNode, hn, List.any_map]
    simpa only [hasNode, Function.comp_def, (hf _).2] using hid
  · have hserials : Node.serial ∘ f = Node.serial := funext fun n => (hf n).1
    rw [hn, List.map_map, hserials]
    exact hnum.serials
  · rw [hn] at hmem
    obtain ⟨m, hm, rfl⟩ := List.mem_map.mp hmem
    rw [hs, (hf m).1]
    exact hnum.next m hm
  · have hids : Node.id ∘ f = Node.id := funext fun n => (hf n).2
    rw [hn, List.map_map, hids]
    exact hd

theorem revises (h : g.Revises g') : g.Grows g' := by
  obtain ⟨f, hf, rfl⟩ := h
  exact map (fun n => ⟨(hf n).1, (hf n).2.1⟩) rfl rfl

theorem addNode {β : Type} {k : Kind β} {overrides : Named} {id : String} {n : Node}
    (h : g.addNode k overrides id = .ok (n, g')) : g.Grows g' := by
  obtain ⟨hfresh, literals, -, rfl, rfl⟩ := addNode_eq_ok h
  refine ⟨fun id hid => ?_, fun hnum => ⟨?_, fun n hmem => ?_⟩, fun hd => ?_⟩
  · rw [hasNode] at hid
    rw [hasNode, List.any_append, hid, Bool.true_or]
  · rw [List.map_append, List.nodup_append]
    refine ⟨hnum.serials, List.nodup_singleton _, fun a ha b hb hab => ?_⟩
    obtain ⟨m, hm, rfl⟩ := List.mem_map.mp ha
    simp only [List.map_cons, List.map_nil, List.mem_singleton] at hb
    have hlt := hnum.next m hm
    omega
  · show n.serial < g.nextSerial + 1
    rcases List.mem_append.mp hmem with hmem | hmem
    · have hlt := hnum.next n hmem
      omega
    · rw [List.mem_singleton.mp hmem]
      exact Nat.lt_succ_self _
  · rw [List.map_append, List.nodup_append]
    refine ⟨hd, List.nodup_singleton _, fun a ha b hb hab => ?_⟩
    obtain ⟨m, hm, rfl⟩ := List.mem_map.mp ha
    rw [List.map_singleton, List.mem_singleton] at hb
    have hother := List.find?_eq_none.mp hfresh m hm
    simp [hab, hb] at hother

theorem addEdge {β : Type} {r : Registry β} {x : Edge} {old : Option Edge}
    (h : g.addEdge r x = .ok (old, g')) : g.Grows g' := by
  obtain ⟨-, -, -, -, -, -, -, -, -, ⟨-, rfl⟩ | ⟨-, rfl⟩⟩ := addEdge_eq_ok h
  · exact refl _
  · exact of_nodes rfl rfl

theorem modifyNode (g : Graph) (id : String) {f : Node → Node}
    (hf : ∀ n, (f n).serial = n.serial ∧ (f n).id = n.id) : g.Grows (g.modifyNode id f) := by
  refine map (f := fun n => if n.id == id then f n else n) (fun n => ?_) rfl rfl
  split
  · exact hf n
  · exact ⟨rfl, rfl⟩

end Grows

end Graph

/-! ## What is left alone -/

namespace Engine

/-- An engine with another queue of nodes to step through. -/
def withQueue (e : Engine) (queue : List String) : Engine := { e with stepQueue := queue }

/-- A change that leaves the settings, the flag, the queue and the nodes alone, and in which nobody registers
anything but those who may. Observers are told that a trigger has started only while the engine runs, and while it
runs sleeps last their time. -/
structure Keeps (P : String → Prop) (e e' : Engine) : Prop where
  config : e'.config = e.config
  running : e'.running = e.running
  queue : e'.stepQueue = e.stepQueue
  graph : e.graph.Grows e'.graph
  scheduler : e.scheduler.Evolves P e'.scheduler
  sleeps : e.running = true → e.scheduler.Rests e'.scheduler
  trace : ∃ added, e'.trace.toList = e.trace.toList ++ added ∧
    ∀ n ∈ added, n.StartsTrigger → e.running = true

namespace Keeps

variable {P : String → Prop} {e e' e'' : Engine}

theorem refl (e : Engine) : e.Keeps P e :=
  ⟨rfl, rfl, rfl, .refl _, .refl _, fun _ => .refl _, [], by simp, by simp⟩

theorem trans (h : e.Keeps P e') (h' : e'.Keeps P e'') : e.Keeps P e'' := by
  obtain ⟨added, ht, ha⟩ := h.trace
  obtain ⟨added', ht', ha'⟩ := h'.trace
  refine ⟨h'.config.trans h.config, h'.running.trans h.running, h'.queue.trans h.queue, h.graph.trans h'.graph,
    h.scheduler.trans h'.scheduler, fun hr => (h.sleeps hr).trans (h'.sleeps (h.running.trans hr)), added ++ added',
    by rw [ht', ht, List.append_assoc], fun n hn hs => ?_⟩
  rcases List.mem_append.mp hn with hn | hn
  · exact ha n hn hs
  · rw [← h.running]
    exact ha' n hn hs

theorem mono {P' : String → Prop} (h : e.Keeps P e') (hm : ∀ owner, P owner → P' owner) :
    e.Keeps P' e' :=
  ⟨h.config, h.running, h.queue, h.graph, h.scheduler.mono hm, h.sleeps, h.trace⟩

/-- A change of anything else. -/
theorem of_eq (hc : e'.config = e.config) (hr : e'.running = e.running) (hq : e'.stepQueue = e.stepQueue)
    (hg : e'.graph = e.graph) (hs : e'.scheduler = e.scheduler) (ht : e'.trace = e.trace) : e.Keeps P e' :=
  ⟨hc, hr, hq, hg ▸ .refl _, hs ▸ .refl _, fun _ => hs ▸ .refl _, [], by simp [ht], by simp⟩

/-- An operation after a change of anything else. -/
theorem from_eq (h : e'.Keeps P e'') (hc : e'.config = e.config) (hr : e'.running = e.running)
    (hq : e'.stepQueue = e.stepQueue) (hg : e'.graph = e.graph) (hs : e'.scheduler = e.scheduler)
    (ht : e'.trace = e.trace) : e.Keeps P e'' :=
  (of_eq hc hr hq hg hs ht).trans h

/-- The same change under another queue. -/
theorem withQueue (h : e.Keeps P e') (queue : List String) : (e.withQueue queue).Keeps P (e'.withQueue queue) :=
  ⟨h.config, h.running, rfl, h.graph, h.scheduler, h.sleeps, h.trace⟩

theorem schedule (e : Engine) {s : Scheduler Firing Job} (h : e.scheduler.Evolves P s)
    (hrests : e.running = true → e.scheduler.Rests s) : e.Keeps P { e with scheduler := s } :=
  ⟨rfl, rfl, rfl, .refl _, h, hrests, [], by simp, by simp⟩

theorem putGraph (e : Engine) {g : Graph} (h : e.graph.Grows g) : e.Keeps P { e with graph := g } :=
  ⟨rfl, rfl, rfl, h, .refl _, fun _ => .refl _, [], by simp, by simp⟩

theorem emit (e : Engine) {n : Notice} (hn : n.StartsTrigger → e.running = true) :
    e.Keeps P (e.emit n) := by
  refine ⟨rfl, rfl, rfl, .refl _, .refl _, fun _ => .refl _, [n], by simp [Engine.emit], fun x hx => ?_⟩
  rw [List.mem_singleton.mp hx]
  exact hn

theorem foldl {γ : Type} {f : Engine → γ → Engine} (hf : ∀ (e : Engine) (a : γ), e.Keeps P (f e a))
    (l : List γ) (e : Engine) : e.Keeps P (l.foldl f e) := by
  induction l generalizing e with
  | nil => exact .refl e
  | cons a rest ih => exact (hf e a).trans (ih (f e a))

/-! ## Small operations -/

theorem soon (e : Engine) (j : Job) : e.Keeps P (e.soon j) :=
  schedule e (.of_eq rfl rfl rfl rfl) fun _ => .of_eq rfl rfl

theorem modifyNode (e : Engine) (serial : Nat) {f : Node → Node}
    (hf : ∀ n, (f n).serial = n.serial ∧ (f n).id = n.id ∧ (f n).kind = n.kind ∧
      (f n).literals = n.literals) : e.Keeps P (e.modifyNode serial f) :=
  ⟨rfl, rfl, rfl, .revises (revises_modifyNode e serial hf), .refl _, fun _ => .refl _, [], by simp [Engine.modifyNode],
    by simp⟩

theorem parkTurn (e : Engine) (s : Strand) (next : Signal) : e.Keeps P (e.parkTurn s next) :=
  (soon (e.park s (.turn next)) (.resume s.id)).from_eq rfl rfl rfl rfl rfl rfl

theorem startTask (e : Engine) (c : Call) (callbacks : List Callback) :
    e.Keeps P (e.startTask c callbacks).2 :=
  (parkTurn _ _ _).from_eq rfl rfl rfl rfl rfl rfl

theorem spawn (e : Engine) (c : Call) : e.Keeps P (e.spawn c).2 :=
  (startTask e c [.discard]).trans (.of_eq rfl rfl rfl rfl rfl rfl)

theorem spawnStarts (nodes : List String) (e : Engine) : e.Keeps P (e.spawnStarts nodes).2 := by
  induction nodes generalizing e with
  | nil => exact .refl e
  | cons node rest ih => exact (spawn e _).trans (ih _)

theorem completeTask (e : Engine) (id : Nat) (outcome : Except Raised Response) :
    e.Keeps P (e.completeTask id outcome) := by
  unfold Engine.completeTask
  split
  · exact .refl e
  · exact (foldl (fun e (c : Callback) => soon e (c.job id)) _ _).from_eq rfl rfl rfl rfl rfl rfl

theorem onDone (e : Engine) (id : Nat) (c : Callback) : e.Keeps P (e.onDone id c) := by
  unfold Engine.onDone
  split
  · exact .refl e
  · split
    · exact soon e _
    · exact .of_eq rfl rfl rfl rfl rfl rfl

theorem gather (e : Engine) (members : List Nat) (strand : Nat) :
    e.Keeps P (e.gather members strand).2 :=
  (foldl (fun e t => onDone e t (.gather _)) members _).from_eq rfl rfl rfl rfl rfl rfl

theorem gatherDone (e : Engine) (id task : Nat) : e.Keeps P (e.gatherDone id task) := by
  have hsoon : ∀ (b : Bool) (e' : Engine) (j : Job), e.Keeps P e' →
      e.Keeps P (if b = true then e'.soon j else e') := by
    intro b e' j h
    cases b with
    | true => exact h.trans (soon e' j)
    | false => exact h
  unfold Engine.gatherDone
  split
  · exact .refl e
  · exact hsoon _ _ _ (.of_eq rfl rfl rfl rfl rfl rfl)

theorem report (e : Engine) (sc : Scope) (i : Invocation) (f : Failure) :
    e.Keeps P (e.report sc i f).2 :=
  (modifyNode e i.serial (f := fun n => { n with error := some f.message })
    fun _ => ⟨rfl, rfl, rfl, rfl⟩).trans (emit _ fun h => h.elim)

/-! ## Nodes, timers and events -/

theorem tearDown (e : Engine) (n : Node) : e.Keeps P (e.tearDown n) := by
  unfold Engine.tearDown
  split
  · exact .refl e
  · exact modifyNode e _ fun _ => ⟨rfl, rfl, rfl, rfl⟩
  · exact emit e fun h => h.elim

theorem disarm (e : Engine) (n : Node) : e.Keeps P (e.disarm n).2 := by
  have hc : e.Keeps P { e with scheduler := (e.scheduler.cancelOwner n.id).2 } :=
    schedule e (.cancelOwner _ _) fun _ => .cancelOwner _ _
  unfold Engine.disarm
  split
  · next h => rw [h] at hc; exact hc
  · next h => rw [h] at hc; exact hc.trans (tearDown _ n)

theorem fire (e : Engine) (node port : String) (seeds : Dict) : e.Keeps P (e.fire node port seeds).2 := by
  unfold Engine.fire
  split
  · exact spawn e _
  · exact .refl e

theorem schedulerCall (id : Nat) (payload : Value) (e : Engine) :
    e.Keeps P (Scheduler.call withScheduler Engine.runFiring id payload e) := by
  unfold Scheduler.call
  dsimp only
  split
  · have hcount : e.Keeps P { e with
        scheduler := e.scheduler.modify id fun r => { r with fired := r.fired + 1 } } :=
      schedule e (.modify _ id fun _ => ⟨rfl, rfl, rfl⟩) fun _ => .of_eq rfl rfl
    exact hcount.trans (fire _ _ _ _)
  · exact .refl e

theorem expire (id : Nat) (e : Engine) :
    e.Keeps P (Scheduler.expire withScheduler .fire Engine.runFiring id e) := by
  unfold Scheduler.expire
  dsimp only
  split
  · exact .refl e
  · split
    · exact .refl e
    · refine (schedule e ?_ fun _ => ?_).trans (schedulerCall id .null _)
      · split
        · exact .rearm _ _ _
        · exact .forget _ _
      · split
        · exact .rearm _ _ _
        · exact .forget _ _

theorem dispatch (e : Engine) (event payload : Value) : e.Keeps P (e.dispatch event payload).2 := by
  unfold Engine.dispatch Scheduler.dispatch
  split
  · exact .refl e
  · refine .foldl (fun e id => ?_) _ e
    split
    · split
      · exact .refl e
      · exact schedulerCall id payload e
    · exact .refl e

theorem unpark (e : Engine) (p : Parked) : e.Keeps P (e.unpark p).2 := by
  cases p with
  | turn sig => exact .refl e
  | sleep id => exact schedule e (.endSleep _ id) fun _ => .endSleep _ id
  | task id =>
    simp only [Engine.unpark]
    split <;> exact .refl e
  | gather id =>
    simp only [Engine.unpark]
    split <;> exact .refl e

/-- A job of the loop. -/
theorem handle (e : Engine) (j : Job) : e.Keeps P (e.handle j).engine := by
  cases j with
  | resume id =>
    simp only [Engine.handle]
    split
    · exact .refl e
    · split
      · exact (unpark _ _).from_eq rfl rfl rfl rfl rfl rfl
      · exact .refl e
  | timeout id => exact soon e _
  | fire id => exact expire id e
  | elapse id => exact schedule e (.settle _ id true) fun _ => .elapse _ id
  | discard id => exact .of_eq rfl rfl rfl rfl rfl rfl
  | gather id task => exact gatherDone e id task

/-- A job of the loop, with any state of its queue and its timers. -/
theorem job (e : Engine) (loop : Loop Job) (j : Job) :
    e.Keeps P ({ e with scheduler := { e.scheduler with loop := loop } }.handle j).engine := by
  have hloop : e.Keeps P { e with scheduler := { e.scheduler with loop := loop } } :=
    schedule e (.of_eq rfl rfl rfl rfl) fun _ => .of_eq rfl rfl
  exact hloop.trans (handle _ j)

/-! ## Behaviours -/

theorem failInvocation (e : Engine) (s : Strand) (i : Invocation) (err : Raised) :
    e.Keeps P (e.failInvocation s i err).engine := by
  cases err with
  | failure f =>
    simp only [Engine.failInvocation]
    split
    · exact .refl e
    · exact report e s.scope i _
  | fault f => exact report e s.scope i _
  | mute f => exact .refl e

theorem emitStarted (e : Engine) (sc : Scope) (i : Invocation) : e.Keeps P (e.emitStarted sc i) :=
  emit e fun h => h.elim

theorem emitFinished (e : Engine) (sc : Scope) (i : Invocation) : e.Keeps P (e.emitFinished sc i) :=
  emit e fun h => h.elim

theorem finishInvocation (e : Engine) (s : Strand) (i : Invocation) (v : Value) :
    e.Keeps P (e.finishInvocation s i v).engine := by
  unfold Engine.finishInvocation
  dsimp only
  split
  · next os _ =>
    exact (modifyNode e i.serial (f := fun n => { n with lastOutputs := os })
      fun _ => ⟨rfl, rfl, rfl, rfl⟩).trans (emitFinished _ _ i)
  · exact emitFinished e _ i

theorem invoke (e : Engine) (s : Strand) (i : Invocation) : e.Keeps P (e.invoke s i).engine := by
  unfold Engine.invoke
  dsimp only
  split
  · exact emitStarted e s.scope i
  · exact (emitStarted e s.scope i).trans (failInvocation _ s i _)

theorem awaitFor (e : Engine) (s : Strand) (i : Invocation) (w : Wait)
    (k : Except Raised w.Reply → Script) : e.Keeps P (e.awaitFor s i w k).engine := by
  cases w with
  | pull port => exact .refl e
  | advance port =>
    simp only [Engine.awaitFor]
    split <;> exact .refl e
  | checkpoint => exact parkTurn e _ _
  | sleep seconds =>
    simp only [Engine.awaitFor]
    split
    · exact .refl e
    · next h => exact (schedule e (.sleep h) fun _ => .sleep h).trans (.of_eq rfl rfl rfl rfl rfl rfl)

theorem resumeBehavior (e : Engine) (s : Strand) (i : Invocation) (w : Wait)
    (k : Except Raised w.Reply → Script) (r : Result) : e.Keeps P (e.resumeBehavior s i w k r).engine := by
  unfold Engine.resumeBehavior
  split <;> exact .refl e

/-! ## Control flow and data flow -/

theorem walk (e : Engine) (s : Strand) (agenda : List String) : e.Keeps P (e.walk s agenda).engine := by
  have hcases := e.walk_cases s agenda
  generalize e.walk s agenda = t at hcases ⊢
  cases hcases with
  | done | stopped | unknown | invokes => exact .refl e
  | passes => exact (emitStarted e s.scope _).trans (emitFinished _ _ _)

theorem continueFrom (e : Engine) (s : Strand) (i : Invocation) (v : Value) (rest : List String) :
    e.Keeps P (e.continueFrom s i v rest).engine := by
  unfold Engine.continueFrom
  dsimp only
  split
  · split
    · exact .refl e
    · exact report e s.scope i _
  · exact .refl e
  · exact .refl e

theorem armed (e : Engine) (node : String) (origin : Origin) : e.Keeps P (e.armed node origin).2 := by
  unfold Engine.armed
  split
  · split
    · exact .refl e
    · exact disarm e _
  · exact .refl e

theorem startTrigger (e : Engine) (s : Strand) (node : String) (origin : Origin) (port : Option String)
    (seeds : Dict) : e.Keeps P (e.startTrigger s node origin port seeds).engine := by
  have hfresh : e.Keeps P e.freshScope.2 := .of_eq rfl rfl rfl rfl rfl rfl
  cases hrun : e.running with
  | false =>
    rw [startTrigger_refused hrun]
    exact hfresh
  | true =>
    have harmed := hfresh.trans (armed e.freshScope.2 node origin)
    rw [startTrigger_eq e s node origin port seeds hrun]
    generalize e.freshScope.2.armed node origin = x at harmed ⊢
    obtain ⟨r, e₁⟩ := x
    cases r with
    | error err => exact harmed
    | ok u => exact harmed.trans (emit e₁ fun _ => harmed.running.trans hrun)

theorem pullInput (e : Engine) (s : Strand) (node port : String) :
    e.Keeps P (e.pullInput s node port).engine := by
  have hcases := e.pullInput_cases s node port
  generalize e.pullInput s node port = t at hcases ⊢
  cases hcases <;> exact .refl e

theorem runForOutput (e : Engine) (s : Strand) (n : Node) (k : Kind Behavior) (port : String) :
    e.Keeps P (e.runForOutput s n k port).engine := by
  unfold Engine.runForOutput
  dsimp only
  split
  · exact parkTurn e _ _
  · exact .refl e

theorem pullOutput (e : Engine) (s : Strand) (node port : String) :
    e.Keeps P (e.pullOutput s node port).engine := by
  have hcases := e.pullOutput_cases s node port
  generalize e.pullOutput s node port = t at hcases ⊢
  cases hcases with
  | runs => exact runForOutput e s _ _ port
  | _ => exact .refl e

theorem finishOutput (e : Engine) (s : Strand) (node port : String) (serial : Nat) (v : Value)
    (i : Invocation) : e.Keeps P (e.finishOutput s node port serial v i).engine :=
  modifyNode e serial fun _ => ⟨rfl, rfl, rfl, rfl⟩

/-! ## Runs and requests -/

theorem armNext (e : Engine) (s : Strand) (rest starts : List String) (results : List TriggerResult) :
    e.Keeps P (e.armNext s rest starts results).engine := by
  cases rest with
  | cons node rest => exact .refl e
  | nil =>
    have hgather := (spawnStarts (P := P) starts e).trans (gather _ (e.spawnStarts starts).1 s.id)
    exact hgather.trans (.of_eq rfl rfl rfl rfl rfl rfl)

theorem join (e : Engine) (s : Strand) (results : List TriggerResult) :
    e.Keeps P (e.join s results).engine := by
  unfold Engine.join
  split
  · exact .refl e
  · exact (gather e e.inFlight s.id).trans (.of_eq rfl rfl rfl rfl rfl rfl)

theorem waitRun (e : Engine) (s : Strand) (name : String) : e.Keeps P (e.waitRun s name).engine := by
  unfold Engine.waitRun
  split
  · exact .refl e
  · split
    · exact .refl e
    · exact .refl e
    · exact (onDone e _ _).trans (.of_eq rfl rfl rfl rfl rfl rfl)

theorem pass (e : Engine) (s : Strand) (ms : Value) : e.Keeps P (e.pass s ms).engine := by
  unfold Engine.pass
  dsimp only
  split
  · split
    · exact parkTurn e _ _
    · split
      · exact .refl e
      · have hloop : ∀ loop, e.Keeps P { e with scheduler := { e.scheduler with loop := loop } } :=
          fun loop => schedule e (.of_eq rfl rfl rfl rfl) fun _ => .of_eq rfl rfl
        exact (hloop _).trans (.of_eq rfl rfl rfl rfl rfl rfl)
  · exact .refl e
  · exact .refl e

theorem tick (e : Engine) (s : Strand) (n : Nat) : e.Keeps P (e.tick s n).engine := by
  cases n with
  | zero => exact .refl e
  | succ n => exact parkTurn e _ _

theorem nextRequest (e : Engine) (s : Strand) : e.Keeps P (e.nextRequest s).engine := by
  unfold Engine.nextRequest
  split <;> exact .of_eq rfl rfl rfl rfl rfl rfl

theorem answerRequest (e : Engine) (s : Strand) (result : Except Raised Response) :
    e.Keeps P (e.answerRequest s result).engine :=
  (nextRequest _ s).from_eq rfl rfl rfl rfl rfl rfl

theorem endTrigger (e : Engine) (s : Strand) (node : String) (origin : Origin) (error : Option Failure) :
    e.Keeps P (e.endTrigger s node origin error).engine :=
  emit e fun h => h.elim

/-! ## Frames -/

theorem back (e : Engine) (s : Strand) (f : Frame) (r : Result) : e.Keeps P (e.back s f r).engine := by
  unfold Engine.back
  split
  · exact resumeBehavior e s _ _ _ _
  · exact continueFrom e s _ _ _
  · exact .refl e
  · exact finishOutput e s _ _ _ _ _
  · exact .refl e
  · exact parkTurn e s _
  · exact endTrigger e s _ _ _
  · exact armNext e s _ _ _
  · exact armNext e s _ _ _
  · exact .refl e
  · exact .refl e
  · split <;> exact .refl e
  · exact .refl e
  · exact join e s _
  · exact join e s _
  · exact .refl e
  · exact tick e s _
  · exact .refl e
  · exact completeTask e _ _
  · exact answerRequest e s _

theorem raise (e : Engine) (s : Strand) (f : Frame) (err : Raised) :
    e.Keeps P (e.raise s f err).engine := by
  unfold Engine.raise
  split
  · exact .refl e
  · exact .refl e
  · exact parkTurn e s _
  · split
    · exact endTrigger e s _ _ _
    · exact .refl e
  · exact completeTask e _ _
  · exact answerRequest e s _
  · exact .refl e

/-! ## Commands -/

theorem addNode (e : Engine) (kind : String) (literals : Named) (id : Option String) :
    e.Keeps P (e.addNode kind literals id).2 := by
  have hid : e.Keeps P (e.nodeId id).2 := by
    unfold nodeId
    split
    · exact .refl e
    · exact .of_eq rfl rfl rfl rfl rfl rfl
  unfold Engine.addNode
  split
  · exact .refl e
  · dsimp only
    split
    · exact hid
    · next hadd => exact hid.trans (putGraph _ (.addNode hadd))

theorem addEdge (e : Engine) (x : Edge) : e.Keeps P (e.addEdge x).2 := by
  unfold Engine.addEdge
  split
  · exact .refl e
  · next hadd => exact putGraph e (.addEdge hadd)

theorem addChain (stem kind : String) (literals : Named) (input output : String) :
    ∀ (count number : Nat) (e : Engine),
      e.Keeps P (e.addChain stem kind literals input output number count).2 := by
  intro count
  induction count with
  | zero => exact fun _ e => .refl e
  | succ count ih =>
    intro number e
    have hn : e.Keeps P (e.addNode kind literals (some (stem ++ toString number))).2 := addNode e _ _ _
    unfold Engine.addChain
    dsimp only
    split
    · next h => rw [h] at hn; exact hn
    · next e₁ h =>
      rw [h] at hn
      have he : e₁.Keeps P (if (number == 0) = true then (Except.ok none, e₁) else
          e₁.addEdge ⟨stem ++ toString (number - 1), output, stem ++ toString number, input⟩).2 := by
        split
        · exact .refl e₁
        · exact addEdge e₁ _
      split
      · next h' => rw [h'] at he; exact hn.trans he
      · next h' => rw [h'] at he; exact (hn.trans he).trans (ih _ _)

end Keeps

/-- Every command but those that take nodes away or stop the engine. -/
theorem Keeps.command {P : String → Prop} (e : Engine) {c : Command} (hc : c.clears = false) :
    e.Keeps P (e.command c).2 := by
  have hcases := e.command_cases c
  generalize (e.command c).2 = e' at hcases ⊢
  cases hcases with
  | addNode kind literals id => exact .addNode e kind literals id
  | addEdge x | connect x => exact .addEdge e x
  | removeEdge x => exact .putGraph e (.of_nodes rfl rfl)
  | chain stem kind n literals input output => exact .addChain _ _ _ _ _ n 0 e
  | setLiteral hset =>
    obtain ⟨n, k, -, -, -, rfl⟩ := Graph.setLiteral_eq_ok hset
    exact .putGraph e (.modifyNode _ _ fun _ => ⟨rfl, rfl⟩)
  | retag hretag =>
    obtain rfl := Graph.retag_eq_ok hretag
    exact .putGraph e (.modifyNode _ _ fun _ => ⟨rfl, rfl⟩)
  | fire id port outputs => exact .fire e id port _
  | dispatch event payload => exact .dispatch e event payload
  | removeNode | replaceGraph | stop | load => cases hc
  | _ => exact .of_eq rfl rfl rfl rfl rfl rfl

/-- What a stop does but for the flag and the queue. -/
theorem Keeps.stop {P : String → Prop} (e : Engine) :
    (({ e with running := false } : Engine).withQueue e.stop.2.stepQueue).Keeps P e.stop.2 := by
  have hc : ({ e with running := false } : Engine).Keeps P
      { e with running := false, scheduler := e.scheduler.cancelAll.2 } :=
    .schedule { e with running := false } (.cancelAll e.scheduler) (nomatch ·)
  unfold Engine.stop
  dsimp only
  split
  · next h => rw [h] at hc; exact hc
  · next cancelled s h =>
    rw [h] at hc
    have hw : ({ e with running := false, scheduler := s } : Engine).Keeps P
        { e with running := false, scheduler := s.wakeAll.2 } :=
      .schedule { e with running := false, scheduler := s } (.wakeAll s) (nomatch ·)
    have hdown := (hc.trans hw).trans (.foldl Keeps.tearDown e.graph.nodes _)
    exact (hdown.withQueue []).trans (.emit _ (n := .runStopped cancelled) fun h => h.elim)

/-! ## Commands that clear -/

/-- What the removal of a node does, in parts. -/
theorem removeNode_cases (e : Engine) (id : String) :
    (e.removeNode id).2 = e ∨ ∃ n, e.graph.node? id = some n ∧
      ((e.removeNode id).2 = (e.disarm n).2 ∨ (e.disarm n).1 = .ok () ∧ ∃ m g,
        (e.disarm n).2.graph.removeNode id = .ok (m, g) ∧
        (e.removeNode id).2 = { (e.disarm n).2 with graph := g, retired := m :: (e.disarm n).2.retired }) := by
  unfold Engine.removeNode
  split
  · exact .inl rfl
  · next n hn =>
    refine .inr ⟨n, hn, ?_⟩
    split
    · next heq => exact .inl (by rw [heq])
    · next e₁ heq =>
      rw [heq]
      cases hremove : e₁.graph.removeNode id with
      | error err => exact .inl rfl
      | ok mg => exact .inr ⟨rfl, mg.1, mg.2, rfl, rfl⟩

/-- What it does to load a document, in parts. -/
theorem loadDocument_cases (e : Engine) (d : Document) :
    ((∃ err, Graph.ofDocument e.registry .byType e.graph.nextSerial d = .error err) ∧
        (e.loadDocument d).2 = e) ∨
      (e.loadDocument d).2 = e.stop.2 ∨ e.stop.1 = .ok () ∧ ∃ g,
        Graph.ofDocument e.registry .byType e.graph.nextSerial d = .ok g ∧
        (e.loadDocument d).2 = { e.stop.2.swapGraph g with store := e.stop.2.store.load d.globals } := by
  unfold Engine.loadDocument
  split
  · next err hread => exact .inl ⟨⟨err, hread⟩, rfl⟩
  · next g hread =>
    split
    · next heq => exact .inr (.inl (by rw [heq]))
    · next heq => exact .inr (.inr ⟨by rw [heq], g, hread, by rw [heq]⟩)

theorem readGraph_eq_ok {e : Engine} {matcher : Matcher} {text : String} {d : Document} {g : Graph}
    (h : e.readGraph matcher text = .ok (d, g)) :
    Graph.ofDocument e.registry matcher e.graph.nextSerial d = .ok g := by
  simp only [readGraph, bind, Except.bind, pure, Except.pure] at h
  split at h
  · cases h
  · split at h
    · cases h
    · next hdoc =>
      obtain ⟨rfl, rfl⟩ := Prod.mk.inj (Except.ok.inj h)
      exact hdoc

/-- What a load does, in parts. A document that cannot be read changes nothing. -/
theorem load_cases (e : Engine) (text : String) :
    ((∃ err, e.readGraph .byType text = .error err) ∧ (e.load text).2 = e) ∨
      (e.load text).2 = e.stop.2 ∨ e.stop.1 = .ok () ∧ ∃ d g, e.readGraph .byType text = .ok (d, g) ∧
        (e.load text).2 = { e.stop.2.swapGraph g with store := e.stop.2.store.load d.globals } := by
  unfold Engine.load readGraph
  cases Fault.lift (Document.ofText text) with
  | error err => exact .inl ⟨⟨err, rfl⟩, rfl⟩
  | ok d =>
    simp only [bind, Except.bind, pure, Except.pure]
    rcases loadDocument_cases e d with ⟨⟨err, hread⟩, heq⟩ | heq | ⟨hstop, g, hread, heq⟩
    · exact .inl ⟨⟨err, by rw [hread]⟩, heq⟩
    · exact .inr (.inl heq)
    · exact .inr (.inr ⟨hstop, d, g, by rw [hread], heq⟩)

/-- The commands that may take nodes away or stop the engine, with the state after them. -/
theorem command_clears (e : Engine) {c : Command} (hc : c.clears = true) :
    (∃ id, c = .removeNode id ∧ (e.command c).2 = (e.removeNode id).2) ∨
      (∃ text, c = .replaceGraph text ∧ ((e.command c).2 = e ∨
        ∃ d g, e.readGraph e.graph.matcher text = .ok (d, g) ∧ (e.command c).2 = e.swapGraph g)) ∨
      (c = .stop ∧ (e.command c).2 = e.stop.2) ∨
      ∃ text, c = .load text ∧ (e.command c).2 = (e.load text).2 := by
  cases c with
  | removeNode id => exact .inl ⟨id, rfl, congrArg Prod.snd (command_removeNode e id)⟩
  | replaceGraph text =>
    refine .inr (.inl ⟨text, rfl, ?_⟩)
    simp only [Engine.command]
    split
    · exact .inl rfl
    · next d g hread => exact .inr ⟨d, g, hread, rfl⟩
  | stop => exact .inr (.inr (.inl ⟨rfl, congrArg Prod.snd (command_stop e)⟩))
  | load text => exact .inr (.inr (.inr ⟨text, rfl, congrArg Prod.snd (command_load e text)⟩))
  | _ => cases hc

/-! ## Turns -/

/-- Whether a signal begins a run: there is something to start from and, for a step, nothing queued; to
run one node begins a run unless the engine runs. -/
def Begins (e : Engine) : Signal → Prop
  | .call .run => ∃ starts, e.entryPoints = .ok starts
  | .call (.request .step) =>
    (e.stepQueue.dropWhile fun id => !e.graph.hasNode id) = [] ∧ ∃ starts, e.entryPoints = .ok starts
  | .call (.request (.runNode _)) => e.running = false
  | _ => False

/-- What a turn with a signal does to an engine. -/
inductive Effect (e : Engine) (sig : Signal) (e' : Engine) : Prop
  | keeps (h : e.Keeps sig.Registers e')
  | begins (hb : e.Begins sig) (h : e.beginRun.Keeps (fun _ => False) e')
  /-- a step takes nodes off the queue, and may begin a run -/
  | steps (hs : sig = .call (.request .step)) (queue : List String)
      (h : e' = e.withQueue queue ∨ e.Begins sig ∧ e' = e.beginRun.withQueue queue)
  | carries {c : Command} (hc : sig.Carries c) (h : e' = (e.command c).2)

section Turns

variable {e : Engine} {s : Strand}

theorem nextStep_eq_ok {id : String} {e' : Engine} (h : e.nextStep = .ok (id, e')) :
    ∃ rest, e' = e.withQueue rest ∨ e.Begins (.call (.request .step)) ∧ e' = e.beginRun.withQueue rest := by
  simp only [nextStep, bind, Except.bind, pure, Except.pure, throw, throwThe, MonadExceptOf.throw] at h
  split at h
  · next rest _ =>
    obtain ⟨-, rfl⟩ := Prod.mk.inj (Except.ok.inj h)
    exact ⟨rest, .inl rfl⟩
  · next hnone =>
    split at h
    · cases h
    · next starts hstarts =>
      split at h
      · next rest _ =>
        obtain ⟨-, rfl⟩ := Prod.mk.inj (Except.ok.inj h)
        exact ⟨rest, .inr ⟨⟨hnone, starts, hstarts⟩, rfl⟩⟩
      · cases h

theorem startRun_effect : e.Effect (.call .run) (e.startRun s).engine := by
  unfold startRun
  split
  · exact .keeps (.refl e)
  · next starts hstarts =>
    have hbegun := Keeps.emit (P := fun _ => False) e.beginRun
      (n := .runStarted (starts.map Node.id)) fun h => h.elim
    exact .begins ⟨starts, hstarts⟩ (hbegun.trans (.armNext _ s _ _ _))

theorem step_effect : e.Effect (.call (.request .step)) (e.step s).engine := by
  unfold step
  split
  · exact .steps rfl [] (.inl rfl)
  · next hnext =>
    obtain ⟨rest, h⟩ := nextStep_eq_ok hnext
    exact .steps rfl rest h

theorem request_effect (r : Request) : e.Effect (.call (.request r)) (e.request s r).engine := by
  cases r with
  | command c =>
    refine .carries (c := c) (.inl rfl) ?_
    rw [request_command]
    rfl
  | run => exact .keeps (.refl e)
  | step => exact step_effect
  | runNode id =>
    simp only [request]
    split
    · exact .keeps (.refl e)
    · next hrun => exact .begins (by simpa [Begins] using hrun) (.refl _)
  | pull id port => exact .keeps (.of_eq rfl rfl rfl rfl rfl rfl)
  | join => exact .keeps (.join e s [])
  | startRun name => exact .keeps ((Keeps.startTask e .run []).trans (.of_eq rfl rfl rfl rfl rfl rfl))
  | waitRun name => exact .keeps (.waitRun e s name)
  | tick n => exact .keeps (.tick e s n)
  | advance ms => exact .keeps (.pass e s ms)
  | refused err => exact .keeps (.refl e)

/-- Questions that are not answered by the engine alone register for the node that asks, or for none. -/
theorem perform_keeps (i : Invocation) (sc : Scope) (q : Query) :
    e.Keeps (fun owner => q.registers = true ∧ i.node = owner) (e.perform i sc q).engine := by
  cases q with
  | log level message => exact .emit e fun h => h.elim
  | setVariable name v => exact .of_eq rfl rfl rfl rfl rfl rfl
  | keep key c => exact .modifyNode e i.serial fun _ => ⟨rfl, rfl, rfl, rfl⟩
  | every seconds port =>
    exact (Keeps.schedule e (.every _ _ _ _ _) fun _ => .every _ _ _ _ _).mono fun owner h => ⟨rfl, h.symm⟩
  | fireLater seconds port =>
    exact (Keeps.schedule e (.callLater _ _ _ _ _) fun _ => .callLater _ _ _ _ _).mono fun owner h => ⟨rfl, h.symm⟩
  | listen event port =>
    exact (Keeps.schedule e (.listen _ _ _ _) fun _ => .listen _ _ _ _).mono fun owner h => ⟨rfl, h.symm⟩
  | cancelOwn => exact .schedule e (.cancelOwner _ _) fun _ => .cancelOwner _ _
  | _ => exact .refl e

theorem behave_effect (i : Invocation) (script : Script) :
    e.Effect (.call (.behave i script)) (e.behave s i script).engine := by
  cases script with
  | finish v => exact .keeps (.finishInvocation e s i v)
  | fail err => exact .keeps (.failInvocation e s i err)
  | again state =>
    simp only [behave]
    split
    · exact .keeps (.refl e)
    · exact .keeps (.failInvocation e s i _)
  | ask q k =>
    exact .keeps ((perform_keeps i s.scope q).mono fun owner h => ⟨i, q, k, rfl, h.1, h.2⟩)
  | edit c k => exact .carries (c := c) (.inr ⟨i, k, rfl⟩) rfl
  | wait w k => exact .keeps (.awaitFor e s i w k)

/-- What every turn does. -/
theorem turn_effect (e : Engine) (s : Strand) (sig : Signal) : e.Effect sig (e.turn s sig).engine := by
  cases sig with
  | call c =>
    cases c with
    | trigger node origin port seeds => exact .keeps (.startTrigger e s node origin port seeds)
    | walk agenda => exact .keeps (.walk e s agenda)
    | invoke i => exact .keeps (.invoke e s i)
    | behave i script => exact behave_effect i script
    | input node port => exact .keeps (.pullInput e s node port)
    | output node port => exact .keeps (.pullOutput e s node port)
    | run => exact startRun_effect
    | request r => exact request_effect r
  | back r =>
    obtain ⟨id, sc, frames⟩ := s
    cases frames with
    | nil => exact .keeps (.refl e)
    | cons f frames => exact .keeps (.back e _ f r)
  | raise err =>
    obtain ⟨id, sc, frames⟩ := s
    cases frames with
    | nil => exact .keeps (.refl e)
    | cons f frames => exact .keeps (.raise e _ f err)

end Turns

namespace Turn

/-- Whether the strand under way begins a run. -/
def Begins (t : Turn) : Prop := ∃ s sig, t.next = some (s, sig) ∧ t.engine.Begins sig

/-- Whether the strand under way registers something for a node. -/
def Registers (t : Turn) (owner : String) : Prop := ∃ s sig, t.next = some (s, sig) ∧ sig.Registers owner

/-- Whether the strand under way has a request for a step. -/
def AsksStep (t : Turn) : Prop := ∃ s, t.next = some (s, .call (.request .step))

/-- Whether the strand under way carries out a command. -/
def Carries (t : Turn) (c : Command) : Prop := ∃ s sig, t.next = some (s, sig) ∧ sig.Carries c

end Turn

end Engine

end Patchbay
