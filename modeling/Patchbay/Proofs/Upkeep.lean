import Patchbay.Proofs.Outcomes
import Patchbay.Proofs.Versions

/-!
# Upkeep

What an engine does beside the turns of its strands: commands, timers, events, and the bookkeeping of
tasks. However much such an operation changes, it leaves the strands that wait as they are and only adds
new ones, writes variables by the operations of the store, and never begins a run or starts a node.

Results:
* `Engine.Tended.command`: every command.
* `Engine.Tended.dispatch`, `Engine.Tended.expire`: events and timers.
* `Engine.Tended.completeTask`, `Engine.Tended.gather`: tasks that are done or waited for.
* `Engine.startTrigger_refused`, `Engine.startTrigger_eq`: how a trigger begins, after what it does to its node
  (`Engine.armed`).
-/

namespace Patchbay

/-- A kind given by its ports and its behaviour alone. -/
def Kind.sketch (id : String) (shape : Shape) (inputs outputs : List Port) (behavior : Option Behavior) :
    Kind Behavior where
  id := id
  displayName := id
  category := none
  inputs := inputs
  outputs := outputs
  behavior := behavior
  shape := shape
  autoContinue := true
  teardown := none
  description := none

/-- Whether a call begins a trigger, a run or a request, rather than something inside a trigger. -/
def Call.Outer : Call → Prop
  | .trigger _ _ _ _ => True
  | .run => True
  | .request _ => True
  | _ => False

/-- A strand that was just started for a trigger or a run. -/
structure Newcomer (x : Strand × Parked) : Prop where
  scope : x.1.scope = {}
  frames : x.1.frames = [.task x.1.id]
  call : ∃ c : Call, c.Outer ∧ x.2 = .turn (.call c)

/-- Whether observers are told that control flow has started a node. -/
def Notice.StartsExec : Notice → Prop
  | .nodeStarted _ _ _ .exec => True
  | _ => False

namespace Engine

/-- A node is found under its id. -/
theorem id_of_nodeWithKind {e : Engine} {id : String} {n : Node} {k : Kind Behavior}
    (h : e.nodeWithKind id = .ok (n, k)) : n.id = id := by
  simp only [nodeWithKind, bind, Except.bind, pure, Except.pure, Graph.requireNode, Graph.node?] at h
  split at h
  · simp at h
  · next hn =>
    split at hn
    · next hf =>
      split at h
      · simp at h
      · simp only [Except.ok.injEq, Prod.mk.injEq] at h hn
        rw [← h.1, ← hn]
        simpa using List.find?_some hf
    · simp at hn

/-- What an engine may become without a turn of a strand. -/
structure Tended (e e' : Engine) : Prop where
  store : Variables.Wrote e.store e'.store
  strands : ∃ news, e'.strands = news ++ e.strands ∧ ∀ x ∈ news, Newcomer x
  nextTrigger : e'.nextTrigger = e.nextTrigger
  running : e'.running = true → e.running = true
  trace : ∃ added, e'.trace.toList = e.trace.toList ++ added ∧ ∀ n ∈ added, ¬n.StartsExec

namespace Tended

theorem refl (e : Engine) : e.Tended e :=
  ⟨.refl, ⟨[], rfl, by simp⟩, rfl, id, ⟨[], by simp, by simp⟩⟩

theorem trans {e e' e'' : Engine} (h : e.Tended e') (h' : e'.Tended e'') : e.Tended e'' := by
  obtain ⟨news, hs, hn⟩ := h.strands
  obtain ⟨news', hs', hn'⟩ := h'.strands
  obtain ⟨added, ht, ha⟩ := h.trace
  obtain ⟨added', ht', ha'⟩ := h'.trace
  refine ⟨h.store.trans h'.store, ⟨news' ++ news, ?_, fun x hx => ?_⟩,
    h'.nextTrigger.trans h.nextTrigger, fun hr => h.running (h'.running hr),
    ⟨added ++ added', ?_, fun n hn => ?_⟩⟩
  · rw [hs', hs, List.append_assoc]
  · exact (List.mem_append.mp hx).elim (hn' x) (hn x)
  · rw [ht', ht, List.append_assoc]
  · exact (List.mem_append.mp hn).elim (ha n) (ha' n)

/-- A change of anything else. -/
theorem of_eq {e e' : Engine} (hs : e'.store = e.store) (hp : e'.strands = e.strands)
    (ht : e'.nextTrigger = e.nextTrigger) (hr : e'.running = e.running) (htr : e'.trace = e.trace) :
    e.Tended e' := by
  refine ⟨?_, ⟨[], by simpa using hp, by simp⟩, ht, fun h => by rwa [hr] at h,
    ⟨[], by simp [htr], by simp⟩⟩
  rw [hs]

/-- An operation after a change of anything else. -/
theorem from_eq {e e' e'' : Engine} (h : e'.Tended e'') (hs : e'.store = e.store)
    (hp : e'.strands = e.strands) (ht : e'.nextTrigger = e.nextTrigger) (hr : e'.running = e.running)
    (htr : e'.trace = e.trace) : e.Tended e'' :=
  (of_eq hs hp ht hr htr).trans h

/-- A fold of operations. -/
theorem foldl {α : Type} {f : Engine → α → Engine} (hf : ∀ (e : Engine) (a : α), e.Tended (f e a)) (l : List α)
    (e : Engine) : e.Tended (l.foldl f e) := by
  induction l generalizing e with
  | nil => exact .refl e
  | cons a rest ih => exact (hf e a).trans (ih (f e a))

/-! ## Small operations -/

theorem emit (e : Engine) {n : Notice} (hn : ¬n.StartsExec) : e.Tended (e.emit n) := by
  refine ⟨.refl, ⟨[], rfl, by simp⟩, rfl, id, ⟨[n], by simp [Engine.emit], fun x hx => ?_⟩⟩
  rw [List.mem_singleton.mp hx]
  exact hn

theorem write {e : Engine} {st : Variables} (h : Variables.Write e.store st) :
    e.Tended { e with store := st } :=
  ⟨.single h, ⟨[], rfl, by simp⟩, rfl, id, ⟨[], by simp, by simp⟩⟩

theorem soon (e : Engine) (j : Job) : e.Tended (e.soon j) := .of_eq rfl rfl rfl rfl rfl

theorem modifyNode (e : Engine) (serial : Nat) (f : Node → Node) : e.Tended (e.modifyNode serial f) :=
  .of_eq rfl rfl rfl rfl rfl

theorem startTask (e : Engine) {c : Call} (hc : c.Outer) (callbacks : List Callback) :
    e.Tended (e.startTask c callbacks).2 := by
  refine ⟨.refl, ⟨[({ id := e.nextStrand, frames := [.task e.nextStrand] }, .turn (.call c))], rfl,
    fun x hx => ?_⟩, rfl, id, ⟨[], by simp [Engine.startTask, parkTurn, park, Engine.soon], by simp⟩⟩
  rw [List.mem_singleton.mp hx]
  exact ⟨rfl, rfl, c, hc, rfl⟩

theorem spawn (e : Engine) {c : Call} (hc : c.Outer) : e.Tended (e.spawn c).2 :=
  (startTask e hc [.discard]).trans (.of_eq rfl rfl rfl rfl rfl)

theorem spawnStarts (nodes : List String) (e : Engine) : e.Tended (e.spawnStarts nodes).2 := by
  induction nodes generalizing e with
  | nil => exact .refl e
  | cons node rest ih => exact (spawn e (c := .trigger node .start none []) trivial).trans (ih _)

theorem completeTask (e : Engine) (id : Nat) (outcome : Except Raised Response) :
    e.Tended (e.completeTask id outcome) := by
  unfold Engine.completeTask
  split
  · exact .refl e
  · exact (foldl (fun e c => soon e (Callback.job id c)) _ _).from_eq rfl rfl rfl rfl rfl

theorem onDone (e : Engine) (id : Nat) (c : Callback) : e.Tended (e.onDone id c) := by
  unfold Engine.onDone
  split
  · exact .refl e
  · split
    · exact soon e _
    · exact .of_eq rfl rfl rfl rfl rfl

theorem gather (e : Engine) (members : List Nat) (strand : Nat) :
    e.Tended (e.gather members strand).2 :=
  (foldl (fun e t => onDone e t (.gather _)) members _).from_eq rfl rfl rfl rfl rfl

theorem gatherDone (e : Engine) (id task : Nat) : e.Tended (e.gatherDone id task) := by
  have hsoon : ∀ (b : Bool) (e' : Engine) (j : Job), e.Tended e' →
      e.Tended (if b = true then e'.soon j else e') := by
    intro b e' j h
    cases b with
    | true => exact h.trans (soon e' j)
    | false => exact h
  unfold Engine.gatherDone
  split
  · exact .refl e
  · exact hsoon _ _ _ (.of_eq rfl rfl rfl rfl rfl)

theorem report (e : Engine) (sc : Scope) (i : Invocation) (f : Failure) :
    e.Tended (e.report sc i f).2 := by
  have hn : ¬(Notice.nodeErrored sc.trigger i.node f.family.name f.message).StartsExec := id
  exact (modifyNode e i.serial fun n => { n with error := some f.message }).trans
    (emit _ hn)

/-! ## Nodes, timers and events -/

theorem tearDown (e : Engine) (n : Node) : e.Tended (e.tearDown n) := by
  unfold Engine.tearDown
  split
  · exact .refl e
  · exact modifyNode e _ _
  · exact emit e fun h => h

theorem disarm (e : Engine) (n : Node) : e.Tended (e.disarm n).2 := by
  unfold Engine.disarm
  split
  · exact .of_eq rfl rfl rfl rfl rfl
  · exact (tearDown _ n).from_eq rfl rfl rfl rfl rfl

theorem removeNode (e : Engine) (id : String) : e.Tended (e.removeNode id).2 := by
  unfold Engine.removeNode
  split
  · exact .refl e
  · next n _ =>
    have hd := disarm e n
    split
    · next h => rw [h] at hd; exact hd
    · next h =>
      rw [h] at hd
      split
      · exact hd
      · exact hd.trans (.of_eq rfl rfl rfl rfl rfl)

theorem fire (e : Engine) (node port : String) (seeds : Dict) : e.Tended (e.fire node port seeds).2 := by
  unfold Engine.fire
  split
  · exact spawn e trivial
  · exact .refl e

theorem runFiring (r : Registration Firing) (payload : Value) (e : Engine) :
    e.Tended (runFiring r payload e) :=
  fire e _ _ _

theorem schedulerCall (id : Nat) (payload : Value) (e : Engine) :
    e.Tended (Scheduler.call withScheduler Engine.runFiring id payload e) := by
  unfold Scheduler.call
  dsimp only
  split
  · exact (runFiring _ payload _).from_eq rfl rfl rfl rfl rfl
  · exact .refl e

theorem expire (id : Nat) (e : Engine) :
    e.Tended (Scheduler.expire withScheduler .fire Engine.runFiring id e) := by
  unfold Scheduler.expire
  dsimp only
  split
  · exact .refl e
  · split
    · exact .refl e
    · exact (schedulerCall id .null _).from_eq rfl rfl rfl rfl rfl

theorem dispatch (e : Engine) (event payload : Value) : e.Tended (e.dispatch event payload).2 := by
  unfold Engine.dispatch Scheduler.dispatch
  split
  · exact .refl e
  · refine .foldl (fun e id => ?_) _ e
    split
    · split
      · exact .refl e
      · exact schedulerCall id payload e
    · exact .refl e

/-! ## Commands -/

theorem stop (e : Engine) : e.Tended e.stop.2 := by
  have hhalt : ∀ s, e.Tended { e with running := false, scheduler := s } := fun s =>
    ⟨.refl, ⟨[], rfl, by simp⟩, rfl, fun h => absurd h Bool.false_ne_true, ⟨[], by simp, by simp⟩⟩
  unfold Engine.stop
  dsimp only
  split
  · exact hhalt _
  · next cancelled s _ =>
    have hdown := (hhalt s.wakeAll.2).trans (foldl tearDown e.graph.nodes _)
    exact hdown.trans ((emit _ (n := .runStopped cancelled) fun h => h).from_eq rfl rfl rfl rfl rfl)

theorem loadDocument (e : Engine) (d : Document) : e.Tended (e.loadDocument d).2 := by
  unfold Engine.loadDocument
  split
  · exact .refl e
  · have hs := stop e
    split
    · next h => rw [h] at hs; exact hs
    · next h =>
      rw [h] at hs
      exact hs.trans ((write (.load _ _)).from_eq rfl rfl rfl rfl rfl)

theorem load (e : Engine) (text : String) : e.Tended (e.load text).2 := by
  unfold Engine.load
  split
  · exact .refl e
  · exact loadDocument e _

theorem addNode (e : Engine) (kind : String) (literals : Named) (id : Option String) :
    e.Tended (e.addNode kind literals id).2 := by
  have hid : e.Tended (e.nodeId id).2 := by
    unfold nodeId
    split
    · exact .refl e
    · exact .of_eq rfl rfl rfl rfl rfl
  unfold Engine.addNode
  split
  · exact .refl e
  · dsimp only
    split
    · exact hid
    · exact hid.trans (.of_eq rfl rfl rfl rfl rfl)

theorem addEdge (e : Engine) (x : Edge) : e.Tended (e.addEdge x).2 := by
  unfold Engine.addEdge
  split
  · exact .refl e
  · exact .of_eq rfl rfl rfl rfl rfl

theorem addChain (stem kind : String) (literals : Named) (input output : String) :
    ∀ (count number : Nat) (e : Engine),
      e.Tended (e.addChain stem kind literals input output number count).2 := by
  intro count
  induction count with
  | zero => exact fun _ e => .refl e
  | succ count ih =>
    intro number e
    have hn := addNode e kind literals (some (stem ++ toString number))
    unfold Engine.addChain
    dsimp only
    split
    · next h => rw [h] at hn; exact hn
    · next e₁ h =>
      rw [h] at hn
      have he : e₁.Tended (if (number == 0) = true then (Except.ok none, e₁) else
          e₁.addEdge ⟨stem ++ toString (number - 1), output, stem ++ toString number, input⟩).2 := by
        split
        · exact .refl e₁
        · exact addEdge e₁ _
      split
      · next h' => rw [h'] at he; exact hn.trans he
      · next h' => rw [h'] at he; exact (hn.trans he).trans (ih _ _)

/-- No command begins a run, starts a node or disturbs a strand that waits. -/
theorem command (e : Engine) (c : Command) : e.Tended (e.command c).2 := by
  have hcases := e.command_cases c
  generalize (e.command c).2 = e' at hcases ⊢
  cases hcases with
  | addNode kind literals id => exact addNode e kind literals id
  | removeNode id => exact removeNode e id
  | addEdge x | connect x => exact addEdge e x
  | chain stem kind n literals input output => exact addChain stem kind literals input output n 0 e
  | stop => exact stop e
  | fire id port outputs => exact fire e id port _
  | dispatch event payload => exact dispatch e event payload
  | setVariable name v => exact write (.set e.store name v)
  | deleteVariable name => exact write (.delete e.store name)
  | load text => exact load e text
  | _ => exact .of_eq rfl rfl rfl rfl rfl

end Tended

/-! ## How a trigger begins -/

/-- What a trigger does to its node first: a trigger that sets up an event node cancels what the node had
registered. -/
def armed (e : Engine) (node : String) (origin : Origin) : Except Raised Unit × Engine :=
  if origin == .arm then match e.graph.requireNode node with
    | .error err => (.error err, e)
    | .ok n => e.disarm n
  else (.ok (), e)

theorem armed_tended (e : Engine) (node : String) (origin : Origin) : e.Tended (e.armed node origin).2 := by
  unfold armed
  split
  · split
    · exact .refl e
    · exact .disarm e _
  · exact .refl e

/-- A trigger is refused while the engine does not run. -/
theorem startTrigger_refused {e : Engine} (hrun : e.running = false) (s : Strand) (node : String)
    (origin : Origin) (port : Option String) (seeds : Dict) :
    e.startTrigger s node origin port seeds = e.freshScope.2.go s
      (.back (.response (.trigger { trigger := e.nextTrigger, origin := node, status := .cancelled }))) := by
  have hrun' : e.freshScope.2.running = false := hrun
  simp only [startTrigger, hrun', Bool.not_false, if_true]
  rfl

theorem startTrigger_eq (e : Engine) (s : Strand) (node : String) (origin : Origin) (port : Option String)
    (seeds : Dict) (hrun : e.running = true) :
    e.startTrigger s node origin port seeds = match e.freshScope.2.armed node origin with
      | (.error err, e₁) => e₁.go s (.raise err)
      | (.ok (), e₁) =>
        let sc := seeds.foldl (fun sc x => sc.publish node x.1 x.2) { trigger := e.nextTrigger }
        let e₁ := e₁.emit (.triggerStarted sc.trigger node origin)
        e₁.nest { s with scope := sc } (.trigger node origin) (.walk (match port with
          | some p => e₁.destinations node (some p)
          | none => [node])) := by
  have hrun' : e.freshScope.2.running = true := hrun
  unfold startTrigger armed
  simp only [hrun', Bool.not_true, Bool.false_eq_true, if_false]
  rfl

end Engine

end Patchbay
