import Patchbay.Proofs.Effects
import Patchbay.Proofs.Interleaving

/-!
# What a turn tells

Observers are told of every trigger, node and error as it comes, and a node that has failed shows the
error. `Engine.told` says exactly which notices of triggers a turn adds, and `Strand.reports?` which error
it reports: an error that ends an invocation, unless it has been reported before. Nothing else that an
engine does tells observers of a trigger or lets a node show an error.

Contents:
* `Engine.record`: what observers were told of triggers; `Graph.Marks`: the errors that nodes show.
* `Strand.raising?`, `Strand.reports?`: the error that a turn raises, and the one that it reports.
* `Engine.told`: what a turn tells.

Results:
* `Engine.Tells.command`: commands tell nothing of triggers.
* `Engine.turn_tells`: what a turn tells and which node it marks.
* `Engine.Turn.tells_step`: the same for every step of an engine.
-/

namespace Patchbay

/-! ## The record and the marks -/

/-- What observers were told of triggers, oldest first. -/
def Engine.record (e : Engine) : List Notice := e.trace.toList.filter fun n => n.trigger?.isSome

/-- Whether every error that a node shows was there before, or is one that may be new: `P` holds of the
serial of the node and the message. -/
def Graph.Marks (P : Nat → String → Prop) (g g' : Graph) : Prop :=
  ∀ x ∈ g'.nodes, ∀ m, x.error = some m →
    (∃ y ∈ g.nodes, y.serial = x.serial ∧ y.error = some m) ∨ P x.serial m

namespace Graph.Marks

variable {P Q : Nat → String → Prop} {g g' g'' : Graph}

theorem of_subset (h : ∀ x ∈ g'.nodes, x ∈ g.nodes) : g.Marks P g' :=
  fun x hx _ hm => .inl ⟨x, h x hx, rfl, hm⟩

theorem refl (g : Graph) : g.Marks P g := .of_subset fun _ => id

theorem trans (h : g.Marks P g') (h' : g'.Marks P g'') : g.Marks P g'' := by
  intro x hx m hm
  rcases h' x hx m hm with ⟨y, hy, hserial, herr⟩ | hP
  · rcases h y hy m herr with ⟨z, hz, hserial', herr'⟩ | hP
    · exact .inl ⟨z, hz, hserial'.trans hserial, herr'⟩
    · exact .inr (hserial ▸ hP)
  · exact .inr hP

theorem mono (h : g.Marks P g') (hPQ : ∀ serial m, P serial m → Q serial m) : g.Marks Q g' :=
  fun x hx m hm => (h x hx m hm).imp_right (hPQ x.serial m)

/-- A change of nodes that leaves their errors alone. -/
theorem map {f : Node → Node} (hf : ∀ n, (f n).serial = n.serial ∧ (f n).error = n.error)
    (hg : g'.nodes = g.nodes.map f) : g.Marks P g' := by
  intro x hx m hm
  rw [hg] at hx
  obtain ⟨y, hy, rfl⟩ := List.mem_map.mp hx
  exact .inl ⟨y, hy, (hf y).1.symm, (hf y).2 ▸ hm⟩

/-- Nodes that show no error. -/
theorem of_none (h : ∀ x ∈ g'.nodes, x.error = none) : g.Marks P g' := by
  intro x hx m hm
  rw [h x hx] at hm
  cases hm

theorem modifyNode (g : Graph) (id : String) {f : Node → Node}
    (hf : ∀ n, (f n).serial = n.serial ∧ (f n).error = n.error) : g.Marks P (g.modifyNode id f) := by
  refine .map (f := fun n => if n.id == id then f n else n) (fun n => ?_) rfl
  split
  · exact hf n
  · exact ⟨rfl, rfl⟩

theorem addNode {k : Kind Behavior} {overrides : Named} {id : String} {n : Node}
    (h : g.addNode k overrides id = .ok (n, g')) : g.Marks P g' := by
  obtain ⟨-, literals, -, rfl, rfl⟩ := addNode_eq_ok h
  intro x hx m hm
  rcases List.mem_append.mp hx with hx | hx
  · exact .inl ⟨x, hx, rfl, hm⟩
  · rw [List.mem_singleton.mp hx] at hm
    cases hm

theorem addEdge {r : Registry Behavior} {x : Edge} {old : Option Edge}
    (h : g.addEdge r x = .ok (old, g')) : g.Marks P g' := by
  obtain ⟨-, -, -, -, -, -, -, -, -, ⟨-, rfl⟩ | ⟨-, rfl⟩⟩ := addEdge_eq_ok h
  · exact .refl g'
  · exact .of_subset fun _ => id

/-- The nodes of a document are new ones. -/
theorem ofDocument {r : Registry Behavior} {matcher : Matcher} {first : Nat} {d : Document}
    (h : Graph.ofDocument r matcher first d = .ok g') : g.Marks P g' := by
  refine .of_none (ofDocument_induction (P := fun g => ∀ x ∈ g.nodes, x.error = none) (by simp)
    (fun g a g' _ hg ha => ?_) (fun g a old g' hg hadd => ?_) h)
  · obtain ⟨k, added, g₁, -, hadd, rfl⟩ := addRecord_eq_ok ha
    obtain ⟨-, literals, -, rfl, rfl⟩ := addNode_eq_ok hadd
    intro x hx
    obtain ⟨y, hy, rfl⟩ := List.mem_map.mp hx
    have hclear : y.error = none := by
      rcases List.mem_append.mp hy with hy | hy
      · exact hg y hy
      · rw [List.mem_singleton.mp hy]
    split <;> exact hclear
  · obtain ⟨-, -, -, -, -, -, -, -, -, ⟨-, rfl⟩ | ⟨-, rfl⟩⟩ := addEdge_eq_ok hadd <;> exact hg

end Graph.Marks

namespace Engine

/-- What an engine becomes when observers are told of triggers, and `P` holds of what nodes show anew. -/
structure Tells (told : List Notice) (P : Nat → String → Prop) (e e' : Engine) : Prop where
  record : e'.record = e.record ++ told
  errors : e.graph.Marks P e'.graph

namespace Tells

variable {P Q : Nat → String → Prop} {told told' : List Notice} {e e' e'' : Engine}

/-- A change that adds nothing to the trace. -/
theorem of_trace (ht : e'.trace = e.trace) (hg : e.graph.Marks P e'.graph) : Tells [] P e e' := by
  refine ⟨?_, hg⟩
  rw [Engine.record, ht, List.append_nil, Engine.record]

theorem of_eq (ht : e'.trace = e.trace) (hg : e'.graph = e.graph) : Tells [] P e e' :=
  .of_trace ht (hg ▸ .refl _)

theorem refl (e : Engine) : Tells [] P e e := .of_eq rfl rfl

theorem trans (h : Tells told P e e') (h' : Tells told' P e' e'') : Tells (told ++ told') P e e'' := by
  refine ⟨?_, h.errors.trans h'.errors⟩
  rw [h'.record, h.record, List.append_assoc]

/-- What tells nothing, before what tells something. -/
theorem after (h' : Tells told P e' e'') (h : Tells [] P e e') : Tells told P e e'' := h.trans h'

/-- What tells nothing, after what tells something. -/
theorem before (h : Tells told P e e') (h' : Tells [] P e' e'') : Tells told P e e'' := by
  have hboth := h.trans h'
  rwa [List.append_nil] at hboth

theorem mono (h : Tells told P e e') (hPQ : ∀ serial m, P serial m → Q serial m) : Tells told Q e e' :=
  ⟨h.record, h.errors.mono hPQ⟩

theorem foldl {α : Type} {f : Engine → α → Engine} (hf : ∀ (e : Engine) (a : α), Tells [] P e (f e a))
    (l : List α) (e : Engine) : Tells [] P e (l.foldl f e) := by
  induction l generalizing e with
  | nil => exact .refl e
  | cons a rest ih => exact (ih (f e a)).after (hf e a)

/-! ## Small operations -/

theorem emit (e : Engine) {n : Notice} (hn : n.trigger?.isSome = true) : Tells [n] P e (e.emit n) := by
  refine ⟨?_, .refl _⟩
  simp [Engine.record, Engine.emit, hn]

theorem emit_none (e : Engine) {n : Notice} (hn : n.trigger? = none) : Tells [] P e (e.emit n) := by
  refine ⟨?_, .refl _⟩
  simp [Engine.record, Engine.emit, hn]

theorem modifyNode (e : Engine) (serial : Nat) {f : Node → Node}
    (hf : ∀ n, (f n).serial = n.serial ∧ (f n).error = n.error) : Tells [] P e (e.modifyNode serial f) := by
  refine .of_trace rfl (.map (f := fun n => if n.serial == serial then f n else n) (fun n => ?_) rfl)
  split
  · exact hf n
  · exact ⟨rfl, rfl⟩

theorem report (e : Engine) (sc : Scope) (i : Invocation) (f : Failure) :
    Tells [.nodeErrored sc.trigger i.node f.family.name f.message]
      (fun serial m => serial = i.serial ∧ m = f.message) e (e.report sc i f).2 := by
  have hmark : Tells [] (fun serial m => serial = i.serial ∧ m = f.message) e
      (e.modifyNode i.serial fun n => { n with error := some f.message }) := by
    refine .of_trace rfl fun x hx m hm => ?_
    obtain ⟨y, hy, rfl⟩ := List.mem_map.mp hx
    split at hm
    · next hserial =>
      rw [if_pos hserial]
      exact .inr ⟨by simpa using hserial, (Option.some.inj hm).symm⟩
    · next hserial =>
      rw [if_neg hserial]
      exact .inl ⟨y, hy, rfl, hm⟩
  exact (emit _ rfl).after hmark

theorem completeTask (e : Engine) (id : Nat) (outcome : Except Raised Response) :
    Tells [] P e (e.completeTask id outcome) := by
  unfold Engine.completeTask
  split
  · exact .refl e
  · next t _ =>
    have hsoon := foldl (P := P) (f := fun e c => e.soon (Callback.job id c)) (fun e c => .of_eq rfl rfl)
    exact (hsoon t.callbacks _).after (.of_eq rfl rfl)

theorem onDone (e : Engine) (id : Nat) (c : Callback) : Tells [] P e (e.onDone id c) := by
  unfold Engine.onDone
  split
  · exact .refl e
  · split <;> exact .of_eq rfl rfl

theorem gather (e : Engine) (members : List Nat) (strand : Nat) : Tells [] P e (e.gather members strand).2 :=
  (foldl (fun e t => onDone e t (.gather _)) members _).after (.of_eq rfl rfl)

theorem gatherDone (e : Engine) (id task : Nat) : Tells [] P e (e.gatherDone id task) := by
  have hsoon : ∀ (b : Bool) (e' : Engine) (j : Job), Tells [] P e e' →
      Tells [] P e (if b = true then e'.soon j else e') := by
    intro b e' j h
    cases b with
    | true => exact h.before (.of_eq rfl rfl)
    | false => exact h
  unfold Engine.gatherDone
  split
  · exact .refl e
  · exact hsoon _ _ _ (.of_eq rfl rfl)

theorem spawnStarts (nodes : List String) (e : Engine) : Tells [] P e (e.spawnStarts nodes).2 := by
  induction nodes generalizing e with
  | nil => exact .refl e
  | cons node rest ih => exact (ih _).after (.of_eq rfl rfl)

/-! ## Timers, events and commands -/

theorem tearDown (e : Engine) (n : Node) : Tells [] P e (e.tearDown n) := by
  unfold Engine.tearDown
  split
  · exact .refl e
  · exact modifyNode e _ fun _ => ⟨rfl, rfl⟩
  · exact emit_none e rfl

theorem disarm (e : Engine) (n : Node) : Tells [] P e (e.disarm n).2 := by
  unfold Engine.disarm
  split
  · exact .of_eq rfl rfl
  · exact (tearDown _ n).after (.of_eq rfl rfl)

theorem removeNode (e : Engine) (id : String) : Tells [] P e (e.removeNode id).2 := by
  rcases removeNode_cases e id with h | ⟨n, -, h | ⟨-, m, g, hremove, h⟩⟩
  · rw [h]
    exact .refl e
  · rw [h]
    exact disarm e n
  · rw [h]
    obtain ⟨-, rfl⟩ := Graph.removeNode_eq_ok hremove
    exact (disarm e n).before (.of_trace rfl (.of_subset fun x hx => List.mem_of_mem_filter hx))

theorem fire (e : Engine) (node port : String) (seeds : Dict) : Tells [] P e (e.fire node port seeds).2 := by
  unfold Engine.fire
  split <;> exact .of_eq rfl rfl

theorem schedulerCall (id : Nat) (payload : Value) (e : Engine) :
    Tells [] P e (Scheduler.call withScheduler Engine.runFiring id payload e) := by
  unfold Scheduler.call
  dsimp only
  split
  · exact (fire _ _ _ _).after (.of_eq rfl rfl)
  · exact .refl e

theorem expire (id : Nat) (e : Engine) :
    Tells [] P e (Scheduler.expire withScheduler .fire Engine.runFiring id e) := by
  unfold Scheduler.expire
  dsimp only
  split
  · exact .refl e
  · split
    · exact .refl e
    · exact (schedulerCall id .null _).after (.of_eq rfl rfl)

theorem dispatch (e : Engine) (event payload : Value) : Tells [] P e (e.dispatch event payload).2 := by
  unfold Engine.dispatch Scheduler.dispatch
  split
  · exact .refl e
  · refine .foldl (fun e id => ?_) _ e
    split
    · split
      · exact .refl e
      · exact schedulerCall id payload e
    · exact .refl e

theorem stop (e : Engine) : Tells [] P e e.stop.2 := by
  unfold Engine.stop
  dsimp only
  split
  · exact .of_eq rfl rfl
  · next cancelled s _ =>
    have hdown : Tells [] P e (e.graph.nodes.foldl Engine.tearDown
        { e with running := false, scheduler := s.wakeAll.2 }) :=
      (foldl tearDown _ _).after (.of_eq rfl rfl)
    exact (emit_none _ rfl).after (hdown.before (.of_eq rfl rfl))

theorem loadDocument (e : Engine) (d : Document) : Tells [] P e (e.loadDocument d).2 := by
  rcases loadDocument_cases e d with ⟨-, h⟩ | h | ⟨-, g, hread, h⟩
  · rw [h]
    exact .refl e
  · rw [h]
    exact stop e
  · rw [h]
    exact (stop e).before (.of_trace rfl (.ofDocument hread))

theorem addNode (e : Engine) (kind : String) (literals : Named) (id : Option String) :
    Tells [] P e (e.addNode kind literals id).2 := by
  have hid : Tells [] P e (e.nodeId id).2 := by
    unfold nodeId
    split <;> exact .of_eq rfl rfl
  unfold Engine.addNode
  split
  · exact .refl e
  · dsimp only
    split
    · exact hid
    · next hadd => exact hid.before (.of_trace rfl (.addNode hadd))

theorem addEdge (e : Engine) (x : Edge) : Tells [] P e (e.addEdge x).2 := by
  unfold Engine.addEdge
  split
  · exact .refl e
  · next hadd => exact .of_trace rfl (.addEdge hadd)

theorem addChain (stem kind : String) (literals : Named) (input output : String) :
    ∀ (count number : Nat) (e : Engine),
      Tells [] P e (e.addChain stem kind literals input output number count).2 := by
  intro count
  induction count with
  | zero => exact fun _ e => .refl e
  | succ count ih =>
    intro number e
    have hn := addNode (P := P) e kind literals (some (stem ++ toString number))
    unfold Engine.addChain
    dsimp only
    split
    · next h => rw [h] at hn; exact hn
    · next e₁ h =>
      rw [h] at hn
      have he : Tells [] P e₁ (if (number == 0) = true then (Except.ok none, e₁) else
          e₁.addEdge ⟨stem ++ toString (number - 1), output, stem ++ toString number, input⟩).2 := by
        split
        · exact .refl e₁
        · exact addEdge e₁ _
      split
      · next h' => rw [h'] at he; exact hn.before he
      · next h' => rw [h'] at he; exact (hn.before he).before (ih _ _)

/-- Commands tell nothing of triggers, and let no node show an error. -/
theorem command (e : Engine) (c : Command) : Tells [] P e (e.command c).2 := by
  have hcases := e.command_cases c
  generalize (e.command c).2 = e' at hcases ⊢
  cases hcases with
  | addNode kind literals id => exact addNode e kind literals id
  | removeNode id => exact removeNode e id
  | addEdge x | connect x => exact addEdge e x
  | removeEdge x => exact .of_trace rfl (.of_subset fun _ => id)
  | chain stem kind n literals input output => exact addChain stem kind literals input output n 0 e
  | setLiteral hset =>
    obtain ⟨-, -, -, -, -, rfl⟩ := Graph.setLiteral_eq_ok hset
    exact .of_trace rfl (.modifyNode _ _ fun _ => ⟨rfl, rfl⟩)
  | retag hretag =>
    obtain rfl := Graph.retag_eq_ok hretag
    exact .of_trace rfl (.modifyNode _ _ fun _ => ⟨rfl, rfl⟩)
  | replaceGraph hread => exact .of_trace rfl (.ofDocument (readGraph_eq_ok hread))
  | stop => exact stop e
  | fire id port outputs => exact fire e id port _
  | dispatch event payload => exact dispatch e event payload
  | load text =>
    unfold Engine.load
    split
    · exact .refl e
    · exact loadDocument e _
  | _ => exact .of_eq rfl rfl

end Tells

end Engine

/-! ## Errors that are raised and reported -/

/-- The failure that an error becomes when it ends an invocation in a trigger. -/
def Raised.atInvocation (trigger : Nat) (i : Invocation) : Raised → Failure
  | .failure f => (f.atNode i.node).inTrigger (.serial trigger)
  | .fault f | .mute f => {
      cause := .behaviorFailed i.node i.kind.id f
      node := some i.node
      trigger := some (.serial trigger)
      metadata := [("error_type", .str f.kind.name)] }

/-- Whether observers are told nothing of an error where it ends an invocation: they have been told of it before, or it
cannot be written. -/
def Raised.silent : Raised → Bool
  | .failure f => f.reported
  | .fault _ => false
  | .mute _ => true

/-- What goes on where an error ends an invocation of which nothing is told. -/
def Raised.passed : Raised → Raised
  | .mute _ => .fault .value
  | err => err

/-- The invocation that has named an output by which control flow cannot leave, and the error. -/
def Result.astray? : Result → Option (Invocation × Raised)
  | .invoked (.str port) i =>
    if (i.kind.execOutput port).isNone then some (i, .cause (.notAnExecOutput i.node port i.kind.id))
    else none
  | _ => none

/-- The invocation that a turn ends with an error, and the error: the behaviour raises it, or there is no
behaviour to run, or control flow cannot leave by the output that the behaviour has named. -/
def Strand.raising? (s : Strand) (sig : Signal) : Option (Invocation × Raised) :=
  match sig, s.frames with
  | .call (.invoke i), _ => if i.kind.behavior.isNone then some (i, .fault .type) else none
  | .call (.behave i (.fail err)), _ => some (i, err)
  | .call (.behave i (.again _)), _ => if i.kind.behavior.isNone then some (i, .fault .type) else none
  | .back r, .walk _ :: _ => r.astray?
  | _, _ => none

/-- Control flow can leave by the output that a behaviour has named. -/
theorem Strand.raising?_exit {id : Nat} {sc : Scope} {rest : List String} {frames : List Frame} {i : Invocation}
    {port : String} {q : Port} (h : i.kind.execOutput port = some q) :
    Strand.raising? ⟨id, sc, .walk rest :: frames⟩ (.back (.invoked (.str port) i)) = none := by
  simp [Strand.raising?, Result.astray?, h]

/-- A behaviour has named an output by which control flow cannot leave. -/
theorem Strand.raising?_astray {id : Nat} {sc : Scope} {rest : List String} {frames : List Frame} {i : Invocation}
    {port : String} (h : i.kind.execOutput port = none) :
    Strand.raising? ⟨id, sc, .walk rest :: frames⟩ (.back (.invoked (.str port) i)) =
      some (i, .cause (.notAnExecOutput i.node port i.kind.id)) := by
  simp [Strand.raising?, Result.astray?, h]

/-- The error that a turn reports, and where: one that it raises and that has not been reported. -/
def Strand.reports? (s : Strand) (sig : Signal) : Option (Invocation × Failure) :=
  ((s.raising? sig).filter fun x => !x.2.silent).map fun x =>
    (x.1, x.2.atInvocation s.scope.trigger x.1)

/-- Whether a signal is about a request, a run or the start of a trigger, not about something inside one. -/
def Signal.Outer : Signal → Prop
  | .call c => c.Outer
  | _ => True

namespace Engine

/-- Whether a trigger may begin: the engine runs, and the node can be set up. -/
def admits (e : Engine) (node : String) (origin : Origin) : Bool :=
  e.running && (e.armed node origin).1.isOk

/-- What a turn tells of triggers, errors apart. -/
def progress (e : Engine) (s : Strand) (sig : Signal) : List Notice :=
  match sig, s.frames with
  | .call (.trigger node origin _ _), _ =>
    if e.admits node origin then [.triggerStarted e.nextTrigger node origin] else []
  | .call (.walk (node :: _)), _ =>
    if e.running then match e.nodeWithKind node with
      | .ok (_, k) => if k.behavior.isNone then
          [.nodeStarted s.scope.trigger node k.id .exec,
            .nodeFinished s.scope.trigger node k.id ((s.scope.outputsOf node).map Prod.fst)] else []
      | .error _ => []
    else []
  | .call (.invoke i), _ => [.nodeStarted s.scope.trigger i.node i.kind.id i.mode]
  | .call (.behave i (.finish _)), _ =>
    [.nodeFinished s.scope.trigger i.node i.kind.id ((s.scope.outputsOf i.node).map Prod.fst)]
  | .call (.behave i (.ask (.log level message) _)), _ =>
    [.log s.scope.trigger i.node (levelWord level) message]
  | .back _, .trigger node origin :: _ =>
    [.triggerFinished s.scope.trigger node (if e.running then .ok else .cancelled) s.scope.executed origin]
  | .raise err, .trigger node origin :: _ => match err with
    | .failure _ => [.triggerFinished s.scope.trigger node .error s.scope.executed origin]
    | _ => []
  | _, _ => []

/-- What a turn tells of triggers. -/
def told (e : Engine) (s : Strand) (sig : Signal) : List Notice :=
  e.progress s sig ++ (s.reports? sig).toList.map fun x =>
    .nodeErrored s.scope.trigger x.1.node x.2.family.name x.2.message

/-- Whether a turn lets a node show an error: the one that it reports. -/
def Marked (s : Strand) (sig : Signal) (serial : Nat) (m : String) : Prop :=
  ∃ i f, s.reports? sig = some (i, f) ∧ serial = i.serial ∧ m = f.message

section Turns

variable {e : Engine} {s : Strand} {P : Nat → String → Prop}

/-- An error that ends an invocation is raised again, and reported unless it is silent. -/
theorem failInvocation_eq (e : Engine) (s : Strand) (i : Invocation) (err : Raised) :
    e.failInvocation s i err = if err.silent then e.go s (.raise err.passed) else
      (e.report s.scope i (err.atInvocation s.scope.trigger i)).2.go s
        (.raise (.failure { err.atInvocation s.scope.trigger i with reported := true })) := by
  cases err with
  | failure f =>
    cases hr : f.reported with
    | true => simp only [failInvocation, Raised.silent, Raised.passed, hr, if_true]
    | false =>
      simp only [failInvocation, Raised.silent, hr, Bool.false_eq_true, if_false]
      rfl
  | fault f => rfl
  | mute f => rfl

/-- What an error at an invocation tells, after some other notices. -/
theorem failInvocation_tells {e₁ : Engine} {sig : Signal} {i : Invocation} {err : Raised}
    (hraise : s.raising? sig = some (i, err)) (h : Tells (e.progress s sig) (Marked s sig) e e₁) :
    Tells (e.told s sig) (Marked s sig) e (e₁.failInvocation s i err).engine := by
  rw [failInvocation_eq, told, Strand.reports?, hraise]
  cases hr : err.silent with
  | true =>
    simp only [Option.filter_some, hr, Bool.not_true, Bool.false_eq_true, if_false, Option.map_none,
      Option.toList_none, List.map_nil, List.append_nil, if_true]
    exact h
  | false =>
    simp only [Option.filter_some, hr, Bool.not_false, Bool.false_eq_true, if_false, if_true,
      Option.map_some, Option.toList_some, List.map_cons, List.map_nil]
    refine h.trans ((Tells.report e₁ s.scope i _).mono fun serial m hm => ⟨i, _, ?_, hm⟩)
    simp [Strand.reports?, hraise, hr]

theorem told_of_raising?_none {sig : Signal} (h : s.raising? sig = none) :
    e.told s sig = e.progress s sig := by
  rw [told, Strand.reports?, h]
  exact List.append_nil _

/-- A turn that raises nothing and tells nothing. -/
theorem Tells.quiet {e' : Engine} {sig : Signal} (h : Tells [] P e e') (hp : e.progress s sig = [])
    (hr : s.raising? sig = none) : Tells (e.told s sig) P e e' := by
  rw [told_of_raising?_none hr, hp]
  exact h

theorem armed_freshScope (e : Engine) (node : String) (origin : Origin) :
    (e.freshScope.2.armed node origin).1 = (e.armed node origin).1 := by
  have hdisarm : ∀ (e : Engine) (n : Node),
      (e.disarm n).1 = Fault.lift ((e.scheduler.cancelOwner n.id).1.map fun _ => ()) := by
    intro e n
    unfold disarm
    split <;> next h => rw [h]; rfl
  unfold armed
  split
  · unfold Graph.requireNode
    cases hn : e.graph.node? node with
    | none =>
      have hn' : e.freshScope.2.graph.node? node = none := hn
      simp only [hn']
    | some n =>
      have hn' : e.freshScope.2.graph.node? node = some n := hn
      simp only [hn', hdisarm]
      rfl
  · rfl

theorem armed_tells (e : Engine) (node : String) (origin : Origin) :
    Tells [] P e (e.armed node origin).2 := by
  unfold armed
  split
  · split
    · exact .refl e
    · exact .disarm e _
  · exact .refl e

theorem startTrigger_tells (node : String) (origin : Origin) (port : Option String) (seeds : Dict) :
    Tells (if e.admits node origin then [.triggerStarted e.nextTrigger node origin] else []) P e
      (e.startTrigger s node origin port seeds).engine := by
  unfold admits
  cases hrun : e.running with
  | false =>
    have hrun' : e.freshScope.2.running = false := hrun
    simp only [startTrigger, hrun', Bool.not_false, if_true, Bool.false_and, Bool.false_eq_true, if_false]
    exact .of_eq rfl rfl
  | true =>
    have harmed := (armed_tells (P := P) e.freshScope.2 node origin).after (.of_eq (e := e) rfl rfl)
    rw [startTrigger_eq e s node origin port seeds hrun, Bool.true_and, ← armed_freshScope]
    generalize e.freshScope.2.armed node origin = x at harmed ⊢
    obtain ⟨r, e₁⟩ := x
    cases r with
    | error err => exact harmed
    | ok u =>
      have htrigger := (Scope.Extends.publishAll node seeds { trigger := e.nextTrigger }).trigger
      simp only [htrigger]
      exact (Tells.emit _ rfl).after harmed

theorem walk_tells (agenda : List String) :
    Tells (e.progress s (.call (.walk agenda))) P e (e.walk s agenda).engine := by
  have hcases := e.walk_cases s agenda
  generalize e.walk s agenda = t at hcases ⊢
  cases hcases with
  | done => exact .refl e
  | stopped hrun =>
    simp only [progress, hrun, Bool.false_eq_true, if_false]
    exact .refl e
  | unknown hrun hn =>
    simp only [progress, hrun, hn, if_true]
    exact .refl e
  | invokes hrun hn hb =>
    simp only [progress, hrun, hn, hb, if_true, Option.isNone_some, Bool.false_eq_true, if_false]
    exact .refl e
  | passes hrun hn hb =>
    simp only [progress, hrun, hn, hb, if_true, Option.isNone_none]
    exact (Tells.emit e rfl).trans (Tells.emit _ rfl)

theorem finishInvocation_tells (i : Invocation) (v : Value) :
    Tells [.nodeFinished s.scope.trigger i.node i.kind.id ((s.scope.outputsOf i.node).map Prod.fst)] P e
      (e.finishInvocation s i v).engine := by
  unfold finishInvocation
  refine (Tells.emit _ rfl).after ?_
  split
  · exact .modifyNode e _ fun _ => ⟨rfl, rfl⟩
  · exact .refl e

theorem perform_tells (i : Invocation) (sc : Scope) {q : Query}
    (hq : ∀ level message, q ≠ .log level message) : Tells [] P e (e.perform i sc q).engine := by
  cases q with
  | log level message => exact absurd rfl (hq level message)
  | keep key c => exact .modifyNode e _ fun _ => ⟨rfl, rfl⟩
  | _ => exact .of_eq rfl rfl

theorem awaitFor_tells (i : Invocation) (w : Wait) (k : Except Raised w.Reply → Script) :
    Tells [] P e (e.awaitFor s i w k).engine := by
  cases w with
  | pull port => exact .refl e
  | advance port =>
    simp only [awaitFor]
    split <;> exact .refl e
  | checkpoint => exact .of_eq rfl rfl
  | sleep seconds =>
    simp only [awaitFor]
    split
    · exact .refl e
    · exact .of_eq rfl rfl

theorem behave_tells (i : Invocation) (script : Script) :
    Tells (e.told s (.call (.behave i script))) (Marked s (.call (.behave i script))) e
      (e.behave s i script).engine := by
  cases script with
  | finish v =>
    rw [told_of_raising?_none rfl]
    exact finishInvocation_tells i v
  | fail err => exact failInvocation_tells rfl (.refl e)
  | again state =>
    cases hb : i.kind.behavior with
    | some b =>
      have hr : s.raising? (.call (.behave i (.again state))) = none := by
        simp [Strand.raising?, hb]
      refine .quiet ?_ rfl hr
      simp only [behave, hb]
      exact .refl e
    | none =>
      have hr : s.raising? (.call (.behave i (.again state))) = some (i, .fault .type) := by
        simp [Strand.raising?, hb]
      simp only [behave, hb]
      exact failInvocation_tells hr (.refl e)
  | ask q k =>
    rw [told_of_raising?_none rfl]
    cases q with
    | log level message => exact .emit e rfl
    | _ => exact perform_tells i s.scope (by simp)
  | edit c k => exact .quiet (.command e c) rfl rfl
  | wait w k => exact .quiet (awaitFor_tells i w k) rfl rfl

theorem invoke_tells (i : Invocation) :
    Tells (e.told s (.call (.invoke i))) (Marked s (.call (.invoke i))) e (e.invoke s i).engine := by
  unfold invoke
  cases hb : i.kind.behavior with
  | some b =>
    have hr : s.raising? (.call (.invoke i)) = none := by simp [Strand.raising?, hb]
    rw [told_of_raising?_none hr]
    exact .emit e rfl
  | none =>
    have hr : s.raising? (.call (.invoke i)) = some (i, .fault .type) := by simp [Strand.raising?, hb]
    exact failInvocation_tells hr (.emit e rfl)

theorem pullInput_engine (node port : String) : (e.pullInput s node port).engine = e := by
  have hcases := e.pullInput_cases s node port
  generalize e.pullInput s node port = t at hcases ⊢
  cases hcases <;> rfl

theorem pullOutput_tells (node port : String) : Tells [] P e (e.pullOutput s node port).engine := by
  unfold pullOutput runForOutput
  dsimp only
  repeat' split
  all_goals exact .of_eq rfl rfl

/-! ## Runs and requests -/

theorem beginRun_tells (e : Engine) : Tells [] P e e.beginRun := by
  refine .of_trace rfl (.of_none fun x hx => ?_)
  obtain ⟨y, -, rfl⟩ := List.mem_map.mp hx
  rfl

theorem armNext_tells (rest starts : List String) (results : List TriggerResult) :
    Tells [] P e (e.armNext s rest starts results).engine := by
  cases rest with
  | cons node rest => exact .refl e
  | nil => exact ((Tells.spawnStarts starts e).before (.gather _ _ _)).before (.of_eq rfl rfl)

theorem startRun_tells : Tells [] P e (e.startRun s).engine := by
  unfold startRun
  split
  · exact .refl e
  · exact (armNext_tells _ _ _).after ((Tells.emit_none _ rfl).after (beginRun_tells e))

theorem step_tells : Tells [] P e (e.step s).engine := by
  unfold step
  split
  · exact .of_eq rfl rfl
  · next hnext =>
    obtain ⟨rest, rfl | ⟨-, rfl⟩⟩ := nextStep_eq_ok hnext
    · exact .of_eq rfl rfl
    · exact (beginRun_tells e).before (.of_eq rfl rfl)

theorem join_tells (results : List TriggerResult) : Tells [] P e (e.join s results).engine := by
  unfold join
  split
  · exact .refl e
  · exact (Tells.gather e _ _).before (.of_eq rfl rfl)

theorem waitRun_tells (name : String) : Tells [] P e (e.waitRun s name).engine := by
  unfold waitRun
  split
  · exact .refl e
  · split
    · exact .refl e
    · exact .refl e
    · exact (Tells.onDone e _ _).before (.of_eq rfl rfl)

theorem pass_tells (ms : Value) : Tells [] P e (e.pass s ms).engine := by
  unfold pass
  dsimp only
  repeat' split
  all_goals exact .of_eq rfl rfl

theorem tick_tells (n : Nat) : Tells [] P e (e.tick s n).engine := by
  cases n <;> exact .of_eq rfl rfl

theorem nextRequest_tells : Tells [] P e (e.nextRequest s).engine := by
  unfold nextRequest
  split <;> exact .of_eq rfl rfl

theorem answerRequest_tells (result : Except Raised Response) :
    Tells [] P e (e.answerRequest s result).engine :=
  nextRequest_tells.after (.of_eq rfl rfl)

theorem request_tells (r : Request) : Tells [] P e (e.request s r).engine := by
  cases r with
  | command c =>
    rw [request_command]
    exact .command e c
  | run => exact .refl e
  | step => exact step_tells
  | runNode id =>
    simp only [request]
    split
    · exact .refl e
    · exact beginRun_tells e
  | pull id port => exact .of_eq rfl rfl
  | join => exact join_tells []
  | startRun name => exact .of_eq rfl rfl
  | waitRun name => exact waitRun_tells name
  | tick n => exact tick_tells n
  | advance ms => exact pass_tells ms
  | refused err => exact .refl e

/-! ## Frames -/

theorem resumeBehavior_engine (i : Invocation) (w : Wait) (k : Except Raised w.Reply → Script) (r : Result) :
    (e.resumeBehavior s i w k r).engine = e := by
  unfold resumeBehavior
  split <;> rfl

/-- The result of an invocation that control flow had reached. -/
theorem continueFrom_tells {id : Nat} {sc : Scope} {rest : List String} {frames : List Frame} {i : Invocation}
    {v : Value} :
    Tells (e.told ⟨id, sc, .walk rest :: frames⟩ (.back (.invoked v i)))
      (Marked ⟨id, sc, .walk rest :: frames⟩ (.back (.invoked v i))) e
      (e.continueFrom ⟨id, sc, frames⟩ i v rest).engine := by
  unfold continueFrom
  cases v with
  | str port =>
    cases hp : i.kind.execOutput port with
    | some q =>
      simp only [hp]
      exact .quiet (.refl e) rfl (Strand.raising?_exit hp)
    | none =>
      simp only [hp]
      exact failInvocation_tells (Strand.raising?_astray hp) (.refl e)
  | _ => exact .quiet (.refl e) rfl rfl

theorem finishOutput_tells (node port : String) (serial : Nat) (v : Value) (i : Invocation) :
    Tells [] P e (e.finishOutput s node port serial v i).engine :=
  .modifyNode e serial fun _ => ⟨rfl, rfl⟩

theorem endTrigger_tells (node : String) (origin : Origin) (error : Option Failure) :
    Tells [.triggerFinished s.scope.trigger node (if error.isSome then .error else
      if e.running then .ok else .cancelled) s.scope.executed origin] P e
      (e.endTrigger s node origin error).engine := by
  have hstatus : (if (error.map fun f => f.inTrigger (.serial s.scope.trigger)).isSome then Status.error else
      if !e.running then .cancelled else .ok) =
      if error.isSome then .error else if e.running then .ok else .cancelled := by
    cases error with
    | some f => rfl
    | none => cases e.running <;> rfl
  unfold endTrigger
  simp only [hstatus]
  exact .emit e rfl

/-- A result reaches the frame that waited for it. -/
theorem back_tells (e : Engine) (id : Nat) (sc : Scope) (f : Frame) (frames : List Frame) (r : Result) :
    Tells (e.told ⟨id, sc, f :: frames⟩ (.back r)) (Marked ⟨id, sc, f :: frames⟩ (.back r)) e
      (e.turn ⟨id, sc, f :: frames⟩ (.back r)).engine := by
  -- a walk and the end of a trigger tell something; under any other frame the engine is silent
  cases f with
  | behavior i w k =>
    refine .quiet ?_ rfl rfl
    show Tells [] _ e (e.resumeBehavior ⟨id, sc, frames⟩ i w k r).engine
    rw [resumeBehavior_engine]
    exact .refl e
  | walk rest =>
    cases r with
    | invoked v i => exact continueFrom_tells
    | _ => exact .quiet (.refl e) rfl rfl
  | output node port serial =>
    cases r with
    | invoked v i => exact .quiet (finishOutput_tells node port serial v i) rfl rfl
    | _ => exact .quiet (.refl e) rfl rfl
  | hop => exact .quiet (.of_eq rfl rfl) rfl rfl
  | trigger node origin =>
    rw [told_of_raising?_none rfl]
    exact endTrigger_tells (s := ⟨id, sc, frames⟩) node origin none
  | arming rest starts results =>
    refine .quiet ?_ rfl rfl
    cases r with
    | response x => cases x <;> exact armNext_tells _ _ _
    | _ => exact armNext_tells _ _ _
  | gathering results =>
    refine .quiet ?_ rfl rfl
    cases r with
    | response x => cases x <;> exact .refl e
    | _ => exact .refl e
  | direct =>
    refine .quiet ?_ rfl rfl
    cases r with
    | response x =>
      cases x with
      | trigger t =>
        simp only [turn, back]
        split <;> exact .refl e
      | _ => exact .refl e
    | _ => exact .refl e
  | joining results =>
    refine .quiet ?_ rfl rfl
    cases r with
    | response x => cases x <;> exact join_tells _
    | _ => exact join_tells _
  | value => exact .quiet (.refl e) rfl rfl
  | ticking n => exact .quiet (tick_tells n) rfl rfl
  | advancing => exact .quiet (.refl e) rfl rfl
  | task id => exact .quiet (.completeTask e _ _) rfl rfl
  | session => exact .quiet (answerRequest_tells _) rfl rfl

/-- An error comes up to a frame. -/
theorem raise_tells (e : Engine) (id : Nat) (sc : Scope) (f : Frame) (frames : List Frame) (err : Raised) :
    Tells (e.told ⟨id, sc, f :: frames⟩ (.raise err)) (Marked ⟨id, sc, f :: frames⟩ (.raise err)) e
      (e.turn ⟨id, sc, f :: frames⟩ (.raise err)).engine := by
  cases f with
  | hop => exact .quiet (.of_eq rfl rfl) rfl rfl
  | trigger node origin =>
    cases err with
    | failure f =>
      rw [told_of_raising?_none rfl]
      exact endTrigger_tells (s := ⟨id, sc, frames⟩) node origin (some f)
    | fault f => exact .quiet (.refl e) rfl rfl
    | mute f => exact .quiet (.refl e) rfl rfl
  | task id => exact .quiet (.completeTask e _ _) rfl rfl
  | session => exact .quiet (answerRequest_tells _) rfl rfl
  | _ => exact .quiet (.refl e) rfl rfl

/-- What a turn tells of triggers, and which node it lets show an error. -/
theorem turn_tells (e : Engine) (s : Strand) (sig : Signal) :
    Tells (e.told s sig) (Marked s sig) e (e.turn s sig).engine := by
  cases sig with
  | call c =>
    cases c with
    | trigger node origin port seeds =>
      rw [told_of_raising?_none rfl]
      exact startTrigger_tells node origin port seeds
    | walk agenda =>
      rw [told_of_raising?_none rfl]
      exact walk_tells agenda
    | invoke i => exact invoke_tells i
    | behave i script => exact behave_tells i script
    | input node port =>
      refine .quiet ?_ rfl rfl
      show Tells [] _ e (e.pullInput s node port).engine
      rw [pullInput_engine]
      exact .refl e
    | output node port => exact .quiet (pullOutput_tells node port) rfl rfl
    | run => exact .quiet startRun_tells rfl rfl
    | request r => exact .quiet (request_tells r) rfl rfl
  | back r =>
    obtain ⟨id, sc, fs⟩ := s
    cases fs with
    | nil => exact .quiet (.refl e) rfl rfl
    | cons f frames => exact back_tells e id sc f frames r
  | raise err =>
    obtain ⟨id, sc, fs⟩ := s
    cases fs with
    | nil => exact .quiet (.refl e) rfl rfl
    | cons f frames => exact raise_tells e id sc f frames err

/-- Jobs of the loop tell nothing of triggers. -/
theorem handle_tells (e : Engine) (j : Job) : Tells [] P e (e.handle j).engine := by
  cases j with
  | resume id =>
    simp only [handle]
    split
    · exact .refl e
    · next s p _ =>
      split
      · cases p with
        | turn sig => exact .of_eq rfl rfl
        | sleep z => exact .of_eq rfl rfl
        | task z =>
          simp only [unpark]
          split <;> exact .of_eq rfl rfl
        | gather z =>
          simp only [unpark]
          split <;> exact .of_eq rfl rfl
      · exact .refl e
  | timeout id => exact .of_eq rfl rfl
  | fire id => exact .expire id e
  | elapse id => exact .of_eq rfl rfl
  | discard id => exact .of_eq rfl rfl
  | gather id task => exact .gatherDone e id task

end Turns

namespace Turn

/-- What the turn of the strand under way tells of triggers. -/
def told (t : Turn) : List Notice :=
  match t.next with
  | some (s, sig) => t.engine.told s sig
  | none => []

/-- Whether the turn of the strand under way lets a node show an error. -/
def Marks (t : Turn) (serial : Nat) (m : String) : Prop :=
  ∃ s sig, t.next = some (s, sig) ∧ Marked s sig serial m

theorem told_of_next {t : Turn} {s : Strand} {sig : Signal} (h : t.next = some (s, sig)) :
    t.told = t.engine.told s sig := by
  rw [told, h]

theorem told_of_none {t : Turn} (h : t.next = none) : t.told = [] := by
  rw [told, h]

/-- What a step tells of triggers, and which node it lets show an error. -/
theorem tells_step {t t' : Turn} (h : Step t t') : Tells t.told t.Marks t.engine t'.engine := by
  cases h with
  | @turn s sig hn =>
    rw [told_of_next hn]
    exact (turn_tells t.engine s sig).mono fun serial m hm => ⟨s, sig, hn, hm⟩
  | job hn scheduler j =>
    rw [told_of_none hn]
    exact (handle_tells _ j).after (.of_eq rfl rfl)
  | request hn r =>
    rw [told_of_none hn]
    exact .of_eq rfl rfl

end Turn

section Triggers

variable {e : Engine} {s : Strand} {sig : Signal} {n : Notice}

/-- A turn tells of the trigger of its strand, or that a new one has started. -/
theorem trigger?_of_mem_told (h : n ∈ e.told s sig) :
    n.trigger? = some s.scope.trigger ∨
      ∃ node origin port seeds, sig = .call (.trigger node origin port seeds) ∧
        n = .triggerStarted e.nextTrigger node origin := by
  rcases List.mem_append.mp h with h | h
  · unfold progress at h
    split at h
    · next node origin port seeds _ =>
      split at h
      · exact .inr ⟨node, origin, port, seeds, rfl, List.mem_singleton.mp h⟩
      · cases h
    · refine .inl ?_
      repeat' split at h
      · rcases List.mem_cons.mp h with rfl | h
        · rfl
        · rw [List.mem_singleton.mp h]
          rfl
      all_goals cases h
    · exact .inl (by rw [List.mem_singleton.mp h]; rfl)
    · exact .inl (by rw [List.mem_singleton.mp h]; rfl)
    · exact .inl (by rw [List.mem_singleton.mp h]; rfl)
    · exact .inl (by rw [List.mem_singleton.mp h]; rfl)
    · split at h
      · exact .inl (by rw [List.mem_singleton.mp h]; rfl)
      · cases h
    · cases h
  · obtain ⟨x, -, rfl⟩ := List.mem_map.mp h
    exact .inl rfl

/-- Outside triggers a turn tells at most that one has started. -/
theorem started_of_mem_told (hf : ∀ f ∈ s.frames, f.Outer) (hsig : sig.Outer) (h : n ∈ e.told s sig) :
    ∃ node origin port seeds, sig = .call (.trigger node origin port seeds) ∧
      n = .triggerStarted e.nextTrigger node origin := by
  obtain ⟨id, sc, frames⟩ := s
  cases sig with
  | call c =>
    cases c with
    | trigger node origin port seeds =>
      rw [told_of_raising?_none rfl] at h
      simp only [progress] at h
      split at h
      · exact ⟨node, origin, port, seeds, rfl, List.mem_singleton.mp h⟩
      · cases h
    | run => cases h
    | request r => cases h
    | _ => exact hsig.elim
  | back r =>
    cases frames with
    | nil => cases h
    | cons f frames =>
      have hout : f.Outer := hf f List.mem_cons_self
      cases f <;> first | exact hout.elim | cases h
  | raise err =>
    cases frames with
    | nil => cases h
    | cons f frames =>
      have hout : f.Outer := hf f List.mem_cons_self
      cases f <;> first | exact hout.elim | cases h

end Triggers

end Engine

end Patchbay
