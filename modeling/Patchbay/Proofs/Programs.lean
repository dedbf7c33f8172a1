import Patchbay.Proofs.Effects
import Patchbay.Proofs.Histories
import Patchbay.Proofs.Plain

/-!
# What changes the program

Most of what an engine does changes only what nodes remember of their results and errors: its outlook stays. The
exceptions are what a behaviour asks for, the setting up of a node, timers that fire, and commands. Of these only
commands change the program.

Contents:
* `Engine.outlook`: an engine without what its nodes remember of their results, and who has registered something.

Results:
* `Engine.outlook_turn`, `Engine.outlook_handle`: turns and jobs of the loop that leave the outlook as it is.
* `Engine.program_turn`, `Engine.program_handle`: turns that carry out no command, and jobs of the loop.
* `program_run`: runs in which no command is carried out.
-/

namespace Patchbay

/-- A node without what it remembers of its results. -/
def Node.lasting (n : Node) : Node := { n with lastOutputs := [], error := none }

/-- An engine without what its nodes remember of their results: settings, kinds, the graph, the index of active
registrations by owner, and what registrations start. -/
structure Outlook where
  config : Config
  registry : Registry Behavior
  graph : Graph
  byOwner : List (String × List Nat)
  callbacks : List (RegistrationKind × Firing)

/-- What makes the registrations of a scheduler fire, and what they start. -/
def Scheduler.callbacks (s : Scheduler Firing Job) : List (RegistrationKind × Firing) :=
  s.registrations.map fun r => (r.kind, r.callback)

namespace Engine

/-- What stays the same of an engine while nothing is set up, registered or changed. -/
def outlook (e : Engine) : Outlook where
  config := e.config
  registry := e.registry
  graph := { e.graph with nodes := e.graph.nodes.map Node.lasting }
  byOwner := e.scheduler.byOwner
  callbacks := e.scheduler.callbacks

variable {e e' : Engine}

/-- The program of an engine belongs to its outlook. -/
theorem program_of_outlook (h : e'.outlook = e.outlook) : e'.program = e.program := by
  have hbare (e : Engine) : e.program = ⟨e.outlook.config, e.outlook.registry,
      { e.outlook.graph with nodes := e.outlook.graph.nodes.map Node.bare }⟩ := by
    show Program.mk e.config e.registry _ = Program.mk e.config e.registry
      { e.graph with nodes := (e.graph.nodes.map Node.lasting).map Node.bare }
    rw [List.map_map]
    rfl
  rw [hbare, hbare, h]

/-! ## Small operations -/

/-- Nodes that hold other results or other state are the same program. -/
theorem program_revises (e : Engine) {g : Graph} (h : e.graph.Revises g) :
    { e with graph := g }.program = e.program := by
  obtain ⟨f, hf, rfl⟩ := h
  have hbare : Node.bare ∘ f = Node.bare := by
    funext n
    obtain ⟨hserial, hid, hkind, hliterals⟩ := hf n
    simp only [Function.comp_apply, Node.bare, hserial, hid, hkind, hliterals]
  show Program.mk e.config e.registry { e.graph with nodes := (e.graph.nodes.map f).map Node.bare } = _
  rw [List.map_map, hbare]
  rfl

theorem program_modifyNode (e : Engine) (serial : Nat) {f : Node → Node}
    (hf : ∀ n, (f n).serial = n.serial ∧ (f n).id = n.id ∧ (f n).kind = n.kind ∧ (f n).literals = n.literals) :
    (e.modifyNode serial f).program = e.program :=
  program_revises e (revises_modifyNode e serial hf)

/-- Nodes that hold other results are the same in the outlook. -/
theorem outlook_mapNodes (e : Engine) (retired : List Node) {f : Node → Node} (hf : ∀ n, (f n).lasting = n.lasting) :
    { e with graph := { e.graph with nodes := e.graph.nodes.map f }, retired := retired }.outlook = e.outlook := by
  have hlasting : Node.lasting ∘ f = Node.lasting := funext hf
  show Outlook.mk e.config e.registry { e.graph with nodes := (e.graph.nodes.map f).map Node.lasting } _ _ = _
  rw [List.map_map, hlasting]
  rfl

theorem outlook_modifyNode (e : Engine) (serial : Nat) {f : Node → Node} (hf : ∀ n, (f n).lasting = n.lasting) :
    (e.modifyNode serial f).outlook = e.outlook := by
  refine outlook_mapNodes e _ fun n => ?_
  split
  · exact hf n
  · rfl

theorem outlook_beginRun (e : Engine) : e.beginRun.outlook = e.outlook :=
  outlook_mapNodes { e with running := true } e.retired fun _ => rfl

theorem outlook_foldl {γ : Type} {f : Engine → γ → Engine} (hf : ∀ e a, (f e a).outlook = e.outlook) (l : List γ)
    (e : Engine) : (l.foldl f e).outlook = e.outlook := by
  induction l generalizing e with
  | nil => rfl
  | cons a rest ih => exact (ih (f e a)).trans (hf e a)

theorem outlook_completeTask (e : Engine) (id : Nat) (outcome : Except Raised Response) :
    (e.completeTask id outcome).outlook = e.outlook := by
  unfold completeTask
  split
  · rfl
  · exact outlook_foldl (f := fun e (c : Callback) => e.soon (c.job id)) (fun _ _ => rfl) _ _

theorem outlook_onDone (e : Engine) (id : Nat) (c : Callback) : (e.onDone id c).outlook = e.outlook := by
  unfold onDone
  split
  · rfl
  · split <;> rfl

theorem outlook_gather (e : Engine) (members : List Nat) (strand : Nat) :
    (e.gather members strand).2.outlook = e.outlook :=
  outlook_foldl (fun e t => outlook_onDone e t _) members _

theorem outlook_gatherDone (e : Engine) (id task : Nat) : (e.gatherDone id task).outlook = e.outlook := by
  have hsoon : ∀ (b : Bool) (e' : Engine) (j : Job), e'.outlook = e.outlook →
      (if b = true then e'.soon j else e').outlook = e.outlook := by
    intro b e' j h
    cases b <;> exact h
  unfold gatherDone
  split
  · rfl
  · exact hsoon _ _ _ rfl

theorem outlook_spawnStarts (nodes : List String) (e : Engine) : (e.spawnStarts nodes).2.outlook = e.outlook := by
  induction nodes generalizing e with
  | nil => rfl
  | cons node rest ih => exact ih _

theorem outlook_report (e : Engine) (sc : Scope) (i : Invocation) (f : Failure) :
    (e.report sc i f).2.outlook = e.outlook :=
  outlook_modifyNode e i.serial (f := fun n => { n with error := some f.message }) fun _ => rfl

theorem program_tearDown (e : Engine) (n : Node) : (e.tearDown n).program = e.program := by
  unfold tearDown
  split
  · rfl
  · exact program_modifyNode _ _ fun _ => ⟨rfl, rfl, rfl, rfl⟩
  · rfl

theorem program_disarm (e : Engine) (n : Node) : (e.disarm n).2.program = e.program := by
  unfold disarm
  split
  · rfl
  · exact program_tearDown _ n

theorem program_stop (e : Engine) : e.stop.2.program = e.program := by
  have hfold : ∀ (ns : List Node) (e : Engine), (ns.foldl tearDown e).program = e.program := by
    intro ns
    induction ns with
    | nil => exact fun _ => rfl
    | cons n rest ih => exact fun e => (ih (e.tearDown n)).trans (program_tearDown e n)
  unfold stop
  dsimp only
  split
  · rfl
  · exact (hfold e.graph.nodes _).trans rfl

/-! ## The scheduler -/

/-- A change of a registration that leaves alone what it starts. -/
theorem callbacks_modify (s : Scheduler Firing Job) (id : Nat) {f : Registration Firing → Registration Firing}
    (hf : ∀ r, (f r).kind = r.kind ∧ (f r).callback = r.callback) : (s.modify id f).callbacks = s.callbacks := by
  show (s.registrations.map fun r => if r.id == id then f r else r).map (fun r => (r.kind, r.callback)) = s.callbacks
  rw [List.map_map]
  refine List.map_congr_left fun r _ => ?_
  simp only [Function.comp_apply]
  split
  · exact Prod.ext (hf r).1 (hf r).2
  · rfl

/-- An interval whose timer is set again stays in the index, and starts what it did. -/
theorem rearm_fields (s : Scheduler Firing Job) (r : Registration Firing) :
    (s.rearm r .fire).byOwner = s.byOwner ∧ (s.rearm r .fire).callbacks = s.callbacks := by
  unfold Scheduler.rearm
  split
  · dsimp only
    split
    · next harm =>
      obtain ⟨due, rfl⟩ := Scheduler.arm_eq_ok harm
      refine ⟨rfl, ?_⟩
      rw [callbacks_modify, callbacks_modify]
      · rfl
      · exact fun _ => ⟨rfl, rfl⟩
      · exact fun _ => ⟨rfl, rfl⟩
    · exact ⟨rfl, rfl⟩
  · exact ⟨rfl, rfl⟩

theorem outlook_schedule (e : Engine) {s : Scheduler Firing Job} (hb : s.byOwner = e.scheduler.byOwner)
    (hc : s.callbacks = e.scheduler.callbacks) : { e with scheduler := s }.outlook = e.outlook := by
  show Outlook.mk e.config e.registry _ s.byOwner s.callbacks = _
  rw [hb, hc]
  rfl

theorem outlook_fire (e : Engine) (node port : String) (seeds : Dict) :
    (e.fire node port seeds).2.outlook = e.outlook := by
  unfold fire
  split <;> rfl

theorem outlook_schedulerCall (id : Nat) (payload : Value) (e : Engine) :
    (Scheduler.call withScheduler runFiring id payload e).outlook = e.outlook := by
  unfold Scheduler.call
  dsimp only
  split
  · exact (outlook_fire _ _ _ _).trans (outlook_schedule e rfl (callbacks_modify e.scheduler id fun _ => ⟨rfl, rfl⟩))
  · rfl

/-- Events leave the outlook as it is. -/
theorem outlook_dispatch (e : Engine) (event payload : Value) : (e.dispatch event payload).2.outlook = e.outlook := by
  unfold dispatch Scheduler.dispatch
  split
  · rfl
  · refine outlook_foldl (fun e id => ?_) _ e
    split
    · split
      · rfl
      · exact outlook_schedulerCall id payload e
    · rfl

/-- The program is the same whatever fires. -/
theorem program_fires (e : Engine) (id : Nat) :
    (Scheduler.expire withScheduler .fire runFiring id e).program = e.program := by
  unfold Scheduler.expire
  dsimp only
  split
  · rfl
  · split
    · rfl
    · exact (program_of_outlook (outlook_schedulerCall id .null _)).trans rfl

/-- An interval that fires leaves the outlook as it is. -/
theorem outlook_fires (e : Engine) {id : Nat} (h : ∀ r, e.scheduler.find? id = some r → r.kind = .interval) :
    (Scheduler.expire withScheduler .fire runFiring id e).outlook = e.outlook := by
  unfold Scheduler.expire
  dsimp only
  split
  · rfl
  · next r hr =>
    split
    · rfl
    · refine (outlook_schedulerCall id .null _).trans ?_
      rw [h r hr]
      exact outlook_schedule e (rearm_fields e.scheduler r).1 (rearm_fields e.scheduler r).2

/-! ## Jobs of the loop -/

/-- A job of the loop leaves the outlook as it is, unless a registration fires. -/
theorem outlook_handle (e : Engine) {j : Job} (hj : ∀ id, j ≠ .fire id) : (e.handle j).engine.outlook = e.outlook := by
  cases j with
  | resume id =>
    simp only [handle]
    split
    · rfl
    · next p _ =>
      split
      · cases p with
        | turn => rfl
        | sleep id =>
          simp only [unpark, Scheduler.endSleep]
          split <;> rfl
        | task | gather =>
          simp only [unpark]
          split <;> rfl
      · rfl
  | fire id => exact absurd rfl (hj id)
  | elapse id =>
    simp only [handle, Scheduler.elapse, Scheduler.settle]
    split
    · rfl
    · split <;> rfl
  | timeout | discard => rfl
  | gather id task => exact outlook_gatherDone e id task

/-- A job of the loop leaves the program as it is. -/
theorem program_handle (e : Engine) (j : Job) : (e.handle j).engine.program = e.program := by
  by_cases hfire : ∃ id, j = .fire id
  · obtain ⟨id, rfl⟩ := hfire
    exact program_fires e id
  · exact program_of_outlook (outlook_handle e fun id heq => hfire ⟨id, heq⟩)

/-! ## Behaviours, control flow and data flow -/

variable (e : Engine) (s : Strand)

theorem outlook_failInvocation (i : Invocation) (err : Raised) :
    (e.failInvocation s i err).engine.outlook = e.outlook := by
  cases err with
  | failure f =>
    simp only [failInvocation]
    split
    · rfl
    · exact outlook_report e s.scope i _
  | fault f => exact outlook_report e s.scope i _
  | mute f => rfl

theorem outlook_finishInvocation (i : Invocation) (v : Value) :
    (e.finishInvocation s i v).engine.outlook = e.outlook := by
  unfold finishInvocation
  dsimp only
  split
  · exact outlook_modifyNode e i.serial fun _ => rfl
  · rfl

theorem outlook_invoke (i : Invocation) : (e.invoke s i).engine.outlook = e.outlook := by
  unfold invoke
  dsimp only
  split
  · rfl
  · exact outlook_failInvocation _ s i _

theorem outlook_awaitFor (i : Invocation) (w : Wait) (k : Except Raised w.Reply → Script) :
    (e.awaitFor s i w k).engine.outlook = e.outlook := by
  cases w with
  | pull | checkpoint => rfl
  | advance =>
    simp only [awaitFor]
    split <;> rfl
  | sleep seconds =>
    simp only [awaitFor]
    split
    · rfl
    · next hsleep =>
      obtain ⟨rfl, due, rfl⟩ := Scheduler.sleep_eq_ok hsleep
      rfl

theorem program_perform (i : Invocation) (sc : Scope) (q : Query) : (e.perform i sc q).engine.program = e.program := by
  cases q with
  | keep key c => exact program_modifyNode e i.serial fun _ => ⟨rfl, rfl, rfl, rfl⟩
  | _ => rfl

/-- A behaviour that asks for nothing leaves the outlook as it is. -/
theorem outlook_behave (i : Invocation) {script : Script} (hedit : ∀ c k, script ≠ .edit c k)
    (hask : ∀ q k, script ≠ .ask q k) : (e.behave s i script).engine.outlook = e.outlook := by
  cases script with
  | finish v => exact outlook_finishInvocation e s i v
  | fail err => exact outlook_failInvocation e s i err
  | again state =>
    simp only [behave]
    split
    · rfl
    · exact outlook_failInvocation e s i _
  | ask q k => exact absurd rfl (hask q k)
  | edit c k => exact absurd rfl (hedit c k)
  | wait w k => exact outlook_awaitFor e s i w k

theorem outlook_walk (agenda : List String) : (e.walk s agenda).engine.outlook = e.outlook := by
  unfold walk
  repeat' split
  all_goals rfl

theorem outlook_continueFrom (i : Invocation) (v : Value) (rest : List String) :
    (e.continueFrom s i v rest).engine.outlook = e.outlook := by
  unfold continueFrom
  dsimp only
  split
  · split
    · rfl
    · exact outlook_report e s.scope i _
  · rfl
  · rfl

theorem outlook_pullInput (node port : String) : (e.pullInput s node port).engine.outlook = e.outlook := by
  unfold pullInput
  repeat' split
  all_goals rfl

theorem outlook_pullOutput (node port : String) : (e.pullOutput s node port).engine.outlook = e.outlook := by
  unfold pullOutput runForOutput
  dsimp only
  repeat' split
  all_goals rfl

/-- A trigger that sets up no node leaves the outlook as it is. -/
theorem outlook_startTrigger (node : String) {origin : Origin} (horigin : origin ≠ .arm) (port : Option String)
    (seeds : Dict) : (e.startTrigger s node origin port seeds).engine.outlook = e.outlook := by
  cases hrun : e.running with
  | false =>
    rw [startTrigger_refused hrun]
    rfl
  | true =>
    have harmed : e.freshScope.2.armed node origin = (.ok (), e.freshScope.2) := by
      unfold armed
      rw [if_neg (by simpa using horigin)]
    rw [startTrigger_eq e s node origin port seeds hrun, harmed]
    rfl

theorem program_startTrigger (node : String) (origin : Origin) (port : Option String) (seeds : Dict) :
    (e.startTrigger s node origin port seeds).engine.program = e.program := by
  cases hrun : e.running with
  | false =>
    rw [startTrigger_refused hrun]
    rfl
  | true =>
    have harmed : (e.freshScope.2.armed node origin).2.program = e.program := by
      unfold armed
      split
      · split
        · rfl
        · exact program_disarm _ _
      · rfl
    rw [startTrigger_eq e s node origin port seeds hrun]
    generalize e.freshScope.2.armed node origin = x at harmed ⊢
    obtain ⟨_ | _, e₁⟩ := x <;> exact harmed

/-! ## Runs and requests -/

theorem outlook_armNext (rest starts : List String) (results : List TriggerResult) :
    (e.armNext s rest starts results).engine.outlook = e.outlook := by
  cases rest with
  | cons node rest => rfl
  | nil => exact (outlook_gather _ (e.spawnStarts starts).1 s.id).trans (outlook_spawnStarts starts e)

theorem outlook_startRun : (e.startRun s).engine.outlook = e.outlook := by
  unfold startRun
  split
  · rfl
  · exact (outlook_armNext _ s _ _ _).trans (outlook_beginRun e)

theorem outlook_step : (e.step s).engine.outlook = e.outlook := by
  unfold step
  split
  · rfl
  · next hnext =>
    obtain ⟨rest, rfl | ⟨-, rfl⟩⟩ := nextStep_eq_ok hnext
    · rfl
    · exact outlook_beginRun e

theorem outlook_join (results : List TriggerResult) : (e.join s results).engine.outlook = e.outlook := by
  unfold join
  split
  · rfl
  · exact outlook_gather e e.inFlight s.id

theorem outlook_tick (n : Nat) : (e.tick s n).engine.outlook = e.outlook := by
  cases n <;> rfl

theorem outlook_answerRequest (result : Except Raised Response) :
    (e.answerRequest s result).engine.outlook = e.outlook := by
  unfold answerRequest nextRequest
  dsimp only
  split <;> rfl

theorem outlook_request {r : Request} (h : ∀ c, r ≠ .command c) : (e.request s r).engine.outlook = e.outlook := by
  cases r with
  | command c => exact absurd rfl (h c)
  | run | refused | startRun | pull => rfl
  | step => exact outlook_step e s
  | runNode id =>
    show (if e.running then e else e.beginRun).outlook = e.outlook
    split
    · rfl
    · exact outlook_beginRun e
  | join => exact outlook_join e s []
  | waitRun name =>
    simp only [request, waitRun]
    split
    · rfl
    · split
      · rfl
      · rfl
      · exact outlook_onDone e _ _
  | tick n => exact outlook_tick e s n
  | advance ms =>
    simp only [request, pass]
    repeat' split
    all_goals rfl

/-! ## Turns -/

theorem outlook_back (f : Frame) (r : Result) : (e.back s f r).engine.outlook = e.outlook := by
  unfold back
  split
  · unfold resumeBehavior
    split <;> rfl
  · exact outlook_continueFrom e s _ _ _
  · rfl
  · exact outlook_modifyNode e _ fun _ => rfl
  · rfl
  · rfl
  · rfl
  · exact outlook_armNext e s _ _ _
  · exact outlook_armNext e s _ _ _
  · rfl
  · rfl
  · split <;> rfl
  · rfl
  · exact outlook_join e s _
  · exact outlook_join e s _
  · rfl
  · exact outlook_tick e s _
  · rfl
  · exact outlook_completeTask e _ _
  · exact outlook_answerRequest e s _

theorem outlook_raise (f : Frame) (err : Raised) : (e.raise s f err).engine.outlook = e.outlook := by
  unfold raise
  split
  · rfl
  · rfl
  · rfl
  · split <;> rfl
  · exact outlook_completeTask e _ _
  · exact outlook_answerRequest e s _
  · rfl

/-- A turn leaves the outlook as it is, unless it carries out a command, sets up a node or answers a behaviour. -/
theorem outlook_turn {sig : Signal} (h : ∀ c, ¬sig.Carries c)
    (harm : ∀ node port seeds, sig ≠ .call (.trigger node .arm port seeds))
    (hask : ∀ i q k, sig ≠ .call (.behave i (.ask q k))) : (e.turn s sig).engine.outlook = e.outlook := by
  obtain ⟨id, sc, frames⟩ := s
  cases sig with
  | call c =>
    cases c with
    | trigger node origin port seeds =>
      exact outlook_startTrigger e _ node (fun heq => harm node port seeds (by rw [heq])) port seeds
    | walk agenda => exact outlook_walk e _ agenda
    | invoke i => exact outlook_invoke e _ i
    | behave i script =>
      exact outlook_behave e _ i (fun c k heq => h c (.inr ⟨i, k, by rw [heq]⟩)) fun q k heq => hask i q k (by rw [heq])
    | input node port => exact outlook_pullInput e _ node port
    | output node port => exact outlook_pullOutput e _ node port
    | run => exact outlook_startRun e _
    | request r => exact outlook_request e _ fun c heq => h c (.inl (by rw [heq]))
  | back r =>
    cases frames with
    | nil => rfl
    | cons f fs => exact outlook_back e _ f r
  | raise err =>
    cases frames with
    | nil => rfl
    | cons f fs => exact outlook_raise e _ f err

/-- A turn leaves the program as it is, unless it carries out a command. -/
theorem program_turn {sig : Signal} (h : ∀ c, ¬sig.Carries c) : (e.turn s sig).engine.program = e.program := by
  by_cases harm : ∃ node port seeds, sig = .call (.trigger node .arm port seeds)
  · obtain ⟨node, port, seeds, rfl⟩ := harm
    exact program_startTrigger e s node .arm port seeds
  by_cases hask : ∃ i q k, sig = .call (.behave i (.ask q k))
  · obtain ⟨i, q, k, rfl⟩ := hask
    exact program_perform e i s.scope q
  exact program_of_outlook (outlook_turn e s h (fun node port seeds heq => harm ⟨node, port, seeds, heq⟩)
    fun i q k heq => hask ⟨i, q, k, heq⟩)

end Engine

/-! ## Runs -/

/-- A run in which no command is carried out has one program. -/
theorem program_run {run : Nat → Engine.Turn} {a b : Nat} (hplays : ∀ k < b, Play (run k) (run (k + 1))) (hab : a ≤ b)
    (h : ∀ k, a ≤ k → k < b → ∀ s sig, (run k).next = some (s, sig) → ∀ c, ¬sig.Carries c) :
    (run b).engine.program = (run a).engine.program := by
  induction b, hab using Nat.le_induction with
  | base => rfl
  | succ k hak ih =>
    have hstep : (run (k + 1)).engine.program = (run k).engine.program := by
      have hplay := hplays k (Nat.lt_succ_self k)
      have hk := h k hak (Nat.lt_succ_self k)
      generalize run (k + 1) = t' at hplay ⊢
      cases hplay with
      | turn hn => exact Engine.program_turn _ _ (hk _ _ hn)
      | job hn loop j => exact Engine.program_handle _ j
      | request hn r => rfl
    refine hstep.trans (ih (fun j hj => hplays j (Nat.lt_succ_of_lt hj)) fun j haj hjk => ?_)
    exact h j haj (Nat.lt_succ_of_lt hjk)

end Patchbay
