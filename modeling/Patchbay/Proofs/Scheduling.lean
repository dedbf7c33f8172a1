import Patchbay.Proofs.Beats
import Patchbay.Proofs.Courses

/-!
# What an engine does to its scheduler

Whatever an engine does, unless a timer or an interval fires, comes to a few operations of its scheduler, one after
another: jobs and timers are added, sleeps begin and end, nodes register and cancel, and listeners hear of events.
What each of these operations keeps is kept by every turn and every command.

Contents:
* `Scheduler.Act`: one of these operations; `Scheduler.Acts`: a number of them.
* `Engine.Does`: what an engine does by such operations.
* `Engine.Wakes`: whether the strands that an engine is to take up are of some sort.

Results:
* `Does.command`: commands.
* `turn_does`: every turn.
* `handle_does`: every job but the firing of a registration.
* `Beat.does`: every step.
-/

namespace Patchbay

/-- The strand that is to be taken up by a job, now or in the next one. -/
def Job.strand? : Job → Option Nat
  | .resume id => some id
  | .timeout id => some id
  | _ => none

namespace Scheduler

/-! ## Operations -/

/-- An operation of a scheduler, after which strands are to be taken up that satisfy `P`. -/
inductive Act (P : Nat → Prop) (s : Scheduler Firing Job) : Scheduler Firing Job → Prop
  | soon {j : Job} (hj : j.plain = true) (hP : ∀ id, j.strand? = some id → P id) :
      Act P s { s with loop := s.loop.soon j }
  | wait (due : Option Int) {id : Nat} (hP : P id) : Act P s { s with loop := (s.loop.addTimer due (.timeout id)).2 }
  | sleep {s' : Scheduler Firing Job} {seconds : Value} {strand id : Nat} (hP : P strand)
      (h : s.sleep seconds .elapse (fun _ => .resume strand) = .ok (id, s')) : Act P s s'
  | settle (i : Nat) (outcome : Bool) : Act P s (s.settle i outcome)
  | endSleep (i : Nat) : Act P s (s.endSleep i).2
  | callLater (owner : String) (delay : Value) (port : String) :
      Act P s (s.callLater .fire owner delay ⟨owner, port, .nothing⟩).2
  | every (owner : String) (seconds : Value) (port : String) :
      Act P s (s.every .fire owner seconds ⟨owner, port, .tick⟩).2
  | listen (owner : String) (event : Value) (port : String) : Act P s (s.listen owner event ⟨owner, port, .payload⟩).2
  | cancel (id : Nat) : Act P s (s.cancel id).2
  /-- a listener hears of an event -/
  | hear {event : Value} {ids : List Nat} {id : Nat} (hids : s.listenersFor event = .ok ids) (hid : id ∈ ids) :
      Act P s (s.modify id fun r => { r with fired := r.fired + 1 })

/-- A number of operations. -/
abbrev Acts (P : Nat → Prop) : Scheduler Firing Job → Scheduler Firing Job → Prop := Relation.ReflTransGen (Act P)

namespace Acts

variable {P : Nat → Prop} {s s' : Scheduler Firing Job}

/-- What every operation keeps is kept by a number of them. -/
theorem induction {I : Scheduler Firing Job → Prop} (hkeeps : ∀ s s', I s → Act P s s' → I s') (h : s.Acts P s')
    (hs : I s) : I s' := by
  induction h with
  | refl => exact hs
  | tail _ ha ih => exact hkeeps _ _ ih ha

theorem foldl {γ : Type} {f : Scheduler Firing Job → γ → Scheduler Firing Job} (hf : ∀ s a, Acts P s (f s a))
    (l : List γ) (s : Scheduler Firing Job) : s.Acts P (l.foldl f s) := by
  induction l generalizing s with
  | nil => exact .refl
  | cons a rest ih => exact (hf s a).trans (ih (f s a))

theorem cancelEach (ids : List Nat) (s : Scheduler Firing Job) : s.Acts P (s.cancelEach ids).2 := by
  induction ids generalizing s with
  | nil => exact .refl
  | cons id rest ih =>
    rw [cancelEach_cons]
    split
    · exact .head (.cancel id) (ih _)
    · exact .single (.cancel id)

theorem cancelOwner (s : Scheduler Firing Job) (owner : String) : s.Acts P (s.cancelOwner owner).2 := by
  rw [cancelOwner_eq]
  exact cancelEach _ s

theorem cancelOwners (owners : List String) (count : Nat) (s : Scheduler Firing Job) :
    s.Acts P (s.cancelOwners count owners).2 := by
  induction owners generalizing s count with
  | nil => exact .refl
  | cons owner rest ih =>
    rw [cancelOwners_cons]
    split
    · exact (cancelOwner s owner).trans (ih _ _)
    · exact cancelOwner s owner

theorem wakeAll (s : Scheduler Firing Job) : s.Acts P s.wakeAll.2 :=
  .foldl (fun _ (x : Sleeper Job) => .single (.settle x.id false)) _ s

end Acts

end Scheduler

namespace Engine

/-! ## Engines -/

/-- A change of an engine by such operations, when the strands that it starts satisfy `P`. -/
structure Does (P : Nat → Prop) (e e' : Engine) : Prop where
  nextStrand : e.nextStrand ≤ e'.nextStrand
  acts : (∀ id, e.nextStrand ≤ id → id < e'.nextStrand → P id) → e.scheduler.Acts P e'.scheduler

namespace Does

variable {P : Nat → Prop} {e e' e'' : Engine}

theorem schedule (e : Engine) {s : Scheduler Firing Job} (h : e.scheduler.Acts P s) :
    e.Does P { e with scheduler := s } := ⟨Nat.le_refl _, fun _ => h⟩

/-- A change of anything else. -/
theorem of_eq (hs : e'.scheduler = e.scheduler) (hn : e'.nextStrand = e.nextStrand) : e.Does P e' := by
  refine ⟨hn.ge, fun _ => ?_⟩
  rw [hs]

theorem refl (e : Engine) : e.Does P e := of_eq rfl rfl

theorem trans (h : e.Does P e') (h' : e'.Does P e'') : e.Does P e'' := by
  refine ⟨h.nextStrand.trans h'.nextStrand, fun hnew => ?_⟩
  have hfirst := h.acts fun id hle hlt => hnew id hle (hlt.trans_le h'.nextStrand)
  exact hfirst.trans (h'.acts fun id hle hlt => hnew id (h.nextStrand.trans hle) hlt)

/-- An operation after a change of anything else. -/
theorem from_eq (h : e'.Does P e'') (hs : e'.scheduler = e.scheduler) (hn : e'.nextStrand = e.nextStrand) :
    e.Does P e'' := (of_eq hs hn).trans h

theorem of_roster (h : Hires.roster e' = Hires.roster e) : e.Does P e' := by
  simp only [Hires.roster, Prod.mk.injEq] at h
  exact of_eq h.2.2.2.2 h.2.2.2.1

theorem foldl {γ : Type} {f : Engine → γ → Engine} (l : List γ) (hf : ∀ (e : Engine), ∀ a ∈ l, e.Does P (f e a))
    (e : Engine) : e.Does P (l.foldl f e) := by
  induction l generalizing e with
  | nil => exact .refl e
  | cons a rest ih =>
    obtain ⟨hfirst, hrest⟩ := List.forall_mem_cons.mp fun a ha e => hf e a ha
    exact (hfirst e).trans (ih (fun e a ha => hrest a ha e) _)

theorem soon (e : Engine) {j : Job} (hj : j.plain = true) (hP : ∀ id, j.strand? = some id → P id) :
    e.Does P (e.soon j) := schedule e (.single (.soon hj hP))

/-- A strand is to be taken up. -/
theorem rouse (e : Engine) {id : Nat} (hP : P id) : e.Does P (e.soon (.resume id)) :=
  soon e rfl fun _ heq => Option.some.inj heq ▸ hP

theorem callback (e : Engine) {c : Callback} (hc : ∀ id, c = .strand id → P id) (task : Nat) :
    e.Does P (e.soon (c.job task)) := by
  cases c with
  | strand id => exact rouse e (hc id rfl)
  | discard | gather => exact soon e rfl nofun

/-! ### Tasks -/

theorem startTask (e : Engine) (c : Call) (callbacks : List Callback) : e.Does P (e.startTask c callbacks).2 := by
  refine ⟨Nat.le_succ _, fun hnew => ?_⟩
  have hP : P e.nextStrand := hnew _ le_rfl (Nat.lt_succ_self _)
  exact .single (.soon (j := .resume e.nextStrand) rfl fun _ heq => Option.some.inj heq ▸ hP)

theorem spawn (e : Engine) (c : Call) : e.Does P (e.spawn c).2 := (startTask e c _).trans (.of_eq rfl rfl)

theorem spawnStarts (nodes : List String) (e : Engine) : e.Does P (e.spawnStarts nodes).2 := by
  induction nodes generalizing e with
  | nil => exact .refl e
  | cons node rest ih => exact (spawn e _).trans (ih _)

theorem completeTask (e : Engine) (id : Nat) (outcome : Except Raised Response)
    (hcallbacks : ∀ w ∈ e.tasks, ∀ strand, .strand strand ∈ w.callbacks → P strand) :
    e.Does P (e.completeTask id outcome) := by
  unfold Engine.completeTask
  split
  · exact .refl e
  · next w hw =>
    have hmem : w ∈ e.tasks := List.mem_of_find?_eq_some hw
    refine (foldl (P := P) w.callbacks (fun e c hc => callback e ?_ id) _).from_eq rfl rfl
    rintro strand rfl
    exact hcallbacks w hmem strand hc

theorem onDone (e : Engine) (id : Nat) (c : Callback) (hc : ∀ strand, c = .strand strand → P strand) :
    e.Does P (e.onDone id c) := by
  unfold Engine.onDone
  split
  · exact .refl e
  · split
    · exact callback e hc id
    · exact .of_eq rfl rfl

theorem gather (e : Engine) (members : List Nat) (strand : Nat) : e.Does P (e.gather members strand).2 :=
  (foldl (P := P) members (fun e t _ => onDone e t (.gather _) nofun) _).from_eq rfl rfl

theorem gatherDone (e : Engine) (id task : Nat) (hstrands : ∀ G ∈ e.gathers, P G.strand) :
    e.Does P (e.gatherDone id task) := by
  have hrouse : ∀ (b : Bool) (e' : Engine) (strand : Nat), P strand → e.Does P e' →
      e.Does P (if b = true then e'.soon (.resume strand) else e') := by
    intro b e' strand hP h
    cases b with
    | true => exact h.trans (rouse e' hP)
    | false => exact h
  unfold Engine.gatherDone
  split
  · exact .refl e
  · next G hG => exact hrouse _ _ _ (hstrands G (List.mem_of_find?_eq_some hG)) (.of_eq rfl rfl)

/-! ### Nodes, timers and events -/

theorem tearDown (e : Engine) (n : Node) : e.Does P (e.tearDown n) := by
  unfold Engine.tearDown
  split <;> exact .of_eq rfl rfl

theorem disarm (e : Engine) (n : Node) : e.Does P (e.disarm n).2 := by
  have hc : e.Does P { e with scheduler := (e.scheduler.cancelOwner n.id).2 } := schedule e (.cancelOwner _ _)
  unfold Engine.disarm
  split
  · next h => rw [h] at hc; exact hc
  · next h => rw [h] at hc; exact hc.trans (tearDown _ n)

theorem armed (e : Engine) (node : String) (origin : Origin) : e.Does P (e.armed node origin).2 := by
  unfold Engine.armed
  split
  · split
    · exact .refl e
    · exact disarm e _
  · exact .refl e

theorem fire (e : Engine) (node port : String) (seeds : Dict) : e.Does P (e.fire node port seeds).2 := by
  unfold Engine.fire
  split
  · exact spawn e _
  · exact .refl e

/-- A trigger that is started changes no index. -/
theorem listeners_fire (e : Engine) (node port : String) (seeds : Dict) :
    (e.fire node port seeds).2.scheduler.listeners = e.scheduler.listeners := by
  unfold Engine.fire
  split <;> rfl

theorem listenersFor_congr {s s' : Scheduler Firing Job} (h : s'.listeners = s.listeners) (event : Value) :
    s'.listenersFor event = s.listenersFor event := by
  unfold Scheduler.listenersFor
  rw [h]

/-- A listener is called. -/
theorem hear (e : Engine) {event : Value} {ids : List Nat} (hids : e.scheduler.listenersFor event = .ok ids) {id : Nat}
    (hid : id ∈ ids) (payload : Value) :
    e.Does P (Scheduler.call withScheduler Engine.runFiring id payload e) ∧
      (Scheduler.call withScheduler Engine.runFiring id payload e).scheduler.listeners = e.scheduler.listeners := by
  unfold Scheduler.call
  dsimp only
  split
  · refine ⟨.trans (schedule e (.single (.hear hids hid))) (fire _ _ _ _), ?_⟩
    exact listeners_fire _ _ _ _
  · exact ⟨.refl e, rfl⟩

theorem dispatch (e : Engine) (event payload : Value) : e.Does P (e.dispatch event payload).2 := by
  unfold Engine.dispatch Scheduler.dispatch
  split
  · exact .refl e
  · next ids hids =>
    -- the index stays as it was at the start
    have hall : ∀ (l : List Nat) (e' : Engine), (∀ id ∈ l, id ∈ ids) → e'.scheduler.listenersFor event = .ok ids →
        e'.Does P (Scheduler.deliver withScheduler runFiring payload e' l) := by
      intro l
      induction l with
      | nil => exact fun e' _ _ => .refl e'
      | cons id rest ih =>
        intro e' hl hids'
        obtain ⟨hid, hrest⟩ := List.forall_mem_cons.mp hl
        obtain ⟨hdoes, hsame⟩ := hear (P := P) e' hids' hid payload
        rw [Scheduler.deliver, List.foldl_cons]
        split
        · split
          · exact ih e' hrest hids'
          · exact hdoes.trans (ih _ hrest ((listenersFor_congr hsame event).trans hids'))
        · exact ih e' hrest hids'
    exact hall ids e (fun _ h => h) hids

/-! ### Commands -/

theorem stop (e : Engine) : e.Does P e.stop.2 := by
  have hcancel : e.Does P { e with running := false, scheduler := e.scheduler.cancelAll.2 } :=
    (schedule { e with running := false } (.cancelOwners _ _ _)).from_eq rfl rfl
  unfold Engine.stop
  dsimp only
  split
  · next h => rw [h] at hcancel; exact hcancel
  · next s h =>
    rw [h] at hcancel
    have hwake : ({ e with running := false, scheduler := s } : Engine).Does P
        { e with running := false, scheduler := s.wakeAll.2 } :=
      schedule { e with running := false, scheduler := s } (.wakeAll s)
    exact ((hcancel.trans hwake).trans (.foldl e.graph.nodes (fun e n _ => tearDown e n) _)).trans (.of_eq rfl rfl)

theorem removeNode (e : Engine) (id : String) : e.Does P (e.removeNode id).2 := by
  rcases removeNode_cases e id with h | ⟨n, -, h | ⟨-, m, g, -, h⟩⟩
  · rw [h]
    exact .refl e
  · rw [h]
    exact disarm e n
  · rw [h]
    exact (disarm e n).trans (.of_eq rfl rfl)

theorem load (e : Engine) (text : String) : e.Does P (e.load text).2 := by
  rcases load_cases e text with ⟨-, h⟩ | h | ⟨-, d, g, -, h⟩
  · rw [h]
    exact .refl e
  · rw [h]
    exact stop e
  · rw [h]
    exact (stop e).trans (.of_eq rfl rfl)

theorem command (e : Engine) (c : Command) : e.Does P (e.command c).2 := by
  have hcases := e.command_cases c
  generalize (e.command c).2 = e' at hcases ⊢
  cases hcases with
  | addNode kind literals id => exact .of_roster (Hires.roster_addNode e kind literals id)
  | removeNode id => exact removeNode e id
  | addEdge x | connect x => exact .of_roster (Hires.roster_addEdge e x)
  | chain stem kind n literals input output =>
    exact .of_roster (Hires.roster_addChain stem kind literals input output n 0 e)
  | stop => exact stop e
  | fire id port outputs => exact fire e id port _
  | dispatch event payload => exact dispatch e event payload
  | load text => exact load e text
  | _ => exact .of_eq rfl rfl

theorem perform (e : Engine) (i : Invocation) (sc : Scope) (q : Query) : e.Does P (e.perform i sc q).engine := by
  cases q with
  | every seconds port => exact schedule e (.single (.every _ _ _))
  | fireLater seconds port => exact schedule e (.single (.callLater _ _ _))
  | listen event port => exact schedule e (.single (.listen _ _ _))
  | cancelOwn => exact schedule e (.cancelOwner _ _)
  | _ => exact .of_eq rfl rfl

theorem unpark (e : Engine) (p : Parked) : e.Does P (e.unpark p).2 := by
  cases p with
  | turn sig => exact .refl e
  | sleep id => exact schedule e (.single (.endSleep id))
  | task id | gather id =>
    simp only [Engine.unpark]
    split <;> exact .refl e

end Does

end Engine

/-! ## Turns -/

section Turns

variable {P : Nat → Prop} {e : Engine} {s : Strand}

theorem failInvocation_does (e : Engine) (s : Strand) (i : Invocation) (err : Raised) :
    e.Does P (e.failInvocation s i err).engine := by
  rw [Engine.failInvocation_eq]
  split <;> exact .of_eq rfl rfl

theorem invoke_does (i : Invocation) : e.Does P (e.invoke s i).engine := by
  unfold Engine.invoke
  dsimp only
  split
  · exact .of_eq rfl rfl
  · exact (failInvocation_does (e.emitStarted s.scope i) s i _).from_eq rfl rfl

theorem parkTurn_does (e : Engine) (s : Strand) (sig : Signal) (hs : P s.id) : e.Does P (e.parkTurn s sig) :=
  (Engine.Does.rouse (e.park s (.turn sig)) hs).from_eq rfl rfl

theorem awaitFor_does (hs : P s.id) (i : Invocation) (w : Wait) (k : Except Raised w.Reply → Script) :
    e.Does P (e.awaitFor s i w k).engine := by
  cases w with
  | pull port => exact .refl e
  | advance port =>
    simp only [Engine.awaitFor]
    split <;> exact .of_eq rfl rfl
  | checkpoint => exact parkTurn_does e _ _ (by exact hs)
  | sleep seconds =>
    simp only [Engine.awaitFor]
    split
    · exact .refl e
    · next hsleep => exact (Engine.Does.schedule e (.single (.sleep hs hsleep))).trans (.of_eq rfl rfl)

theorem behave_does (hs : P s.id) (i : Invocation) (script : Script) : e.Does P (e.behave s i script).engine := by
  cases script with
  | finish v =>
    simp only [Engine.behave, Engine.finishInvocation]
    split <;> exact .of_eq rfl rfl
  | fail err => exact failInvocation_does e s i err
  | again state =>
    simp only [Engine.behave]
    split
    · exact .refl e
    · exact failInvocation_does e s i _
  | ask q k => exact .perform e i s.scope q
  | edit c k => exact .command e c
  | wait w k => exact awaitFor_does hs i w k

theorem walk_does (agenda : List String) : e.Does P (e.walk s agenda).engine := by
  unfold Engine.walk
  repeat' split
  all_goals exact .of_eq rfl rfl

theorem continueFrom_does (i : Invocation) (v : Value) (rest : List String) :
    e.Does P (e.continueFrom s i v rest).engine := by
  unfold Engine.continueFrom
  dsimp only
  repeat' split
  all_goals exact .of_eq rfl rfl

theorem startTrigger_does (node : String) (origin : Origin) (port : Option String) (seeds : Dict) :
    e.Does P (e.startTrigger s node origin port seeds).engine := by
  have hfresh : e.Does P e.freshScope.2 := .of_eq rfl rfl
  cases hrun : e.running with
  | false =>
    rw [Engine.startTrigger_refused hrun]
    exact hfresh
  | true =>
    have harmed := hfresh.trans (.armed e.freshScope.2 node origin)
    rw [Engine.startTrigger_eq e s node origin port seeds hrun]
    generalize e.freshScope.2.armed node origin = x at harmed ⊢
    obtain ⟨r, e₁⟩ := x
    cases r with
    | error err => exact harmed
    | ok u => exact harmed.trans (.of_eq rfl rfl)

theorem pullOutput_does (hs : P s.id) (node port : String) : e.Does P (e.pullOutput s node port).engine := by
  unfold Engine.pullOutput
  repeat' split
  all_goals first
    | exact .of_eq rfl rfl
    | skip
  unfold Engine.runForOutput
  dsimp only
  split
  · exact parkTurn_does e _ _ (by exact hs)
  · exact .of_eq rfl rfl

theorem armNext_does (e : Engine) (s : Strand) (rest starts : List String) (results : List TriggerResult) :
    e.Does P (e.armNext s rest starts results).engine := by
  cases rest with
  | cons node rest => exact .refl e
  | nil => exact ((Engine.Does.spawnStarts starts e).trans (.gather _ _ s.id)).trans (.of_eq rfl rfl)

theorem join_does (e : Engine) (s : Strand) (results : List TriggerResult) : e.Does P (e.join s results).engine := by
  unfold Engine.join
  split
  · exact .refl e
  · exact (Engine.Does.gather e _ s.id).trans (.of_eq rfl rfl)

theorem tick_does (hs : P s.id) (n : Nat) : e.Does P (e.tick s n).engine := by
  cases n with
  | zero => exact .refl e
  | succ n => exact parkTurn_does e _ _ (by exact hs)

theorem step_does : e.Does P (e.step s).engine := by
  unfold Engine.step
  split
  · exact .of_eq rfl rfl
  · next hnext =>
    obtain ⟨rest, rfl | ⟨-, rfl⟩⟩ := Engine.nextStep_eq_ok hnext
    · exact .of_eq rfl rfl
    · exact .of_eq rfl rfl

theorem waitRun_does (hs : P s.id) (name : String) : e.Does P (e.waitRun s name).engine := by
  unfold Engine.waitRun
  split
  · exact .refl e
  · split
    · exact .refl e
    · exact .refl e
    · exact (Engine.Does.onDone e _ (.strand s.id) fun _ heq => Callback.strand.inj heq ▸ hs).trans (.of_eq rfl rfl)

theorem pass_does (hs : P s.id) (ms : Value) : e.Does P (e.pass s ms).engine := by
  unfold Engine.pass
  dsimp only
  split
  · split
    · exact parkTurn_does e _ _ (by exact hs)
    · split
      · exact .refl e
      · next due _ => exact (Engine.Does.schedule e (.single (.wait due hs))).trans (.of_eq rfl rfl)
  · exact .refl e
  · exact .refl e

theorem startRun_does : e.Does P (e.startRun s).engine := by
  unfold Engine.startRun
  split
  · exact .refl e
  · exact (armNext_does (e.beginRun.emit _) s _ _ _).from_eq rfl rfl

theorem request_does (hs : P s.id) (r : Request) : e.Does P (e.request s r).engine := by
  cases r with
  | command c =>
    rw [Engine.request_command]
    exact .command e c
  | run => exact .refl e
  | step => exact step_does
  | runNode id =>
    simp only [Engine.request]
    split <;> exact .of_eq rfl rfl
  | pull id port => exact .of_eq rfl rfl
  | join => exact join_does e s []
  | startRun name => exact (Engine.Does.startTask e .run []).trans (.of_eq rfl rfl)
  | waitRun name => exact waitRun_does hs name
  | tick n => exact tick_does hs n
  | advance ms => exact pass_does hs ms
  | refused err => exact .refl e

theorem answerRequest_does (e : Engine) (s : Strand) (result : Except Raised Response) :
    e.Does P (e.answerRequest s result).engine := by
  unfold Engine.answerRequest Engine.nextRequest
  dsimp only
  split <;> exact .of_eq rfl rfl

theorem back_does (hs : P s.id) (hcallbacks : ∀ w ∈ e.tasks, ∀ id, .strand id ∈ w.callbacks → P id) (f : Frame)
    (r : Result) : e.Does P (e.back s f r).engine := by
  unfold Engine.back
  split
  · rw [Engine.resumeBehavior_engine]
    exact .refl e
  · exact continueFrom_does _ _ _
  · exact .refl e
  · exact .of_eq rfl rfl
  · exact .refl e
  · exact parkTurn_does e _ _ (by exact hs)
  · exact .of_eq rfl rfl
  · exact armNext_does e s _ _ _
  · exact armNext_does e s _ _ _
  · exact .refl e
  · exact .refl e
  · split <;> exact .refl e
  · exact .refl e
  · exact join_does e s _
  · exact join_does e s _
  · exact .refl e
  · exact tick_does hs _
  · exact .refl e
  · exact .completeTask e _ _ hcallbacks
  · exact answerRequest_does e s _

theorem raise_does (hs : P s.id) (hcallbacks : ∀ w ∈ e.tasks, ∀ id, .strand id ∈ w.callbacks → P id) (f : Frame)
    (err : Raised) : e.Does P (e.raise s f err).engine := by
  unfold Engine.raise
  split
  · exact .refl e
  · exact .refl e
  · exact parkTurn_does e _ _ (by exact hs)
  · split <;> exact .of_eq rfl rfl
  · exact .completeTask e _ _ hcallbacks
  · exact answerRequest_does e s _
  · exact .refl e

/-- What every turn does. -/
theorem turn_does (e : Engine) (s : Strand) (sig : Signal) (hs : P s.id)
    (hcallbacks : ∀ w ∈ e.tasks, ∀ id, .strand id ∈ w.callbacks → P id) : e.Does P (e.turn s sig).engine := by
  obtain ⟨id, sc, frames⟩ := s
  cases sig with
  | call c =>
    cases c with
    | trigger node origin port seeds => exact startTrigger_does node origin port seeds
    | walk agenda => exact walk_does agenda
    | invoke i => exact invoke_does i
    | behave i script => exact behave_does hs i script
    | input node port =>
      have heq : (e.pullInput ⟨id, sc, frames⟩ node port).engine = e := Engine.pullInput_engine node port
      exact .of_eq (congrArg Engine.scheduler heq) (congrArg Engine.nextStrand heq)
    | output node port => exact pullOutput_does hs node port
    | run => exact startRun_does
    | request r => exact request_does hs r
  | back r =>
    cases frames with
    | nil => exact .refl e
    | cons f frames => exact back_does (s := ⟨id, sc, frames⟩) hs hcallbacks f r
  | raise err =>
    cases frames with
    | nil => exact .refl e
    | cons f frames => exact raise_does (s := ⟨id, sc, frames⟩) hs hcallbacks f err

/-- What every job does, unless a registration fires. -/
theorem handle_does (e : Engine) {j : Job} (hj : ∀ id, j ≠ .fire id) (hP : ∀ id, j.strand? = some id → P id)
    (hstrands : ∀ G ∈ e.gathers, P G.strand) : e.Does P (e.handle j).engine := by
  cases j with
  | resume id =>
    simp only [Engine.handle]
    split
    · exact .refl e
    · split
      · exact (Engine.Does.unpark _ _).from_eq rfl rfl
      · exact .refl e
  | timeout id => exact .rouse e (hP id rfl)
  | fire id => exact absurd rfl (hj id)
  | elapse id => exact .schedule e (.single (.settle id true))
  | discard id => exact .of_eq rfl rfl
  | gather id task => exact .gatherDone e id task hstrands

end Turns

/-! ## Steps -/

/-- Whether the strands that an engine is to take up, now or later, satisfy `P`. -/
structure Engine.Wakes (P : Nat → Prop) (e : Engine) : Prop where
  jobs : ∀ x ∈ e.scheduler.loop.entries, ∀ id, x.2.strand? = some id → P id
  sleepers : ∀ x ∈ e.scheduler.sleepers, ∀ id, x.resume = .resume id → P id
  callbacks : ∀ w ∈ e.tasks, ∀ id, .strand id ∈ w.callbacks → P id
  gathers : ∀ G ∈ e.gathers, P G.strand

theorem Engine.wakes_any (e : Engine) : e.Wakes fun _ => True :=
  ⟨fun _ _ _ _ => trivial, fun _ _ _ _ => trivial, fun _ _ _ _ => trivial, fun _ _ => trivial⟩

/-- What a step does: only operations; or a job is taken and only operations follow; or a registration fires. -/
theorem Beat.does {P : Nat → Prop} {t t' : Engine.Turn} (hb : Beat t t') (hwakes : t.engine.Wakes P)
    (hnext : ∀ s sig, t.next = some (s, sig) → P s.id) :
    t.engine.Does P t'.engine ∨ t.next = none ∧ ∃ j loop, t.engine.scheduler.loop.Takes j loop ∧
      ((∀ id, j ≠ .fire id) ∧ (t.engine.withLoop loop).Does P t'.engine ∨
        ∃ id, j = .fire id ∧ t' = (t.engine.withLoop loop).handle (.fire id)) := by
  cases hb with
  | turn hn => exact .inl (turn_does _ _ _ (hnext _ _ hn) hwakes.callbacks)
  | request hn r => exact .inl ⟨Nat.le_succ _, fun _ => .refl⟩
  | @job hn loop j ht =>
    refine .inr ⟨hn, j, loop, ht, ?_⟩
    by_cases hfire : ∃ id, j = .fire id
    · obtain ⟨id, rfl⟩ := hfire
      exact .inr ⟨id, rfl, rfl⟩
    · have hother : ∀ id, j ≠ .fire id := fun id heq => hfire ⟨id, heq⟩
      refine .inl ⟨hother, handle_does _ hother (fun id hid => ?_) hwakes.gathers⟩
      obtain ⟨⟨handle, hperm⟩, -⟩ := ht
      exact hwakes.jobs (handle, j) (hperm.symm.subset List.mem_cons_self) id hid

end Patchbay
