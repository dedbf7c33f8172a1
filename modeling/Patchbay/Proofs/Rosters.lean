import Patchbay.Proofs.Effects
import Patchbay.Proofs.Pending
import Patchbay.Proofs.Telling

/-!
# Rosters

An engine keeps a roster: the strands that wait, the tasks that others wait for, and who waits for several of
them. Most of what happens leaves the roster alone or puts new tasks on it, each with a strand of its own. A
turn passes its strand on with the same id and what it had in progress below; only the end of a task, and what
begins to wait for tasks, does more.

Contents:
* `Engine.Hires`: a change that at most starts new tasks.
* `Heir`: what a turn leaves its strand as; `Engine.Passes`: what it does to the roster.

Results:
* `Hires.command`, `Hires.expire`: commands and timers at most start tasks.
* `turn_passes`: every turn.
-/

namespace Patchbay

namespace Engine

/-! ## New tasks -/

/-- A change that leaves the roster as it is but for new tasks and their strands. -/
structure Hires (e e' : Engine) : Prop where
  nextStrand : e.nextStrand ≤ e'.nextStrand
  strands : ∃ news, e'.strands = news ++ e.strands ∧ (news.map fun x => x.1.id).Nodup ∧
    (∀ x ∈ news, Newcomer x ∧ e.nextStrand ≤ x.1.id ∧ x.1.id < e'.nextStrand) ∧
    (e.scheduler.Sound → ∀ x ∈ news, e'.scheduler.Rouses x)
  tasks : ∃ news, e'.tasks = e.tasks ++ news ∧
    ∀ w ∈ news, e.nextStrand ≤ w.id ∧ w.id < e'.nextStrand ∧ w.outcome = none ∧ ∀ g, .gather g ∉ w.callbacks
  gathers : e'.gathers = e.gathers
  scheduler : e.scheduler.Spares e'.scheduler

namespace Hires

variable {e e' e'' : Engine}

theorem schedule (e : Engine) {s : Scheduler Firing Job} (h : e.scheduler.Spares s) :
    e.Hires { e with scheduler := s } :=
  ⟨Nat.le_refl _, ⟨[], rfl, List.nodup_nil, fun _ hx => (nomatch hx), fun _ _ hx => (nomatch hx)⟩,
    ⟨[], (List.append_nil _).symm, fun _ hx => (nomatch hx)⟩, rfl, h⟩

theorem refl (e : Engine) : e.Hires e := schedule e (.refl _)

/-- Ids of what is new, in two steps. -/
theorem nodup_append {γ : Type} {f : γ → Nat} {l l' : List γ} {a : Nat} (h : (l.map f).Nodup)
    (h' : (l'.map f).Nodup) (hlt : ∀ x ∈ l, f x < a) (hle : ∀ x ∈ l', a ≤ f x) : ((l' ++ l).map f).Nodup := by
  rw [List.map_append, List.nodup_append]
  refine ⟨h', h, fun i hi j hj heq => ?_⟩
  obtain ⟨x, hx, rfl⟩ := List.mem_map.mp hi
  obtain ⟨y, hy, rfl⟩ := List.mem_map.mp hj
  have hlty := hlt y hy
  have hlex := hle x hx
  omega

theorem trans (h : e.Hires e') (h' : e'.Hires e'') : e.Hires e'' := by
  obtain ⟨xs, hxs, hxd, hx, hxr⟩ := h.strands
  obtain ⟨ys, hys, hyd, hy, hyr⟩ := h'.strands
  obtain ⟨ws, hws, hw⟩ := h.tasks
  obtain ⟨vs, hvs, hv⟩ := h'.tasks
  refine ⟨h.nextStrand.trans h'.nextStrand, ⟨ys ++ xs, ?_, ?_, fun x hmem => ?_, fun hs x hmem => ?_⟩,
    ⟨ws ++ vs, ?_, fun w hmem => ?_⟩, h'.gathers.trans h.gathers, h.scheduler.trans h'.scheduler⟩
  · rw [hys, hxs, List.append_assoc]
  · exact nodup_append hxd hyd (fun x hmem => (hx x hmem).2.2) fun x hmem => (hy x hmem).2.1
  · rcases List.mem_append.mp hmem with hmem | hmem
    · obtain ⟨hnew, hle, hlt⟩ := hy x hmem
      exact ⟨hnew, h.nextStrand.trans hle, hlt⟩
    · obtain ⟨hnew, hle, hlt⟩ := hx x hmem
      exact ⟨hnew, hle, hlt.trans_le h'.nextStrand⟩
  · rcases List.mem_append.mp hmem with hmem | hmem
    · exact hyr (h.scheduler.sound hs) x hmem
    · exact h'.scheduler.rouses (h.scheduler.sound hs) (hxr hs x hmem)
  · rw [hvs, hws, List.append_assoc]
  · rcases List.mem_append.mp hmem with hmem | hmem
    · obtain ⟨hle, hlt, hrest⟩ := hw w hmem
      exact ⟨hle, hlt.trans_le h'.nextStrand, hrest⟩
    · obtain ⟨hle, hlt, hrest⟩ := hv w hmem
      exact ⟨h.nextStrand.trans hle, hlt, hrest⟩

/-- What an engine keeps of those who wait. -/
def roster (e : Engine) : List (Strand × Parked) × List Task × List Gather × Nat × Scheduler Firing Job :=
  (e.strands, e.tasks, e.gathers, e.nextStrand, e.scheduler)

/-- A change of anything else. -/
theorem of_eq (h : roster e' = roster e) : e.Hires e' := by
  simp only [roster, Prod.mk.injEq] at h
  obtain ⟨hs, ht, hg, hn, hsched⟩ := h
  refine ⟨hn.ge, ⟨[], hs, List.nodup_nil, fun _ hx => (nomatch hx), fun _ _ hx => (nomatch hx)⟩,
    ⟨[], ht.trans (List.append_nil _).symm, fun _ hx => (nomatch hx)⟩, hg, ?_⟩
  rw [hsched]
  exact .refl _

/-- An operation after a change of anything else. -/
theorem from_eq (h : e'.Hires e'') (heq : roster e' = roster e) : e.Hires e'' := (of_eq heq).trans h

theorem foldl {γ : Type} {f : Engine → γ → Engine} (hf : ∀ (e : Engine) (a : γ), e.Hires (f e a)) (l : List γ)
    (e : Engine) : e.Hires (l.foldl f e) := by
  induction l generalizing e with
  | nil => exact .refl e
  | cons a rest ih => exact (hf e a).trans (ih (f e a))

theorem soon (e : Engine) {j : Job} (hj : ∀ g m, j ≠ .gather g m) : e.Hires (e.soon j) :=
  schedule e (.soon _ hj)

theorem startTask (e : Engine) {c : Call} (hc : c.Outer) {callbacks : List Callback}
    (hcallbacks : ∀ g, .gather g ∉ callbacks) : e.Hires (e.startTask c callbacks).2 := by
  have hsched : e.scheduler.Spares (e.startTask c callbacks).2.scheduler := .soon _ fun _ _ => nofun
  refine ⟨Nat.le_succ _, ⟨[({ id := e.nextStrand, frames := [.task e.nextStrand] }, .turn (.call c))], rfl,
    List.nodup_singleton _, fun x hx => ?_, fun _ x hx => ?_⟩, ⟨[{ id := e.nextStrand, callbacks := callbacks }],
    rfl, fun w hw => ?_⟩, rfl, hsched⟩
  · rw [List.mem_singleton.mp hx]
    exact ⟨⟨rfl, rfl, c, hc, rfl⟩, Nat.le_refl _, Nat.lt_succ_self _⟩
  · rw [List.mem_singleton.mp hx]
    exact .inl (Loop.pending_soon_self _ _)
  · rw [List.mem_singleton.mp hw]
    exact ⟨Nat.le_refl _, Nat.lt_succ_self _, rfl, hcallbacks⟩

theorem spawn (e : Engine) {c : Call} (hc : c.Outer) : e.Hires (e.spawn c).2 :=
  (startTask e hc (by simp)).trans (.of_eq rfl)

theorem spawnStarts (nodes : List String) (e : Engine) : e.Hires (e.spawnStarts nodes).2 := by
  induction nodes generalizing e with
  | nil => exact .refl e
  | cons node rest ih => exact (spawn e (c := .trigger node .start none []) trivial).trans (ih _)

/-! ## Nodes, timers and events -/

theorem tearDown (e : Engine) (n : Node) : e.Hires (e.tearDown n) := by
  unfold Engine.tearDown
  split <;> exact .of_eq rfl

theorem disarm (e : Engine) (n : Node) : e.Hires (e.disarm n).2 := by
  have hc : e.Hires { e with scheduler := (e.scheduler.cancelOwner n.id).2 } := schedule e (.cancelOwner _ _)
  unfold Engine.disarm
  split
  · next h => rw [h] at hc; exact hc
  · next h => rw [h] at hc; exact hc.trans (tearDown _ n)

theorem armed (e : Engine) (node : String) (origin : Origin) : e.Hires (e.armed node origin).2 := by
  unfold Engine.armed
  split
  · split
    · exact .refl e
    · exact disarm e _
  · exact .refl e

theorem fire (e : Engine) (node port : String) (seeds : Dict) : e.Hires (e.fire node port seeds).2 := by
  unfold Engine.fire
  split
  · exact spawn e trivial
  · exact .refl e

theorem schedulerCall (id : Nat) (payload : Value) (e : Engine) :
    e.Hires (Scheduler.call withScheduler Engine.runFiring id payload e) := by
  unfold Scheduler.call
  dsimp only
  split
  · have hcount : e.Hires { e with
        scheduler := e.scheduler.modify id fun r => { r with fired := r.fired + 1 } } :=
      schedule e (.modify _ id fun _ => rfl)
    exact hcount.trans (fire _ _ _ _)
  · exact .refl e

theorem expire (id : Nat) (e : Engine) :
    e.Hires (Scheduler.expire withScheduler .fire Engine.runFiring id e) := by
  unfold Scheduler.expire
  dsimp only
  split
  · exact .refl e
  · split
    · exact .refl e
    · refine (schedule e ?_).trans (schedulerCall id .null _)
      split
      · exact .rearm _ _
      · exact .forget _ _

theorem dispatch (e : Engine) (event payload : Value) : e.Hires (e.dispatch event payload).2 := by
  unfold Engine.dispatch Scheduler.dispatch
  split
  · exact .refl e
  · refine .foldl (fun e id => ?_) _ e
    split
    · split
      · exact .refl e
      · exact schedulerCall id payload e
    · exact .refl e

/-! ## Commands -/

theorem stop (e : Engine) : e.Hires e.stop.2 := by
  have hcancel : e.Hires { e with running := false, scheduler := e.scheduler.cancelAll.2 } :=
    (schedule { e with running := false } (.cancelOwners _ _ _)).from_eq rfl
  unfold Engine.stop
  dsimp only
  split
  · next h => rw [h] at hcancel; exact hcancel
  · next s h =>
    rw [h] at hcancel
    have hwake : ({ e with running := false, scheduler := s } : Engine).Hires
        { e with running := false, scheduler := s.wakeAll.2 } :=
      schedule { e with running := false, scheduler := s } (.wakeAll s)
    exact ((hcancel.trans hwake).trans (.foldl tearDown e.graph.nodes _)).trans (.of_eq rfl)

theorem roster_addNode (e : Engine) (kind : String) (literals : Named) (id : Option String) :
    roster (e.addNode kind literals id).2 = roster e := by
  have hid : roster (e.nodeId id).2 = roster e := by
    unfold nodeId
    split <;> rfl
  unfold Engine.addNode
  split
  · rfl
  · dsimp only
    split
    · exact hid
    · exact hid

theorem roster_addEdge (e : Engine) (x : Edge) : roster (e.addEdge x).2 = roster e := by
  unfold Engine.addEdge
  split <;> rfl

theorem roster_addChain (stem kind : String) (literals : Named) (input output : String) (count : Nat) :
    ∀ (number : Nat) (e : Engine), roster (e.addChain stem kind literals input output number count).2 = roster e := by
  induction count with
  | zero => exact fun _ _ => rfl
  | succ count ih =>
    intro number e
    have hn := roster_addNode e kind literals (some (stem ++ toString number))
    unfold Engine.addChain
    dsimp only
    split
    · next h => rw [h] at hn; exact hn
    · next e₁ h =>
      rw [h] at hn
      have he : roster (if (number == 0) = true then (Except.ok none, e₁) else
          e₁.addEdge ⟨stem ++ toString (number - 1), output, stem ++ toString number, input⟩).2 = roster e₁ := by
        split
        · rfl
        · exact roster_addEdge e₁ _
      split
      · next h' => rw [h'] at he; exact he.trans hn
      · next h' => rw [h'] at he; exact (ih _ _).trans (he.trans hn)

theorem removeNode (e : Engine) (id : String) : e.Hires (e.removeNode id).2 := by
  rcases removeNode_cases e id with h | ⟨n, -, h | ⟨-, m, g, -, h⟩⟩
  · rw [h]
    exact .refl e
  · rw [h]
    exact disarm e n
  · rw [h]
    exact (disarm e n).trans (.of_eq rfl)

theorem load (e : Engine) (text : String) : e.Hires (e.load text).2 := by
  rcases load_cases e text with ⟨-, h⟩ | h | ⟨-, d, g, -, h⟩
  · rw [h]
    exact .refl e
  · rw [h]
    exact stop e
  · rw [h]
    exact (stop e).trans (.of_eq rfl)

/-- A command at most starts tasks. -/
theorem command (e : Engine) (c : Command) : e.Hires (e.command c).2 := by
  have hcases := e.command_cases c
  generalize (e.command c).2 = e' at hcases ⊢
  cases hcases with
  | addNode kind literals id => exact .of_eq (roster_addNode e kind literals id)
  | removeNode id => exact removeNode e id
  | addEdge x | connect x => exact .of_eq (roster_addEdge e x)
  | chain stem kind n literals input output => exact .of_eq (roster_addChain stem kind literals input output n 0 e)
  | stop => exact stop e
  | fire id port outputs => exact fire e id port _
  | dispatch event payload => exact dispatch e event payload
  | load text => exact load e text
  | _ => exact .of_eq rfl

theorem perform (e : Engine) (i : Invocation) (sc : Scope) (q : Query) : e.Hires (e.perform i sc q).engine := by
  cases q with
  | every seconds port => exact schedule e (.every _ _ _ _)
  | fireLater seconds port => exact schedule e (.callLater _ _ _ _)
  | listen event port => exact schedule e (.listen _ _ _ _)
  | cancelOwn => exact schedule e (.cancelOwner _ _)
  | _ => exact .of_eq rfl

end Hires

end Engine

/-! ## What a turn passes on -/

/-- Whether a signal raises a fault. -/
def Signal.isFault : Signal → Bool
  | .raise (.fault _) | .raise (.mute _) => true
  | _ => false

/-- Whether a strand waits to raise a fault. -/
def Parked.isFault : Parked → Bool
  | .turn sig => sig.isFault
  | _ => false

/-- What a turn leaves its strand as: with the same id, and with new frames above those that the turn leaves in
progress. A fault is raised at these frames, by turns that may raise one. -/
structure Heir (id : Nat) (base : List Frame) (faulty : Bool) (x : Strand × Parked) : Prop where
  id : x.1.id = id
  frames : ∃ pushed, x.1.frames = pushed ++ base ∧ ∀ k, .task k ∉ pushed
  fault : x.2.isFault = true → faulty = true ∧ x.1.frames = base

/-- What the turn of a strand does to the roster. The frame that the turn comes back to is `top`, and `base` are
those that it leaves in progress. -/
inductive Engine.Passes (e : Engine) (id : Nat) (top : Option Frame) (base : List Frame) (faulty : Bool) :
    Engine.Turn → Prop
  | goes {e' : Engine} {s' : Strand} {sig' : Signal} (h : e.Hires e') (hx : Heir id base faulty (s', .turn sig')) :
      Passes e id top base faulty (e'.go s' sig')
  | parks {e' : Engine} {s' : Strand} {q : Parked} (h : e.Hires e') (hx : Heir id base faulty (s', q))
      (hw : e.scheduler.Sound → e'.scheduler.Rouses (s', q)) : Passes e id top base faulty ⟨e'.park s' q, none⟩
  /-- the strand begins to wait for several tasks -/
  | gathers {e' : Engine} {s' : Strand} (members : List Nat) (h : e.Hires e')
      (hx : Heir id base faulty (s', .gather (e'.gather members id).1)) :
      Passes e id top base faulty ⟨(e'.gather members id).2.park s' (.gather (e'.gather members id).1), none⟩
  /-- the strand begins to wait for a task -/
  | awaits {s' : Strand} (task : Nat) (hx : Heir id base faulty (s', .task task)) :
      Passes e id top base faulty ⟨(e.onDone task (.strand id)).park s' (.task task), none⟩
  /-- the next request begins -/
  | asks {e' : Engine} {s' : Strand} {r : Request} (htop : top = some .session) (h : e.Hires e') (hid : s'.id = id)
      (hs : s'.frames = [.session]) : Passes e id top base faulty (e'.go s' (.call (.request r)))
  /-- the task of the strand is done -/
  | completes {task : Nat} (htop : top = some (.task task)) (outcome : Except Raised Response) :
      Passes e id top base faulty ⟨e.completeTask task outcome, none⟩
  /-- nothing is left to do -/
  | ends {e' : Engine} (htop : top = some .session ∨ top = none ∧ base = []) (h : e.Hires e') :
      Passes e id top base faulty ⟨e', none⟩

/-- The frame that a turn with a signal comes back to. -/
def Signal.top (sig : Signal) (fs : List Frame) : Option Frame :=
  match sig with
  | .call _ => none
  | _ => fs.head?

/-- The frames that a turn with a signal leaves in progress. -/
def Signal.below (sig : Signal) (fs : List Frame) : List Frame :=
  match sig with
  | .call _ => fs
  | _ => fs.tail

/-- Whether a frame is the end of a task. -/
def Frame.isTask : Frame → Bool
  | .task _ => true
  | _ => false

/-- Whether a frame is that of a behaviour, which every error goes to. -/
def Frame.catches : Frame → Bool
  | .behavior _ _ _ => true
  | _ => false

/-- Whether a turn with a signal may raise a fault. -/
def Signal.mayFault (sig : Signal) (fs : List Frame) : Bool :=
  match sig with
  | .call (.behave _ (.fail (.mute _))) => true
  | .call (.walk _) | .call (.invoke _) | .call (.behave _ _) | .back _ | .raise (.failure _) => false
  | .raise (.fault _) | .raise (.mute _) => !(fs.head?.any Frame.catches)
  | _ => true

section Turns

variable {e e' : Engine} {s : Strand} {top : Option Frame} {faulty : Bool}

namespace Engine.Passes

/-- The strand goes on where it is. -/
theorem stay {sc : Scope} {sig : Signal} (h : e.Hires e') (hsig : sig.isFault = false) :
    e.Passes s.id top s.frames faulty (e'.go { s with scope := sc } sig) := by
  refine .goes h ⟨rfl, ⟨[], rfl, fun _ hk => (nomatch hk)⟩, fun hfault => ?_⟩
  exact absurd hfault (by simp [Parked.isFault, hsig])

/-- The strand goes on where it is, with an error of any kind. -/
theorem raise {sc : Scope} {err : Raised} (h : e.Hires e') (hfaulty : faulty = true) :
    e.Passes s.id top s.frames faulty (e'.go { s with scope := sc } (.raise err)) :=
  .goes h ⟨rfl, ⟨[], rfl, fun _ hk => (nomatch hk)⟩, fun _ => ⟨hfaulty, rfl⟩⟩

/-- The strand begins something. -/
theorem nest {sc : Scope} {f : Frame} {c : Call} (h : e.Hires e') (hf : f.isTask = false) :
    e.Passes s.id top s.frames faulty (e'.nest { s with scope := sc } f c) := by
  refine .goes h ⟨rfl, ⟨[f], rfl, fun k hk => ?_⟩, fun hfault => nomatch hfault⟩
  rw [← List.mem_singleton.mp hk] at hf
  cases hf

/-- The strand waits below new frames, and not with an error. -/
theorem wait {sc : Scope} (pushed : List Frame) {q : Parked} (h : e.Hires e')
    (hpushed : pushed.any Frame.isTask = false) (hq : q.isFault = false)
    (hw : e.scheduler.Sound → e'.scheduler.Rouses ({ s with scope := sc, frames := pushed ++ s.frames }, q)) :
    e.Passes s.id top s.frames faulty ⟨e'.park { s with scope := sc, frames := pushed ++ s.frames } q, none⟩ := by
  refine .parks h ⟨rfl, ⟨pushed, rfl, fun k hk => ?_⟩, fun hfault => ?_⟩ hw
  · have htask := List.any_eq_false.mp hpushed _ hk
    exact htask rfl
  · rw [hq] at hfault
    cases hfault

/-- The strand waits for its next turn. -/
theorem pause {sc : Scope} (pushed : List Frame) {sig : Signal} (h : e.Hires e')
    (hpushed : pushed.any Frame.isTask = false) (hsig : sig.isFault = false) :
    e.Passes s.id top s.frames faulty
      ⟨e'.parkTurn { s with scope := sc, frames := pushed ++ s.frames } sig, none⟩ := by
  have hsoon : e.Hires (e'.soon (.resume s.id)) := h.trans (.soon _ fun _ _ => nofun)
  show e.Passes s.id top s.frames faulty ⟨(e'.soon (.resume s.id)).park _ (.turn sig), none⟩
  exact wait pushed hsoon hpushed hsig fun _ => .inl (Loop.pending_soon_self _ _)

/-- The strand waits for several tasks below a new frame. -/
theorem gather {f : Frame} (members : List Nat) (h : e.Hires e') (hf : f.isTask = false) :
    e.Passes s.id top s.frames faulty ⟨(e'.gather members s.id).2.park { s with frames := f :: s.frames }
      (.gather (e'.gather members s.id).1), none⟩ := by
  refine .gathers members h ⟨rfl, ⟨[f], rfl, fun k hk => ?_⟩, fun hfault => nomatch hfault⟩
  rw [← List.mem_singleton.mp hk] at hf
  cases hf

end Engine.Passes

open Engine (Hires)

/-- An invocation that ends with an error raises a fault only where the error has no text. -/
theorem failInvocation_passes (h : e.Hires e') (i : Invocation) {err : Raised}
    (hmute : ∀ f, err = .mute f → faulty = true) :
    e.Passes s.id top s.frames faulty (e'.failInvocation s i err) := by
  rw [Engine.failInvocation_eq]
  split
  · next hsilent =>
    cases err with
    | failure f => exact .stay h rfl
    | fault f => cases hsilent
    | mute f => exact .raise h (hmute f rfl)
  · exact .stay (h.trans (.of_eq rfl)) rfl

theorem invoke_passes (i : Invocation) : e.Passes s.id top s.frames faulty (e.invoke s i) := by
  unfold Engine.invoke
  dsimp only
  split
  · exact .stay (.of_eq rfl) rfl
  · exact failInvocation_passes (show e.Hires (e.emitStarted s.scope i) from .of_eq rfl) i fun _ hf => by cases hf

theorem awaitFor_passes (i : Invocation) (w : Wait) (k : Except Raised w.Reply → Script) :
    e.Passes s.id top s.frames faulty (e.awaitFor s i w k) := by
  cases w with
  | pull port => exact .nest (.refl e) rfl
  | advance port =>
    simp only [Engine.awaitFor]
    split
    · exact .stay (.refl e) rfl
    · exact .nest (.refl e) rfl
  | checkpoint => exact .pause [_] (.refl e) rfl rfl
  | sleep seconds =>
    simp only [Engine.awaitFor]
    split
    · exact .stay (.refl e) rfl
    · next hsleep =>
      exact .wait [_] (.schedule e (.sleep hsleep)) rfl rfl fun hs => hs.sleeping_sleep hsleep

theorem behave_passes (i : Invocation) (script : Script) (hmute : ∀ f, script = .fail (.mute f) → faulty = true) :
    e.Passes s.id top s.frames faulty (e.behave s i script) := by
  cases script with
  | finish v =>
    simp only [Engine.behave, Engine.finishInvocation]
    split <;> exact .stay (.of_eq rfl) rfl
  | fail err => exact failInvocation_passes (.refl e) i fun f hf => hmute f (congrArg Script.fail hf)
  | again state =>
    simp only [Engine.behave]
    split
    · exact .stay (.refl e) rfl
    · exact failInvocation_passes (.refl e) i fun _ hf => by cases hf
  | ask q k => exact .stay (.perform e i s.scope q) rfl
  | edit c k => exact .stay (.command e c) rfl
  | wait w k => exact awaitFor_passes i w k

/-- A node that is not found is a failure. -/
theorem Engine.nodeWithKind_failure {id : String} {err : Raised} (h : e.nodeWithKind id = .error err) :
    ∃ f, err = .failure f := by
  simp only [Engine.nodeWithKind, Graph.requireNode, Registry.lookup, bind, Except.bind, pure, Except.pure] at h
  cases hn : e.graph.node? id with
  | none =>
    rw [hn] at h
    exact ⟨_, (Except.error.inj h).symm⟩
  | some n =>
    rw [hn] at h
    dsimp only at h
    cases hk : e.registry.find? n.kind with
    | none =>
      rw [hk] at h
      exact ⟨_, (Except.error.inj h).symm⟩
    | some k =>
      rw [hk] at h
      cases h

theorem walk_passes (agenda : List String) : e.Passes s.id top s.frames faulty (e.walk s agenda) := by
  have hcases := e.walk_cases s agenda
  generalize e.walk s agenda = t at hcases ⊢
  cases hcases with
  | done | stopped => exact .stay (.refl e) rfl
  | unknown _ hn =>
    obtain ⟨f, rfl⟩ := Engine.nodeWithKind_failure hn
    exact .stay (.refl e) rfl
  | invokes => exact .nest (.refl e) rfl
  | passes => exact .stay (.of_eq rfl) rfl

theorem continueFrom_passes (i : Invocation) (v : Value) (rest : List String) :
    e.Passes s.id top s.frames faulty (e.continueFrom s i v rest) := by
  unfold Engine.continueFrom
  dsimp only
  split
  · split
    · exact .stay (.refl e) rfl
    · exact .stay (.of_eq rfl) rfl
  · exact .stay (.refl e) rfl
  · exact .stay (.refl e) rfl

theorem startTrigger_passes (hfaulty : faulty = true) (node : String) (origin : Origin) (port : Option String)
    (seeds : Dict) : e.Passes s.id top s.frames faulty (e.startTrigger s node origin port seeds) := by
  have hfresh : e.Hires e.freshScope.2 := .of_eq rfl
  cases hrun : e.running with
  | false =>
    have hrun' : e.freshScope.2.running = false := hrun
    simp only [Engine.startTrigger, hrun', Bool.not_false, if_true]
    exact .stay hfresh rfl
  | true =>
    have harmed := hfresh.trans (.armed e.freshScope.2 node origin)
    rw [Engine.startTrigger_eq e s node origin port seeds hrun]
    generalize e.freshScope.2.armed node origin = x at harmed ⊢
    obtain ⟨r, e₁⟩ := x
    cases r with
    | error err => exact .raise harmed hfaulty
    | ok u => exact .nest (harmed.trans (.of_eq rfl)) rfl

theorem pullInput_passes (hfaulty : faulty = true) (node port : String) :
    e.Passes s.id top s.frames faulty (e.pullInput s node port) := by
  have hliteral : ∀ (p : Port) (v : Value), e.Passes s.id top s.frames faulty (e.go s (Engine.literalResult p v)) := by
    intro p v
    unfold Engine.literalResult
    split
    · exact .stay (.refl e) rfl
    · exact .raise (.refl e) hfaulty
  have hcases := e.pullInput_cases s node port
  generalize e.pullInput s node port = t at hcases ⊢
  cases hcases with
  | unknown | portless | missing => exact .raise (.refl e) hfaulty
  | wired | null => exact .stay (.refl e) rfl
  | literal => exact hliteral _ _

theorem outputResult_passes (h : e.Hires e') (sc sc' : Scope) (node port : String) (ds : Dependencies) :
    e.Passes s.id top s.frames faulty (e'.go { s with scope := sc } (Engine.outputResult sc' node port ds)) := by
  unfold Engine.outputResult
  split
  · exact .stay h rfl
  · exact .stay h rfl

theorem pullOutput_passes (hfaulty : faulty = true) (node port : String) :
    e.Passes s.id top s.frames faulty (e.pullOutput s node port) := by
  have hcases := e.pullOutput_cases s node port
  generalize e.pullOutput s node port = t at hcases ⊢
  cases hcases with
  | unknown | portless | unpublished | circular | deep => exact .raise (.refl e) hfaulty
  | published => exact .stay (.refl e) rfl
  | current => exact outputResult_passes (.refl e) s.scope _ _ _ _
  | @runs n k =>
    have hcases := e.runForOutput_cases s n k port
    generalize e.runForOutput s n k port = t at hcases ⊢
    cases hcases with
    | hops => exact .pause [_, _] (.refl e) rfl rfl
    | nests => exact .nest (.refl e) rfl

theorem resumeBehavior_passes (i : Invocation) (w : Wait) (k : Except Raised w.Reply → Script) (r : Result) :
    e.Passes s.id top s.frames faulty (e.resumeBehavior s i w k r) := by
  unfold Engine.resumeBehavior
  split <;> exact .stay (.refl e) rfl

/-! ### Runs and requests -/

theorem armNext_passes (h : e.Hires e') (rest starts : List String) (results : List TriggerResult) :
    e.Passes s.id top s.frames faulty (e'.armNext s rest starts results) := by
  cases rest with
  | cons node rest => exact .nest h rfl
  | nil => exact .gather (e'.spawnStarts starts).1 (h.trans (.spawnStarts starts e')) rfl

theorem join_passes (results : List TriggerResult) : e.Passes s.id top s.frames faulty (e.join s results) := by
  unfold Engine.join
  split
  · exact .stay (.refl e) rfl
  · exact .gather e.inFlight (.refl e) rfl

theorem tick_passes (n : Nat) : e.Passes s.id top s.frames faulty (e.tick s n) := by
  cases n with
  | zero => exact .stay (.refl e) rfl
  | succ n => exact .pause [_] (.refl e) rfl rfl

theorem step_passes (hfaulty : faulty = true) : e.Passes s.id top s.frames faulty (e.step s) := by
  unfold Engine.step
  split
  · exact .raise (.of_eq rfl) hfaulty
  · next hnext =>
    obtain ⟨rest, rfl | ⟨-, rfl⟩⟩ := Engine.nextStep_eq_ok hnext
    · exact .stay (.of_eq rfl) rfl
    · exact .stay (.of_eq rfl) rfl

theorem waitRun_passes (hfaulty : faulty = true) (name : String) :
    e.Passes s.id top s.frames faulty (e.waitRun s name) := by
  unfold Engine.waitRun
  split
  · exact .raise (.refl e) hfaulty
  · split
    · exact .stay (.refl e) rfl
    · exact .raise (.refl e) hfaulty
    · exact .awaits _ ⟨rfl, ⟨[], rfl, fun _ hk => (nomatch hk)⟩, fun hfault => nomatch hfault⟩

theorem pass_passes (hfaulty : faulty = true) (ms : Value) : e.Passes s.id top s.frames faulty (e.pass s ms) := by
  unfold Engine.pass
  dsimp only
  split
  · split
    · exact .pause [_] (.refl e) rfl rfl
    · split
      · exact .raise (.refl e) hfaulty
      · next due _ =>
        exact .wait [_] (.schedule e (.plainTimer _ due fun _ _ => nofun)) rfl rfl
          fun _ => .inr (Loop.pending_addTimer_self _ due _)
  · exact .raise (.refl e) hfaulty
  · exact .raise (.refl e) hfaulty

theorem request_passes (hfaulty : faulty = true) (r : Request) :
    e.Passes s.id top s.frames faulty (e.request s r) := by
  cases r with
  | command c =>
    rw [Engine.request_command]
    cases (e.command c).1 with
    | ok a => exact .stay (Hires.command e c) rfl
    | error err => exact .raise (Hires.command e c) hfaulty
  | run => exact .stay (.refl e) rfl
  | step => exact step_passes hfaulty
  | runNode id =>
    simp only [Engine.request]
    split <;> exact .nest (.of_eq rfl) rfl
  | pull id port => exact .nest (.of_eq rfl) rfl
  | join => exact join_passes []
  | startRun name => exact .stay ((Hires.startTask e (c := .run) trivial (by simp)).trans (.of_eq rfl)) rfl
  | waitRun name => exact waitRun_passes hfaulty name
  | tick n => exact tick_passes n
  | advance ms => exact pass_passes hfaulty ms
  | refused err => exact .raise (.refl e) hfaulty

theorem startRun_passes (hfaulty : faulty = true) : e.Passes s.id top s.frames faulty (e.startRun s) := by
  unfold Engine.startRun
  split
  · exact .raise (.refl e) hfaulty
  · exact armNext_passes (show e.Hires (e.beginRun.emit _) from .of_eq rfl) _ _ _

theorem answerRequest_passes (result : Except Raised Response) :
    e.Passes s.id (some .session) s.frames faulty (e.answerRequest s result) := by
  unfold Engine.answerRequest Engine.nextRequest
  dsimp only
  split
  · exact .ends (.inl rfl) (.of_eq rfl)
  · exact .asks rfl (.of_eq rfl) rfl rfl

/-! ### Frames -/

theorem back_passes (f : Frame) (r : Result) : e.Passes s.id (some f) s.frames faulty (e.back s f r) := by
  unfold Engine.back
  split
  · exact resumeBehavior_passes _ _ _ _
  · exact continueFrom_passes _ _ _
  · exact .stay (.refl e) rfl
  · exact outputResult_passes (show e.Hires (e.modifyNode _ _) from .of_eq rfl) _ _ _ _ _
  · exact .stay (.refl e) rfl
  · exact .pause [] (.refl e) rfl rfl
  · exact .stay (.of_eq rfl) rfl
  · exact armNext_passes (.refl e) _ _ _
  · exact armNext_passes (.refl e) _ _ _
  · exact .stay (.refl e) rfl
  · exact .stay (.refl e) rfl
  · split
    · exact .stay (.refl e) rfl
    · exact .stay (.refl e) rfl
  · exact .stay (.refl e) rfl
  · exact join_passes _
  · exact join_passes _
  · exact .stay (.refl e) rfl
  · exact tick_passes _
  · exact .stay (.refl e) rfl
  · exact .completes rfl _
  · exact answerRequest_passes _

theorem raise_passes (f : Frame) {err : Raised}
    (hfaulty : (Signal.raise err).isFault = true → f.catches = false → faulty = true) :
    e.Passes s.id (some f) s.frames faulty (e.raise s f err) := by
  have hraise : ∀ sc, f.catches = false →
      e.Passes s.id (some f) s.frames faulty (e.go { s with scope := sc } (.raise err)) := by
    intro sc hf
    cases err with
    | failure x => exact .stay (.refl e) rfl
    | fault x => exact .raise (.refl e) (hfaulty rfl hf)
    | mute x => exact .raise (.refl e) (hfaulty rfl hf)
  unfold Engine.raise
  split
  · exact .stay (.refl e) rfl
  · exact hraise _ rfl
  · refine .parks (show e.Hires (e.soon (.resume s.id)) from .soon e fun _ _ => nofun)
      ⟨rfl, ⟨[], rfl, fun _ hk => (nomatch hk)⟩, fun hfault => ⟨hfaulty hfault rfl, rfl⟩⟩
      fun _ => .inl (Loop.pending_soon_self _ _)
  · split
    · exact .stay (.of_eq rfl) rfl
    · exact hraise s.scope rfl
  · exact .completes rfl _
  · exact answerRequest_passes _
  · next hb _ _ _ _ _ =>
    refine hraise s.scope ?_
    cases f with
    | behavior i w k => exact absurd rfl (hb i w k)
    | _ => rfl

/-- What every turn does to the roster. -/
theorem turn_passes (e : Engine) (s : Strand) (sig : Signal) :
    e.Passes s.id (sig.top s.frames) (sig.below s.frames) (sig.mayFault s.frames) (e.turn s sig) := by
  obtain ⟨id, sc, frames⟩ := s
  cases sig with
  | call c =>
    cases c with
    | trigger node origin port seeds => exact startTrigger_passes (s := ⟨id, sc, frames⟩) rfl node origin port seeds
    | walk agenda => exact walk_passes (s := ⟨id, sc, frames⟩) agenda
    | invoke i => exact invoke_passes (s := ⟨id, sc, frames⟩) i
    | behave i script =>
      refine behave_passes (s := ⟨id, sc, frames⟩) i script fun f hf => ?_
      subst hf
      rfl
    | input node port => exact pullInput_passes (s := ⟨id, sc, frames⟩) rfl node port
    | output node port => exact pullOutput_passes (s := ⟨id, sc, frames⟩) rfl node port
    | run => exact startRun_passes (s := ⟨id, sc, frames⟩) rfl
    | request r => exact request_passes (s := ⟨id, sc, frames⟩) rfl r
  | back r =>
    cases frames with
    | nil => exact .ends (.inr ⟨rfl, rfl⟩) (.refl e)
    | cons f frames => exact back_passes (s := ⟨id, sc, frames⟩) f r
  | raise err =>
    cases frames with
    | nil => exact .ends (.inr ⟨rfl, rfl⟩) (.refl e)
    | cons f frames =>
      refine raise_passes (s := ⟨id, sc, frames⟩) f fun hfault hf => ?_
      cases err with
      | failure x => cases hfault
      | fault x | mute x => simp [Signal.mayFault, hf]

end Turns

end Patchbay
