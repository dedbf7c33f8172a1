import Patchbay.Proofs.Enrolment
import Patchbay.Proofs.Launches

/-!
# Strands of editors

Intervals and listeners are set up on the strand of an editor's run or step alone: a run sets up one after the other,
and then waits for its start triggers. All other strands are those of triggers that register nothing.

Contents:
* `Engine.Heralds`: a change in which at most registrations start triggers.
* `Tally`: the nodes that a run has set up, and those that are left.
* `Editor`: the stages of an editor's request; `Role`: what a strand is there for.

Results:
* `armNext_eases`, `request_eases`: the turns of an editor that set up no node.
* `Editor.reports`: what an editor is told of the nodes that were set up.
-/

namespace Patchbay

/-! ## Triggers that registrations start -/

namespace Engine

variable {e e' e'' : Engine}

/-- Whether all strands that are new are those of triggers that registrations start from the control flow output. -/
def Heralds (e e' : Engine) : Prop :=
  ∀ x ∈ e'.strands, x ∈ e.strands ∨ ∃ (l : Launch) (m : Nat), l.port = execPort ∧ x = l.strand m

theorem Heralds.of_eq (h : e'.strands = e.strands) : e.Heralds e' := fun _ hx => .inl (h ▸ hx)

theorem Heralds.trans (h : e.Heralds e') (h' : e'.Heralds e'') : e.Heralds e'' := fun x hx =>
  (h' x hx).elim (h x) .inr

theorem heralds_fire (e : Engine) (node : String) {port : String} (hport : port = execPort) (seeds : Dict) :
    e.Heralds (e.fire node port seeds).2 := by
  unfold fire
  split
  · intro x hx
    rcases List.mem_cons.mp hx with rfl | hx
    · exact .inr ⟨⟨node, port, seeds⟩, e.nextStrand, hport, rfl⟩
    · exact .inl hx
  · exact .of_eq rfl

/-- What a registration starts. -/
theorem Proper.of_find? (h : e.Proper) {id : Nat} {r : Registration Firing} (hr : e.scheduler.find? id = some r) :
    r.kind ≠ .timer ∧ r.callback.port = execPort :=
  h (r.kind, r.callback) (List.mem_map_of_mem (List.mem_of_find?_eq_some hr))

theorem heralds_call (h : e.Proper) {id : Nat} {r : Registration Firing} (hr : e.scheduler.find? id = some r)
    (payload : Value) : e.Heralds (Scheduler.call withScheduler runFiring id payload e) := by
  rw [call_eq hr payload]
  exact heralds_fire (e.counted id) _ (h.of_find? hr).2 _

theorem heralds_dispatch (h : e.Proper) (event payload : Value) : e.Heralds (e.dispatch event payload).2 := by
  have hall : ∀ (ids : List Nat) (e : Engine), e.Proper →
      e.Heralds (Scheduler.deliver withScheduler runFiring payload e ids) := by
    intro ids
    induction ids with
    | nil => exact fun _ _ => .of_eq rfl
    | cons id rest ih =>
      intro e h
      rw [Scheduler.deliver, List.foldl_cons]
      split
      · next r hr =>
        split
        · exact ih e h
        · have hcall : (Scheduler.call withScheduler runFiring id payload e).Proper :=
            (rests_of_outlook (outlook_schedulerCall id payload e)).proper h
          exact (heralds_call h hr payload).trans (ih _ hcall)
      · exact ih e h
  unfold dispatch Scheduler.dispatch
  split
  · exact .of_eq rfl
  · exact hall _ e h

theorem heralds_expire (h : e.Proper) (id : Nat) :
    e.Heralds (Scheduler.expire withScheduler .fire runFiring id e) := by
  rcases expire_cases e id with ⟨-, heq⟩ | ⟨r, r', hr, -, hstays, heq⟩
  · rw [heq]
    exact .of_eq rfl
  · rw [heq]
    have hport : r'.callback.port = execPort := hstays.callback ▸ (h.of_find? hr).2
    have hcounted : e.Heralds (({ e with scheduler := e.scheduler.firing .fire r } : Engine).counted id) := .of_eq rfl
    exact hcounted.trans (heralds_fire _ _ hport _)

/-! ## Strands after other operations -/

theorem strands_foldl {γ : Type} {f : Engine → γ → Engine} (hf : ∀ e a, (f e a).strands = e.strands) (l : List γ)
    (e : Engine) : (l.foldl f e).strands = e.strands := by
  induction l generalizing e with
  | nil => rfl
  | cons a rest ih => exact (ih (f e a)).trans (hf e a)

theorem strands_completeTask (e : Engine) (id : Nat) (outcome : Except Raised Response) :
    (e.completeTask id outcome).strands = e.strands := by
  unfold completeTask
  split
  · rfl
  · exact strands_foldl (f := fun e (c : Callback) => e.soon (c.job id)) (fun _ _ => rfl) _ _

theorem strands_gather (e : Engine) (members : List Nat) (strand : Nat) :
    (e.gather members strand).2.strands = e.strands := by
  refine strands_foldl (fun e id => ?_) members _
  unfold onDone
  split
  · rfl
  · split <;> rfl

theorem strands_spawnStarts (starts : List String) (e : Engine) : ∀ x ∈ (e.spawnStarts starts).2.strands, x ∈ e.strands ∨
    ∃ node ∈ starts, ∃ m, x = ({ id := m, frames := [.task m] }, .turn (.call (.trigger node .start none []))) := by
  induction starts generalizing e with
  | nil => exact fun _ hx => .inl hx
  | cons node rest ih =>
    intro x hx
    rcases ih (e.spawn (.trigger node .start none [])).2 x hx with hx | ⟨other, hother, m, rfl⟩
    · rcases List.mem_cons.mp hx with rfl | hx
      · exact .inr ⟨node, List.mem_cons_self, e.nextStrand, rfl⟩
      · exact .inl hx
    · exact .inr ⟨other, List.mem_cons_of_mem _ hother, m, rfl⟩

theorem strands_stop (e : Engine) : e.stop.2.strands = e.strands := by
  unfold stop
  dsimp only
  split
  · rfl
  · refine strands_foldl (fun e n => ?_) _ _
    unfold tearDown
    split <;> rfl

/-- A plain command at most delivers an event. -/
theorem heralds_command (h : e.Proper) {c : Command} (hc : c.isPlain = true) : e.Heralds (e.command c).2 := by
  have hcases := e.command_cases c
  generalize (e.command c).2 = e' at hcases ⊢
  cases hcases with
  | addNode kind literals id => exact .of_eq (congrArg Prod.fst (Hires.roster_addNode e kind literals id))
  | removeNode id =>
    rcases removeNode_cases e id with heq | ⟨n, -, heq | ⟨-, m, g, -, heq⟩⟩
    · rw [heq]
      exact .of_eq rfl
    · rw [heq]
      exact .of_eq (strands_disarm e n)
    · rw [heq]
      exact .of_eq (strands_disarm e n)
  | addEdge x | connect x => exact .of_eq (congrArg Prod.fst (Hires.roster_addEdge e x))
  | stop => exact .of_eq (strands_stop e)
  | load text =>
    rcases load_cases e text with ⟨-, heq⟩ | heq | ⟨-, d, g, -, heq⟩
    · rw [heq]
      exact .of_eq rfl
    · rw [heq]
      exact .of_eq (strands_stop e)
    · rw [heq]
      exact .of_eq (strands_stop e)
  | dispatch event payload => exact heralds_dispatch h event payload
  | chain | retag | register | registerExpression | replaceGraph | fire => cases hc
  | _ => exact .of_eq rfl

end Engine

/-! ## Stages of a request -/

/-- Whether an editor may ask for something here: a run, a step, a plain command, or that time passes. -/
def Request.isOrdinary : Request → Bool
  | .run | .step | .join | .tick _ | .advance _ | .refused _ => true
  | .command c => c.isPlain
  | _ => false

/-- Whether a node that a trigger set up without an error has what it should have. -/
def Engine.Good (P : Past) (e : Engine) (r : TriggerResult) : Prop :=
  r.status = .ok → e.graph.HasEntry r.origin → e.Arranged (P.heard r.trigger r.origin) r.origin

/-- A trigger of a node that registers nothing tells of no node that was set up. -/
theorem Bystander.good {P : Past} {e : Engine} {outer : List Frame} {node : String} {s : Strand} {sig : Signal}
    (h : Bystander e.graph.HasEntry outer node (s, .turn sig)) (hnode : ¬e.graph.HasEntry node) (hf : s.frames = outer)
    (hended : sig.Ended) : sig.Yields node fun r => e.Good P r :=
  (h.yields hf hended).mono fun _ horigin _ _ hentry => absurd (horigin ▸ hentry) hnode

theorem Enrols.good {P : Past} {e : Engine} {outer : List Frame} {id : String} {s : Strand} {sig : Signal}
    (h : Enrols P e id outer (s, .turn sig)) (hf : s.frames = outer) (hended : sig.Ended) :
    sig.Yields id fun r => e.Good P r :=
  (h.yields hf hended).mono fun _ horigin hgood hok _ => horigin ▸ hgood hok

/-- What a run has come to: it has set up some nodes, and others are left, all intervals and listeners among them. -/
structure Tally (P : Past) (e : Engine) (results : List TriggerResult) (left : List String) : Prop where
  nodup : (results.map TriggerResult.origin ++ left).Nodup
  covers : ∀ id, e.graph.HasEntry id → id ∈ results.map TriggerResult.origin ++ left
  good : ∀ r ∈ results, e.Good P r

/-- The frames above which an editor's run or step sets up a node. -/
inductive Bench (P : Past) (e : Engine) (node : String) : List Frame → Prop
  | step : Bench P e node [.session]
  | run {rest starts : List String} {results : List TriggerResult} (hstarts : ∀ id ∈ starts, ¬e.graph.HasEntry id)
      (h : Tally P e results (node :: rest)) : Bench P e node [.arming rest starts results, .session]

/-- Whether a frame only lets time pass. -/
def Frame.Idles : Frame → Prop
  | .joining _ | .ticking _ | .advancing => True
  | _ => False

/-- Whether a signal ends something, and is not what a trigger or a run ends with. -/
def Signal.Quiet : Signal → Prop
  | .call _ => False
  | .back (.response (.trigger _)) | .back (.response (.run _)) => False
  | _ => True

/-- Whether a signal ends a request, and what it tells of nodes that were set up is so. -/
def Signal.Reports (P : Past) (e : Engine) : Signal → Prop
  | .call _ => False
  | .back (.response (.trigger r)) => e.Good P r
  | .back (.response (.run R)) => ∃ results ts, R.triggers = results ++ ts ∧ Tally P e results []
  | _ => True

theorem Signal.Quiet.ended {sig : Signal} (h : sig.Quiet) : sig.Ended := by
  cases sig with
  | call c => exact h
  | back r => trivial
  | raise err => trivial

theorem Signal.Quiet.reports {P : Past} {e : Engine} {sig : Signal} (h : sig.Quiet) : sig.Reports P e := by
  unfold Signal.Reports
  split
  · exact h
  · exact h.elim
  · exact h.elim
  · trivial

theorem Signal.Reports.ended {P : Past} {e : Engine} {sig : Signal} (h : sig.Reports P e) : sig.Ended := by
  cases sig with
  | call c => exact h
  | back r => trivial
  | raise err => trivial

theorem Signal.Yields.reports {P : Past} {e : Engine} {node : String} {sig : Signal}
    (h : sig.Yields node fun r => e.Good P r) : sig.Reports P e := by
  unfold Signal.Yields at h
  split at h
  · exact h.2
  · trivial
  · exact h.elim

/-- The stages of an editor's request. -/
inductive Editor (P : Past) (e : Engine) (x : Strand × Parked) : Prop
  | asks {r : Request} (hf : x.1.frames = [.session]) (hp : x.2 = .turn (.call (.request r)))
  | runs (hf : x.1.frames = [.session]) (hp : x.2 = .turn (.call .run))
  | idles {f : Frame} (hf : x.1.frames = [f, .session]) (hidles : f.Idles) (hp : ∀ sig, x.2 = .turn sig → sig.Ended)
  | gathers {results : List TriggerResult} (hf : x.1.frames = [.gathering results, .session])
      (h : Tally P e results []) (hp : (∃ g, x.2 = .gather g) ∨ ∃ sig, x.2 = .turn sig ∧ sig.Quiet)
  | passes {node : String} {outer : List Frame} (h : Bystander e.graph.HasEntry outer node x)
      (hbench : Bench P e node outer) (hnode : ¬e.graph.HasEntry node)
  | sets {id : String} {outer : List Frame} (h : Enrols P e id outer x) (hbench : Bench P e id outer)
      (hentry : e.graph.HasEntry id)
  | answers {sig : Signal} (hf : x.1.frames = [.session]) (hp : x.2 = .turn sig) (h : sig.Reports P e)

/-- What a strand is there for: a trigger that registers nothing, or the request of an editor. -/
inductive Role (P : Past) (e : Engine) (x : Strand × Parked) : Prop
  | stands {m : Nat} {node : String} (h : Bystander e.graph.HasEntry [.task m] node x)
  | edits (h : Editor P e x)

section Roles

variable {P P' : Past} {e e' : Engine} {x : Strand × Parked}

theorem Engine.Good.leaves {r : TriggerResult} (h : e.Good P r) (hl : Engine.Leaves r.origin e e') (hP : P.Before P') :
    e'.Good P' r := by
  intro hok hentry
  rw [Engine.hasEntry_eq hl.program] at hentry
  exact hl.arranged (fun v => hP.heard _ _ v) (h hok hentry)

theorem Tally.rests {results : List TriggerResult} {left : List String} (h : Tally P e results left) (hr : e.Rests e')
    (hP : P.Before P') : Tally P' e' results left := by
  refine ⟨h.nodup, fun id hid => h.covers id ?_, fun r hmem => (h.good r hmem).leaves (hr.leaves r.origin) hP⟩
  rw [← Engine.hasEntry_eq hr.program]
  exact hid

theorem Bench.session {id : String} {outer : List Frame} (h : Bench P e id outer) : .session ∈ outer := by
  cases h with
  | step => exact List.mem_cons_self
  | run => exact List.mem_cons_of_mem _ List.mem_cons_self

/-- What has been set up stays so while another node is set up. -/
theorem Bench.spares {id : String} {outer : List Frame} (h : Bench P e id outer) (hs : e.Spares id e') :
    Bench P e' id outer := by
  cases h with
  | step => exact .step
  | run hstarts h =>
    refine .run (Engine.hasEntry_eq hs.program ▸ hstarts)
      ⟨h.nodup, Engine.hasEntry_eq hs.program ▸ h.covers, fun r hmem => ?_⟩
    refine (h.good r hmem).leaves (hs.leaves fun heq => ?_) (.refl P)
    exact (List.nodup_append.mp h.nodup).2.2 _ (List.mem_map_of_mem hmem) id List.mem_cons_self heq

theorem Bench.rests {id : String} {outer : List Frame} (h : Bench P e id outer) (hr : e.Rests e') (hP : P.Before P') :
    Bench P' e' id outer := by
  cases h with
  | step => exact .step
  | run hstarts h => exact .run (Engine.hasEntry_eq hr.program ▸ hstarts) (h.rests hr hP)

theorem Signal.Reports.rests {sig : Signal} (h : sig.Reports P e) (hr : e.Rests e') (hP : P.Before P') :
    sig.Reports P' e' := by
  unfold Signal.Reports at h ⊢
  split
  · exact h
  · exact h.leaves (hr.leaves _) hP
  · exact h.imp fun results => Exists.imp fun ts ht => ⟨ht.1, ht.2.rests hr hP⟩
  · trivial

/-- A strand has the same role after a change of something else. -/
theorem Role.rests (h : Role P e x) (hr : e.Rests e') (hP : P.Before P')
    (hrun : e.running = true → e'.running = true) : Role P' e' x := by
  have heq := Engine.hasEntry_eq hr.program
  cases h with
  | stands h => exact .stands (heq ▸ h)
  | edits h =>
    refine .edits ?_
    cases h with
    | asks hf hp => exact .asks hf hp
    | runs hf hp => exact .runs hf hp
    | idles hf hidles hp => exact .idles hf hidles hp
    | gathers hf h hp => exact .gathers hf (h.rests hr hP) hp
    | passes h hbench hnode => exact .passes (heq ▸ h) (hbench.rests hr hP) (heq ▸ hnode)
    | @sets id outer h hbench hentry =>
      exact .sets (h.leaves (hr.leaves id) hP hrun) (hbench.rests hr hP) (heq ▸ hentry)
    | answers hf hp h => exact .answers hf hp (h.rests hr hP)

theorem Role.of_launch {l : Launch} (h : l.port = execPort) (m : Nat) : Role P e (l.strand m) := by
  refine .stands (.begins rfl rfl (fun h => nomatch h) (fun h => nomatch h) fun p hp => ?_)
  obtain rfl := Option.some.inj hp
  rw [h]
  exact List.mem_cons_self

/-- What the strand of a request has in progress at the bottom. -/
theorem Editor.session (h : Editor P e x) : .session ∈ x.1.frames := by
  cases h with
  | asks hf | runs hf | answers hf =>
    rw [hf]
    exact List.mem_cons_self
  | idles hf | gathers hf =>
    rw [hf]
    exact List.mem_cons_of_mem _ List.mem_cons_self
  | passes h hb => exact h.suffix.subset hb.session
  | sets h hb => exact h.suffix.subset hb.session

/-- What a request is answered with, about nodes that were set up, is so. -/
theorem Role.reports {s : Strand} {sig : Signal} (h : Role P e (s, .turn sig)) (hf : s.frames = [.session])
    (hended : sig.Ended) : sig.Reports P e := by
  have hbench : ∀ {node outer}, Bench P e node outer → outer <:+ s.frames → s.frames = outer := by
    intro node outer hbench hsuffix
    cases hbench with
    | step => exact hf
    | run =>
      have hlen := hsuffix.length_le
      rw [hf] at hlen
      exact absurd hlen (by simp)
  cases h with
  | stands h =>
    have hsuffix := h.suffix
    rw [hf] at hsuffix
    cases hsuffix.eq_of_length rfl
  | edits h =>
    cases h with
    | asks _ hp | runs _ hp =>
      obtain rfl := Parked.turn.inj hp
      exact hended.elim
    | idles hf' | gathers hf' =>
      rw [hf] at hf'
      cases hf'
    | passes h hb hnode => exact (h.good hnode (hbench hb h.suffix) hended).reports
    | sets h hb => exact (h.good (hbench hb h.suffix) hended).reports
    | answers _ hp h =>
      obtain rfl := Parked.turn.inj hp
      exact h

/-- What a behaviour does that a strand runs: it is modest, or that of a node that is being set up. -/
theorem Role.behaves {s : Strand} {i : Invocation} {script : Script}
    (h : Role P e (s, .turn (.call (.behave i script)))) : script.Modest ∨ (∀ c k, script ≠ .edit c k) ∧
      ∃ outer, e.graph.HasEntry i.node ∧ Bench P e i.node outer ∧
        Enrols P e i.node outer (s, .turn (.call (.behave i script))) := by
  cases h with
  | stands h => exact .inl h.behaves
  | edits h =>
    cases h with
    | asks _ hp | runs _ hp => cases hp
    | idles _ _ hp => exact (hp _ rfl).elim
    | gathers _ _ hp =>
      rcases hp with ⟨g, hp⟩ | ⟨sig, hp, hquiet⟩
      · cases hp
      · cases hp
        exact hquiet.elim
    | passes h => exact .inl h.behaves
    | @sets id outer h hbench hentry =>
      rcases h.behaves with hmodest | ⟨rfl, hedit⟩
      · exact .inl hmodest
      · exact .inr ⟨hedit, outer, hentry, hbench, h⟩
    | answers _ hp h =>
      cases hp
      exact h.ended.elim

/-- Only requests carry out commands. -/
theorem Role.carries {s : Strand} {sig : Signal} (h : Role P e (s, .turn sig)) {c : Command} (hc : sig.Carries c) :
    sig = .call (.request (.command c)) := by
  rcases hc with hc | ⟨i, k, rfl⟩
  · exact hc
  · rcases h.behaves with hmodest | ⟨hedit, -⟩
    · cases hmodest
    · exact absurd rfl (hedit c k)

/-- What is waited for ends something when it comes. -/
theorem ended_unpark (e : Engine) {p : Parked} (h : ∀ sig, p = .turn sig → sig.Ended) : (e.unpark p).1.Ended := by
  cases p with
  | turn sig => exact h sig rfl
  | sleep id => trivial
  | task id | gather id =>
    simp only [Engine.unpark]
    split <;> trivial

/-- A strand has the same role when it is taken up. -/
theorem Role.unpark {s : Strand} {p : Parked} (h : Role P e (s, p)) (e₁ : Engine) :
    Role P e (s, .turn (e₁.unpark p).1) := by
  cases h with
  | stands h => exact .stands (h.unpark e₁)
  | edits h =>
    refine .edits ?_
    cases h with
    | asks hf hp =>
      obtain rfl : p = _ := hp
      exact .asks hf rfl
    | runs hf hp =>
      obtain rfl : p = _ := hp
      exact .runs hf rfl
    | idles hf hidles hp => exact .idles hf hidles fun sig hsig => (Parked.turn.inj hsig) ▸ ended_unpark e₁ hp
    | gathers hf h hp =>
      refine .gathers hf h (.inr ⟨_, rfl, ?_⟩)
      rcases hp with ⟨g, hp⟩ | ⟨sig, hp, hquiet⟩
      · obtain rfl : p = _ := hp
        simp only [Engine.unpark]
        split <;> trivial
      · obtain rfl : p = _ := hp
        exact hquiet
    | passes h hbench hnode => exact .passes (h.unpark e₁) hbench hnode
    | sets h hbench hentry => exact .sets (h.unpark e₁) hbench hentry
    | answers hf hp h =>
      obtain rfl : p = _ := hp
      exact .answers hf rfl h

end Roles

/-! ## Turns of an editor -/

/-- Whether a turn changes nothing of what nodes have and keep, and leaves no strand without a role. -/
structure Eases (P : Past) (e : Engine) (t : Engine.Turn) : Prop where
  rests : e.Rests t.engine
  roles : e.Leads (Role P t.engine) t

section Turns

variable {P : Past} {e e' : Engine} {s s' : Strand} {sig : Signal}

theorem Eases.go (ho : e'.outlook = e.outlook) (hs : e'.strands = e.strands) (h : Editor P e' (s', .turn sig)) :
    Eases P e (e'.go s' sig) :=
  ⟨Engine.rests_of_outlook ho, .go hs (.edits h)⟩

theorem Eases.park (ho : e'.outlook = e.outlook) (hs : e'.strands = e.strands) {p : Parked} (h : Editor P e' (s', p)) :
    Eases P e ⟨e'.park s' p, none⟩ :=
  ⟨Engine.rests_of_outlook ho, .park hs ((Role.edits h).rests (Engine.rests_of_outlook rfl) (.refl P) fun h => h)⟩

/-- A change before that leaves the outlook and the strands as they were. -/
theorem Eases.from_eq {t : Engine.Turn} (h : Eases P e' t) (ho : e'.outlook = e.outlook) (hs : e'.strands = e.strands) :
    Eases P e t :=
  ⟨(Engine.rests_of_outlook ho).trans h.rests, fun x hx => (h.roles x hx).imp_left fun h => hs ▸ h⟩

/-- A trigger sets up a node, or runs a node that is no interval and no listener. -/
theorem Editor.begins {node : String} {origin : Origin} (hsingle : e.Single P node)
    (horigin : origin ≠ .arm → ¬e.graph.HasEntry node) (hbench : Bench P e node s.frames) :
    Editor P e (s, .turn (.call (.trigger node origin none []))) := by
  by_cases hentry : e.graph.HasEntry node
  · obtain rfl : origin = .arm := by
      by_contra h
      exact horigin h hentry
    exact .sets (.begins rfl rfl hsingle) hbench hentry
  · exact .passes (.begins rfl rfl (fun _ => ⟨rfl, hbench.session⟩) (fun _ => hentry) fun _ h => nomatch h) hbench hentry

/-- A run goes on: it sets up another node, or waits for its start triggers. -/
theorem armNext_eases {rest starts : List String} {results : List TriggerResult} (hsingle : ∀ id, e.Single P id)
    (hstarts : ∀ id ∈ starts, ¬e.graph.HasEntry id) (h : Tally P e results rest) (hf : s.frames = [.session]) :
    Eases P e (e.armNext s rest starts results) := by
  have hrests : e.Rests (e.armNext s rest starts results).engine :=
    Engine.rests_of_outlook (Engine.outlook_armNext e s rest starts results)
  refine ⟨hrests, ?_⟩
  cases rest with
  | cons node rest =>
    refine .go rfl (.edits (.begins (hsingle node) (fun h => absurd rfl h) ?_))
    rw [hf]
    exact .run hstarts h
  | nil =>
    intro x hx
    rcases List.mem_cons.mp hx with rfl | hx
    · exact .inr (.edits (.gathers (congrArg _ hf) (h.rests hrests (.refl P)) (.inl ⟨_, rfl⟩)))
    · replace hx : x ∈ ((e.spawnStarts starts).2.gather (e.spawnStarts starts).1 s.id).2.strands := hx
      rw [Engine.strands_gather] at hx
      rcases Engine.strands_spawnStarts starts e x hx with hx | ⟨node, hnode, m, rfl⟩
      · exact .inl hx
      · have hclear := hstarts node hnode
        rw [← Engine.hasEntry_eq hrests.program] at hclear
        exact .inr (.stands (.begins rfl rfl (fun h => nomatch h) (fun _ => hclear) fun _ h => nomatch h))

section Starts

variable (hw : e.graph.Wired Library.registry)
  (hstart : ∀ kind, Library.IsEntry kind → e.config.startKind.same (.str kind) = false)

include hw hstart in
/-- A run starts from no interval and no listener. -/
theorem clear_of_startKind {n : Node} (hn : n ∈ e.graph.nodes) (hsame : e.config.startKind.same (.str n.kind) = true) :
    ¬e.graph.HasEntry n.id := by
  rintro ⟨m, hm, hid, hentry⟩
  obtain rfl := List.inj_on_of_nodup_map hw.ids hm hn hid
  rw [hstart m.kind hentry] at hsame
  cases hsame

include hstart in
/-- A run sets up all intervals and listeners. -/
theorem mem_eventNodes (hr : e.registry = Library.registry) {id : String} (h : e.graph.HasEntry id) :
    id ∈ e.eventNodes.map Node.id := by
  obtain ⟨n, hn, rfl, hentry⟩ := h
  refine List.mem_map_of_mem (List.mem_filter.mpr ⟨hn, ?_⟩)
  have hsome : (Library.registry.find? n.kind).isSome = true := by
    rcases hentry with heq | heq <;> rw [heq] <;> decide +kernel
  obtain ⟨k, hk⟩ := Option.isSome_iff_exists.mp hsome
  obtain ⟨hmem, hid⟩ := Library.mem_of_find? hk
  simp only [Engine.isArmed, hstart n.kind hentry, hr, hk, (Library.traits_of_entry hmem (hid ▸ hentry)).1]
  rfl

include hw hstart

theorem startRun_eases (hr : e.registry = Library.registry) (hsingle : ∀ id, e.Single P id)
    (hf : s.frames = [.session]) : Eases P e (e.startRun s) := by
  unfold Engine.startRun
  split
  · exact .go rfl rfl (.answers hf rfl trivial)
  · next starts hentries =>
    have ho : (e.beginRun.emit (.runStarted (starts.map Node.id))).outlook = e.outlook := Engine.outlook_beginRun e
    have hrests := Engine.rests_of_outlook ho
    have hw' := Engine.wired_of_program hrests.program hw
    refine Eases.from_eq (armNext_eases (fun id => (hrests.leaves id).single (.refl P) (hsingle id)) ?_ ?_ hf) ho rfl
    · rw [Engine.hasEntry_eq hrests.program]
      intro id hid
      obtain ⟨n, hn, rfl⟩ := List.mem_map.mp hid
      obtain rfl : e.graph.ofKind e.config.startKind = starts := by
        unfold Engine.entryPoints at hentries
        split at hentries
        · simp only [bind, Except.bind, throw, throwThe, MonadExceptOf.throw] at hentries
          split at hentries <;> cases hentries
        · exact Except.ok.inj hentries
      obtain ⟨hmem, hsame⟩ := List.mem_filter.mp hn
      exact clear_of_startKind hw hstart hmem hsame
    · refine ⟨?_, fun id hid => ?_, fun _ h => nomatch h⟩
      · exact hw'.ids.sublist (List.filter_sublist.map _)
      · exact mem_eventNodes (e := e.beginRun.emit (.runStarted (starts.map Node.id))) hstart hr hid

theorem step_eases (hsingle : ∀ id, e.Single P id) (hf : s.frames = [.session]) : Eases P e (e.step s) := by
  unfold Engine.step
  split
  · exact .go rfl rfl (.answers hf rfl trivial)
  · next id e' hnext =>
    obtain ⟨ho, hs⟩ : e'.outlook = e.outlook ∧ e'.strands = e.strands := by
      obtain ⟨rest, rfl | ⟨-, rfl⟩⟩ := Engine.nextStep_eq_ok hnext
      · exact ⟨rfl, rfl⟩
      · exact ⟨Engine.outlook_beginRun e, rfl⟩
    have hrests := Engine.rests_of_outlook ho
    refine .go ho hs (.begins ((hrests.leaves id).single (.refl P) (hsingle id)) (fun horigin => ?_) (hf ▸ .step))
    have hw' := Engine.wired_of_program hrests.program hw
    have hconfig : e'.config = e.config := congrArg Program.config hrests.program
    split at horigin
    · next n hn =>
      split at horigin
      · next hsame =>
        have hid : n.id = id := by simpa using List.find?_some hn
        rw [← hid]
        exact clear_of_startKind hw' (hconfig ▸ hstart) (List.mem_of_find?_eq_some hn) hsame
      · exact absurd rfl horigin
    · exact absurd rfl horigin

end Starts

/-! ### Waiting -/

theorem join_eases (hf : s.frames = [.session]) (results : List TriggerResult) : Eases P e (e.join s results) := by
  unfold Engine.join
  split
  · exact .go rfl rfl (.answers hf rfl trivial)
  · exact .park (Engine.outlook_gather e e.inFlight s.id) (Engine.strands_gather e e.inFlight s.id)
      (.idles (congrArg _ hf) trivial fun _ h => nomatch h)

theorem tick_eases (hf : s.frames = [.session]) (n : Nat) : Eases P e (e.tick s n) := by
  cases n with
  | zero => exact .go rfl rfl (.answers hf rfl trivial)
  | succ n =>
    have hidles : Editor P (e.soon (.resume s.id))
        ({ s with frames := .ticking n :: s.frames }, .turn (.back .nothing)) :=
      .idles (congrArg _ hf) trivial fun sig h => Parked.turn.inj h ▸ trivial
    have hsoon : (e.soon (.resume s.id)).outlook = e.outlook := rfl
    exact .park hsoon rfl hidles

theorem pass_eases (hf : s.frames = [.session]) (ms : Value) : Eases P e (e.pass s ms) := by
  have hraise : ∀ err, Eases P e (e.go s (.raise err)) := fun err => .go rfl rfl (.answers hf rfl trivial)
  have hpark : ∀ e' : Engine, e'.outlook = e.outlook → e'.strands = e.strands →
      Eases P e ⟨e'.park { s with frames := .advancing :: s.frames } (.turn (.back .nothing)), none⟩ :=
    fun e' ho hs => .park ho hs (.idles (congrArg _ hf) trivial fun sig h => Parked.turn.inj h ▸ trivial)
  unfold Engine.pass
  dsimp only
  split
  · split
    · exact hpark (e.soon (.resume s.id)) rfl rfl
    · split
      · exact hraise _
      · exact hpark _ rfl rfl
  · exact hraise _
  · exact hraise _

/-- The strand of a request that lets time pass. -/
theorem idles_eases {f : Frame} (hf : s.frames = [f, .session]) (hidles : f.Idles) (hended : sig.Ended) :
    Eases P e (e.turn s sig) := by
  cases sig with
  | call c => exact hended.elim
  | raise err =>
    rw [Engine.turn_raise hf]
    cases f with
    | joining | ticking | advancing => exact .go rfl rfl (.answers rfl rfl trivial)
    | _ => exact hidles.elim
  | back r =>
    rw [Engine.turn_back hf]
    cases f with
    | joining results =>
      unfold Engine.back
      split <;> first
        | exact join_eases rfl _
        | contradiction
    | ticking n => exact tick_eases rfl n
    | advancing => exact .go rfl rfl (.answers rfl rfl trivial)
    | _ => exact hidles.elim

/-! ### Ends -/

/-- A request is answered, and the next one begins. -/
theorem session_eases (hf : s.frames = [.session]) (hended : sig.Ended) : Eases P e (e.turn s sig) := by
  have hanswer : ∀ (s : Strand) (result : Except Raised Response), Eases P e (e.answerRequest s result) := by
    intro s result
    unfold Engine.answerRequest Engine.nextRequest
    dsimp only
    split
    · exact ⟨Engine.rests_of_outlook rfl, .ended rfl⟩
    · exact .go rfl rfl (.asks rfl rfl)
  cases sig with
  | call c => exact hended.elim
  | back r =>
    rw [Engine.turn_back hf]
    exact hanswer _ _
  | raise err =>
    rw [Engine.turn_raise hf]
    exact hanswer _ _

/-- The start triggers of a run are over, and the run with them. -/
theorem gathers_eases {results : List TriggerResult} (hf : s.frames = [.gathering results, .session])
    (h : Tally P e results []) (hquiet : sig.Quiet) : Eases P e (e.turn s sig) := by
  cases sig with
  | call c => exact hquiet.elim
  | raise err =>
    rw [Engine.turn_raise hf]
    exact .go rfl rfl (.answers rfl rfl trivial)
  | back r =>
    rw [Engine.turn_back hf]
    unfold Engine.back
    split <;> first
      | contradiction
      | skip
    · next ts heq =>
      cases heq
      exact .go rfl rfl (.answers rfl rfl ⟨results, ts, rfl, h⟩)
    · exact .go rfl rfl (.answers rfl rfl hquiet.reports)

/-- A node was set up, or not: a step ends, a run goes on. -/
theorem yields_eases (hsingle : ∀ id, e.Single P id) {node : String} (hbench : Bench P e node s.frames)
    (h : sig.Yields node fun r => e.Good P r) : Eases P e (e.turn s sig) := by
  obtain ⟨id, sc, frames⟩ := s
  cases hbench with
  | step => exact session_eases rfl h.ended
  | @run rest starts results hstarts htally =>
    cases sig with
    | call c => exact h.elim
    | raise err => exact .go rfl rfl (.answers rfl rfl trivial)
    | back r =>
      cases r with
      | response r =>
        cases r with
        | trigger r =>
          obtain ⟨horigin, hgood⟩ := h
          have horigins : (results ++ [r]).map TriggerResult.origin ++ rest =
              results.map TriggerResult.origin ++ node :: rest := by simp [horigin]
          refine armNext_eases hsingle hstarts ⟨horigins ▸ htally.nodup, horigins ▸ htally.covers, fun x hx => ?_⟩ rfl
          rcases List.mem_append.mp hx with hx | hx
          · exact htally.good x hx
          · rw [List.mem_singleton.mp hx]
            exact hgood
        | _ => exact h.elim
      | _ => exact h.elim

/-! ### All turns -/

section Requests

variable (hw : e.graph.Wired Library.registry)
  (hstart : ∀ kind, Library.IsEntry kind → e.config.startKind.same (.str kind) = false)

include hw hstart

/-- A request other than a command begins. -/
theorem request_eases (hsingle : ∀ id, e.Single P id) (hf : s.frames = [.session]) {r : Request}
    (hordinary : r.isOrdinary = true) (hcommand : ∀ c, r ≠ .command c) : Eases P e (e.request s r) := by
  cases r with
  | command c => exact absurd rfl (hcommand c)
  | run => exact .go rfl rfl (.runs hf rfl)
  | step => exact step_eases hw hstart hsingle hf
  | join => exact join_eases hf []
  | tick n => exact tick_eases hf n
  | advance ms => exact pass_eases hf ms
  | refused err => exact .go rfl rfl (.answers hf rfl trivial)
  | runNode | pull | startRun | waitRun => cases hordinary

/-- A turn of the strand of a request, unless a node is being set up or a command is carried out. -/
theorem Editor.turn (hr : e.registry = Library.registry) (hkempt : e.Kempt)
    (hk : ∀ r ∈ e.scheduler.active none, r.event.hashable = true)
    (hplain : ∀ id, ¬e.graph.HasEntry id → e.owned id = [])
    (hsingle : (∀ i script, sig ≠ .call (.behave i script)) → ∀ id, e.Single P id)
    (hordinary : ∀ r, sig = .call (.request r) → r.isOrdinary = true) (h : Editor P e (s, .turn sig)) :
    (Eases P e (e.turn s sig) ∧ ∀ c, sig ≠ .call (.request (.command c))) ∨
      (∃ c, sig = .call (.request (.command c)) ∧ c.isPlain = true ∧ s.frames = [.session]) ∨
      ∃ id outer, e.graph.HasEntry id ∧ Bench P e id outer ∧ Enrols P e id outer (s, .turn sig) ∧
        (sig.Ended → s.frames ≠ outer) := by
  have hover : sig.Ended → Eases P e (e.turn s sig) →
      Eases P e (e.turn s sig) ∧ ∀ c, sig ≠ .call (.request (.command c)) := by
    rintro hended he
    refine ⟨he, fun c hc => ?_⟩
    rw [hc] at hended
    exact hended
  have hsingle' : sig.Ended → ∀ id, e.Single P id := fun hended => hsingle fun i script hsig => by
    rw [hsig] at hended
    exact hended
  cases h with
  | @asks r hf hp =>
    obtain rfl := Parked.turn.inj hp
    by_cases hcommand : ∃ c, r = .command c
    · obtain ⟨c, rfl⟩ := hcommand
      exact .inr (.inl ⟨c, rfl, hordinary _ rfl, hf⟩)
    · have hne : ∀ c, r ≠ .command c := fun c heq => hcommand ⟨c, heq⟩
      refine .inl ⟨request_eases hw hstart (hsingle fun _ _ h => nomatch h) hf (hordinary r rfl) hne, fun c hc => ?_⟩
      cases hc
      exact hne c rfl
  | runs hf hp =>
    obtain rfl := Parked.turn.inj hp
    exact .inl ⟨startRun_eases hw hstart hr (hsingle fun _ _ h => nomatch h) hf, fun _ h => nomatch h⟩
  | idles hf hidles hp => exact .inl (hover (hp sig rfl) (idles_eases hf hidles (hp sig rfl)))
  | gathers hf h hp =>
    rcases hp with ⟨g, hp⟩ | ⟨sig', hp, hquiet⟩
    · cases hp
    · obtain rfl := Parked.turn.inj hp
      exact .inl (hover hquiet.ended (gathers_eases hf h hquiet))
  -- what ends at the frames below the trigger belongs to the editor, everything above them to the node
  | @passes node outer h hbench hnode =>
    by_cases hend : sig.Ended ∧ s.frames = outer
    · obtain ⟨hended, rfl⟩ := hend
      exact .inl (hover hended (yields_eases (hsingle' hended) hbench (h.good hnode rfl hended)))
    · obtain ⟨hrests, hleads⟩ := h.turn hr hw hkempt hk hplain fun hended hf => hend ⟨hended, hf⟩
      have heq := Engine.hasEntry_eq hrests.program
      refine .inl ⟨⟨hrests, hleads.mono fun y hy => ?_⟩, fun c => h.ne_request _⟩
      exact .edits (.passes (heq ▸ hy.2) (hbench.rests hrests (.refl P)) (heq ▸ hnode))
  | @sets id outer h hbench hentry =>
    by_cases hend : sig.Ended ∧ s.frames = outer
    · obtain ⟨hended, rfl⟩ := hend
      exact .inl (hover hended (yields_eases (hsingle' hended) hbench (h.good rfl hended)))
    · exact .inr (.inr ⟨id, outer, hentry, hbench, h, fun hended hf => hend ⟨hended, hf⟩⟩)
  | answers hf hp h =>
    obtain rfl := Parked.turn.inj hp
    exact .inl (hover h.ended (session_eases hf h.ended))

end Requests

end Turns

end Patchbay
