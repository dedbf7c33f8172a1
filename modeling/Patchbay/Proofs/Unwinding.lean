import Patchbay.Proofs.Counting
import Patchbay.Proofs.Nesting
import Patchbay.Proofs.Rousing

/-!
# Resolutions end

A resolution takes turn after turn of its strand, and where a behaviour waits for others to have run or for time to
pass, other strands take turns. `Unwinds` says that in whatever way they do, the strand comes to an end of what it has
begun after finitely many turns of its own, as long as the program stays as it is.

Each nested resolution marks one more node of the graph, so there are only so many of them; and the behaviours that run
for them end by themselves once what they pull has ended.

Contents:
* `Script.Halts`, `Program.Halting`: behaviours that end when whatever they wait for ends.
* `Unwinds`: that what a strand has begun comes to an end.
* `Concludes`, `LeftWaiting`: what may become of it in a session that goes on.

Results:
* `Unwinds.under`: what unwinds hands its end to the frame below.
* `unwinds_behave`: a behaviour that halts unwinds, if what it pulls does.
* `unwinds_output`: a request for an output unwinds, and leaves the scope with the same outputs being resolved.
* `Unwinds.comes`: what unwinds ends in any session that goes on, unless the strand is left waiting for ever.
-/

namespace Patchbay

/-! ## Behaviours that halt -/

/-- Whether a script of a behaviour ends when whatever it waits for ends: after finitely many requests it is over,
whatever the engines that it runs in answer. -/
inductive Script.Halts (b : Behavior) : Script → Prop
  | finish (v : Value) : Halts b (.finish v)
  | fail (err : Raised) : Halts b (.fail err)
  | again {state : Value} (h : Halts b (b state)) : Halts b (.again state)
  | ask {q : Query} {k : Except Raised q.Reply → Script}
      (h : ∀ (e : Engine) (i : Invocation) (sc : Scope), Halts b (k (e.perform i sc q).reply)) : Halts b (.ask q k)
  | edit {c : Command} {k : Except Raised Answer → Script} (h : ∀ e : Engine, Halts b (k (e.command c).1)) :
      Halts b (.edit c k)
  | wait {w : Wait} {k : Except Raised w.Reply → Script} (h : ∀ r, Halts b (k r)) : Halts b (.wait w k)

/-- Whether the behaviours of the nodes that only carry data halt. -/
def Program.Halting (p : Program) : Prop :=
  ∀ k ∈ p.registry.kinds, k.dataOnly = true → ∀ b, k.behavior = some b → (b .null).Halts b

/-! ## Unwinding -/

/-- Whether a strand waits for its turn or for time to pass, and not for a task. -/
def Parked.Passing : Parked → Prop
  | .turn _ => True
  | .sleep _ => True
  | _ => False

/-- Whether what a strand has begun above some frames comes to an end of which `post` holds. Its turns follow each
other as long as they leave the program alone. Where the strand waits, others may do anything but change the program
before it is taken up. -/
inductive Unwinds (p : Program) (frames : List Frame) (post : Scope → Signal → Prop) : Engine → Strand → Signal → Prop
  | ended {e : Engine} {s : Strand} {sig : Signal} (hf : s.frames = frames) (h : sig.Ended)
      (hpost : post s.scope sig) : Unwinds p frames post e s sig
  | turn {e e' : Engine} {s s' : Strand} {sig sig' : Signal} (hb : Busy frames s sig)
      (h : e.turn s sig = e'.go s' sig') (hid : s'.id = s.id)
      (rest : e'.program = p → Unwinds p frames post e' s' sig') : Unwinds p frames post e s sig
  | pause {e e' : Engine} {s s' : Strand} {sig : Signal} {q : Parked} (hb : Busy frames s sig)
      (h : e.turn s sig = ⟨e', none⟩) (hid : s'.id = s.id) (hq : q.Passing) (hwaits : (s', q) ∈ e'.strands)
      (rest : ∀ e'' : Engine, e''.program = p → Unwinds p frames post (e''.unpark q).2 s' (e''.unpark q).1) :
      Unwinds p frames post e s sig

namespace Unwinds

variable {p : Program} {frames : List Frame} {post post' : Scope → Signal → Prop} {e e' : Engine} {s s' : Strand}
  {sig sig' : Signal}

/-- What was begun above one more frame unwinds, and its end reaches that frame. -/
theorem under {f : Frame} (h : Unwinds p (f :: frames) post e s sig)
    (hend : ∀ e' s' sig', s'.frames = f :: frames → sig'.Ended → post s'.scope sig' →
      Unwinds p frames post' e' s' sig') : Unwinds p frames post' e s sig := by
  induction h with
  | ended hf h hp => exact hend _ _ _ hf h hp
  | turn hb h hid _ ih => exact .turn (.of_cons hb.1 _) h hid ih
  | pause hb h hid hq hwaits _ ih => exact .pause (.of_cons hb.1 _) h hid hq hwaits ih

/-- A turn that begins something, and lets the strand go on. -/
theorem call {c : Call} (h : e.call s c = e'.go s' sig') (hid : s'.id = s.id)
    (rest : e'.program = p → Unwinds p s.frames post e' s' sig') : Unwinds p s.frames post e s (.call c) :=
  .turn (.call s c) h hid rest

theorem back {f : Frame} {r : Result} (hf : s.frames = f :: frames)
    (h : e.back { s with frames := frames } f r = e'.go s' sig') (hid : s'.id = s.id)
    (rest : e'.program = p → Unwinds p frames post e' s' sig') : Unwinds p frames post e s (.back r) :=
  .turn (.of_frames hf _) ((Engine.turn_back hf e r).trans h) hid rest

theorem raise {f : Frame} {err : Raised} (hf : s.frames = f :: frames)
    (h : e.raise { s with frames := frames } f err = e'.go s' sig') (hid : s'.id = s.id)
    (rest : e'.program = p → Unwinds p frames post e' s' sig') : Unwinds p frames post e s (.raise err) :=
  .turn (.of_frames hf _) ((Engine.turn_raise hf e err).trans h) hid rest

/-- A turn after which the strand waits. -/
theorem park {q : Parked} (hb : Busy frames s sig) (h : e.turn s sig = ⟨e'.park s' q, none⟩) (hid : s'.id = s.id)
    (hq : q.Passing)
    (rest : ∀ e'' : Engine, e''.program = p → Unwinds p frames post (e''.unpark q).2 s' (e''.unpark q).1) :
    Unwinds p frames post e s sig :=
  .pause hb h hid hq List.mem_cons_self rest

/-- A turn after which the strand waits for its next one. -/
theorem parkTurn (hb : Busy frames s sig) (h : e.turn s sig = ⟨e'.parkTurn s' sig', none⟩) (hid : s'.id = s.id)
    (rest : ∀ e'' : Engine, e''.program = p → Unwinds p frames post e'' s' sig') : Unwinds p frames post e s sig :=
  .pause (q := .turn sig') hb h hid trivial List.mem_cons_self rest

/-- What runs on a task of its own hands on its end after a pause. -/
theorem hop (h : Unwinds p (.hop :: frames) post e s sig) : Unwinds p frames post e s sig := by
  refine h.under fun e' s' sig' hf hs hp => ?_
  have hb : Busy frames s' sig' := .of_frames hf _
  cases sig' with
  | call c => exact hs.elim
  | back r =>
    exact .parkTurn hb (Engine.turn_back hf e' r) rfl fun e'' _ => .ended rfl hs hp
  | raise err =>
    exact .parkTurn hb (Engine.turn_raise hf e' err) rfl fun e'' _ => .ended rfl hs hp

end Unwinds

/-! ## Behaviours -/

/-- Whether a signal is the end of an invocation. -/
def Signal.EndsRun : Signal → Prop
  | .back (.invoked _ _) => True
  | .raise _ => True
  | _ => False

/-- Whether a signal is the end of a pull. -/
def Signal.EndsPull : Signal → Prop
  | .back (.pulled _ _) => True
  | .raise _ => True
  | _ => False

theorem Signal.Answers.endsPull {sig : Signal} (h : sig.Answers) : sig.EndsPull := by
  cases sig with
  | call c => exact h.elim
  | back r =>
    cases r with
    | pulled v ds => trivial
    | _ => exact h.elim
  | raise err => trivial

theorem Signal.EndsPull.ended {sig : Signal} (h : sig.EndsPull) : sig.Ended := by
  cases sig with
  | call c => exact h.elim
  | back | raise => trivial

section Resolutions

variable {p : Program} {os : List (String × String)} {e : Engine} {s : Strand} {i : Invocation}

/-- Whether a request of a strand unwinds to the end of a pull, with the same outputs being resolved. -/
abbrev UnwindsPull (p : Program) (os : List (String × String)) (e : Engine) (s : Strand) (c : Call) : Prop :=
  Unwinds p s.frames (fun sc sig => sc.Lists os ∧ sig.EndsPull) e s (.call c)

/-- Whether a call of a strand unwinds to the end of an invocation, with the same outputs being resolved. -/
abbrev UnwindsRun (p : Program) (os : List (String × String)) (e : Engine) (s : Strand) (c : Call) : Prop :=
  Unwinds p s.frames (fun sc sig => sc.Lists os ∧ sig.EndsRun) e s (.call c)

/-- An error ends an invocation. -/
theorem unwinds_failInvocation {c : Call} {e' : Engine} {err : Raised} (h : e.call s c = e'.failInvocation s i err)
    (hs : s.scope.Lists os) : UnwindsRun p os e s c := by
  rw [Engine.failInvocation_eq] at h
  split at h
  · exact .call h rfl fun _ => .ended rfl trivial ⟨hs, trivial⟩
  · exact .call h rfl fun _ => .ended rfl trivial ⟨hs, trivial⟩

/-- A behaviour that halts unwinds, if what it pulls does. -/
theorem unwinds_behave {node : String} {b : Behavior}
    (hpull : ∀ (e : Engine) (s : Strand) (port : String), e.program = p → s.scope.Lists os →
      UnwindsPull p os e s (.input node port))
    {script : Script} (hscript : script.Halts b) (hp : e.program = p) (hnode : i.node = node)
    (hb : i.kind.behavior = some b) (hflow : ∀ port, i.kind.execOutput port = none) (hs : s.scope.Lists os) :
    UnwindsRun p os e s (.behave i script) := by
  -- by induction on the script: each answer leads to a part of it, and a pull comes back by assumption
  induction hscript generalizing e s i with
  | finish v => exact .call rfl rfl fun _ => .ended rfl trivial ⟨hs.of_eq rfl rfl, trivial⟩
  | fail err => exact unwinds_failInvocation rfl hs
  | @again state _ ih =>
    have heq : e.call s (.behave i (.again state)) = e.go s (.call (.behave i (b state))) := by
      simp only [Engine.call, Engine.behave, hb]
    exact .call heq rfl fun hp' => ih hp' hnode hb hflow hs
  | @ask q k _ ih =>
    refine .call rfl rfl fun hp' => ih e i s.scope (s := { s with scope := (e.perform i s.scope q).scope }) hp' ?_ ?_ ?_
      (hs.perform e i q)
    · rw [perform_node, hnode]
    · rw [perform_kind, hb]
    · rw [perform_kind]
      exact hflow
  | @edit c k _ ih => exact .call rfl rfl fun hp' => ih e hp' hnode hb hflow hs
  | @wait w k _ ih =>
    cases w with
    | pull port =>
      have hres := hpull e { s with frames := .behavior i (.pull port) k :: s.frames } port hp hs
      have heq : e.call s (.behave i (.wait (.pull port) k)) =
          e.nest s (.behavior i (.pull port) k) (.input node port) := by
        rw [← hnode]
        rfl
      refine .call heq rfl fun _ => hres.under fun e' s' sig hf _ h => ?_
      obtain ⟨hs', hend⟩ := h
      cases sig with
      | call c => exact hend.elim
      | back r =>
        cases r with
        | pulled v ds =>
          exact .back hf rfl rfl fun hp' => ih (.ok v) (s := { s' with frames := s.frames })
            (i := { i with dependencies := i.dependencies.merge ds }) hp' hnode hb hflow hs'
        | _ => exact hend.elim
      | raise err =>
        exact .raise hf rfl rfl fun hp' => ih (.error err) (s := { s' with frames := s.frames }) hp' hnode hb hflow hs'
    | advance port =>
      have heq : e.call s (.behave i (.wait (.advance port) k)) = e.go s (.call (.behave i
          (k (.error (.cause (.kindHasNoExecOutput i.kind.id port)))))) := by
        simp only [Engine.call, Engine.behave, Engine.awaitFor, hflow port]
      exact .call heq rfl fun hp' => ih _ hp' hnode hb hflow hs
    | checkpoint =>
      exact .parkTurn (.call s _) rfl rfl fun e'' _ => .back rfl rfl rfl fun hp' => ih _ hp' hnode hb hflow hs
    | sleep seconds =>
      cases hsleep : e.scheduler.sleep seconds .elapse fun _ => .resume s.id with
      | error f =>
        have heq : e.call s (.behave i (.wait (.sleep seconds) k)) = e.go s (.call (.behave i
            (k (.error (.fault f))))) := by
          simp only [Engine.call, Engine.behave, Engine.awaitFor, hsleep]
        exact .call heq rfl fun hp' => ih _ hp' hnode hb hflow hs
      | ok x =>
        have heq : e.call s (.behave i (.wait (.sleep seconds) k)) =
            ⟨{ e with scheduler := x.2 }.park { s with frames := .behavior i (.sleep seconds) k :: s.frames }
              (.sleep x.1), none⟩ := by
          simp only [Engine.call, Engine.behave, Engine.awaitFor, hsleep]
        refine .park (.call s _) heq rfl trivial fun e'' _ => ?_
        exact .back (s := { s with frames := .behavior i (.sleep seconds) k :: s.frames }) rfl rfl rfl fun hp' =>
          ih _ hp' hnode hb hflow hs

/-- The invocation of a node whose behaviour halts unwinds, if what it pulls does. -/
theorem unwinds_invoke
    (hpull : ∀ (e : Engine) (s : Strand) (port : String), e.program = p → s.scope.Lists os →
      UnwindsPull p os e s (.input i.node port))
    (hhalts : ∀ b, i.kind.behavior = some b → (b .null).Halts b) (hflow : ∀ port, i.kind.execOutput port = none)
    (hs : s.scope.Lists os) : UnwindsRun p os e s (.invoke i) := by
  cases hb : i.kind.behavior with
  | none =>
    have heq : e.call s (.invoke i) = (e.emitStarted s.scope i).failInvocation s i (.fault .type) := by
      simp only [Engine.call, Engine.invoke, hb]
    exact unwinds_failInvocation heq hs
  | some b =>
    have heq : e.call s (.invoke i) = (e.emitStarted s.scope i).go s (.call (.behave i (b .null))) := by
      simp only [Engine.call, Engine.invoke, hb]
    exact .call heq rfl fun hp' => unwinds_behave hpull (hhalts b hb) hp' rfl hb hflow hs

/-! ## Resolutions -/

/-- An input unwinds, if outputs do. -/
theorem unwinds_input (hs : s.scope.Lists os)
    (hout : ∀ node port, UnwindsPull p os e s (.output node port)) (node port : String) :
    UnwindsPull p os e s (.input node port) := by
  rcases e.pullInput_wired_or_fixed s node port with ⟨x, -, heq⟩ | ⟨r, -, heq⟩
  · exact .call heq rfl fun _ => hout x.source x.sourcePort
  · refine .call heq rfl fun _ => ?_
    cases r with
    | ok v => exact .ended rfl trivial ⟨hs, trivial⟩
    | error err => exact .ended rfl trivial ⟨hs, trivial⟩

/-- The end of an invocation reaches the output that it was for, which is then no more being resolved. -/
theorem unwinds_ran {frames : List Frame} {node port : String} {serial : Nat} {sig : Signal}
    (hf : s.frames = .output node port serial :: frames) (hs : s.scope.Lists ((node, port) :: os))
    (hnew : node ∉ os.map Prod.fst) (hend : sig.EndsRun) :
    Unwinds p frames (fun sc sig => sc.Lists os ∧ sig.EndsPull) e s sig := by
  have hleft := hs.leave hnew
  cases sig with
  | call c => exact hend.elim
  | back r =>
    cases r with
    | invoked v i =>
      refine .back hf rfl rfl fun _ => ?_
      have hends : (Engine.outputResult (((s.scope.leave node).withOutputs node
          (Engine.mergedOutputs i.kind (s.scope.outputsOf node) v)).cache node i.dependencies) node port
          i.dependencies).EndsPull := (Signal.answers_outputResult _ _ _ _).endsPull
      exact .ended rfl hends.ended ⟨hleft.of_eq rfl rfl, hends⟩
    | _ => exact hend.elim
  | raise err => exact .raise hf rfl rfl fun _ => .ended rfl trivial ⟨hleft, trivial⟩

/-- A node runs for one of its outputs, if what it pulls unwinds. -/
theorem unwinds_runForOutput (hshaped : ∀ k ∈ p.registry.kinds, k.Shaped) (hhalting : p.Halting) (hp : e.program = p)
    (hs : s.scope.Lists os) {node port : String} {n : Node} {k : Kind Behavior}
    (hidle : s.scope.isResolving node = false) (hn : e.nodeWithKind node = .ok (n, k)) (hd : k.dataOnly = true)
    (heq : e.call s (.output node port) = e.runForOutput s n k port)
    (hpull : ∀ (e : Engine) (s : Strand) (q : String), e.program = p → s.scope.Lists ((node, port) :: os) →
      UnwindsPull p ((node, port) :: os) e s (.input node q)) :
    UnwindsPull p os e s (.output node port) := by
  obtain rfl : n.id = node := Engine.id_of_nodeWithKind hn
  obtain ⟨m, hm, -⟩ := Engine.runs_of_nodeWithKind hp hn .pull
  have hkind := Program.mem_kinds hm
  have hreset : (s.scope.resetNode n.id).Lists os := hs.of_eq rfl rfl
  have hlists : ((s.scope.resetNode n.id).enter n.id port).Lists ((n.id, port) :: os) := hreset.enter hidle
  have hnew : n.id ∉ os.map Prod.fst := hs.notMem_of_idle hidle
  have hinvoke (e' : Engine) (s' : Strand) (hs' : s'.scope.Lists ((n.id, port) :: os)) :
      UnwindsRun p ((n.id, port) :: os) e' s'
        (.invoke { serial := n.serial, node := n.id, kind := k, mode := .pull }) :=
    unwinds_invoke hpull (hhalting k hkind hd) ((hshaped k hkind).execOutput hd) hs'
  have hcases := e.runForOutput_cases s n k port
  generalize e.runForOutput s n k port = t at hcases heq
  cases hcases with
  | hops =>
    -- the run has a task of its own, and waits before and after it
    refine .parkTurn (.call s _) heq rfl fun e' _ => ?_
    have hrun := hinvoke e' ⟨s.id, _, .hop :: .output n.id port n.serial :: s.frames⟩ hlists
    exact hrun.hop.under fun _ _ _ hf _ h => unwinds_ran hf h.1 hnew h.2
  | nests =>
    refine .call heq rfl fun _ => ?_
    have hrun := hinvoke e ⟨s.id, _, .output n.id port n.serial :: s.frames⟩ hlists
    exact hrun.under fun _ _ _ hf _ h => unwinds_ran hf h.1 hnew h.2

/-- A request for an output unwinds. Each nested one marks a further node of the graph. -/
theorem unwinds_output (hshaped : ∀ k ∈ p.registry.kinds, k.Shaped) (hhalting : p.Halting) :
    ∀ (os : List (String × String)) (e : Engine) (s : Strand) (node port : String), e.program = p →
      s.scope.Lists os → UnwindsPull p os e s (.output node port) := by
  intro os
  induction h : p.unvisited os.reverse using Nat.strong_induction_on generalizing os with
  | _ d ih =>
    intro e s node port hp hs
    have hrequested := e.requested hp hshaped s node port
    generalize ht : e.pullOutput s node port = t at hrequested
    cases hrequested with
    | answered hanswers => exact .call ht rfl fun _ => .ended rfl hanswers.endsPull.ended ⟨hs, hanswers.endsPull⟩
    | circular => exact .call ht rfl fun _ => .ended rfl trivial ⟨hs, trivial⟩
    | deep => exact .call ht rfl fun _ => .ended rfl trivial ⟨hs, trivial⟩
    | runs hc hidle _ hn hd =>
      have hfewer : p.unvisited ((node, port) :: os).reverse < d := by
        rw [List.reverse_cons, ← h]
        refine Program.unvisited_append_lt port hc.hasNode (List.any_eq_false.mpr fun o ho hnode => ?_)
        exact hs.notMem_of_idle hidle (List.mem_map.mpr ⟨o, List.mem_reverse.mp ho, beq_iff_eq.mp hnode⟩)
      refine unwinds_runForOutput hshaped hhalting hp hs hidle hn hd ht fun e' s' q hp' hs' => ?_
      exact unwinds_input hs' (fun node' port' => ih _ hfewer _ rfl e' s' node' port' hp' hs') node q

end Resolutions

/-! ## Sessions that go on -/

/-- Whether the strand of a trigger that is busy above some frames at a step first comes to an end of that at a later
one. -/
structure Concludes (run : Nat → Engine.Turn) (T k l : Nat) (base : List Frame) (s : Strand) (sig : Signal) :
    Prop where
  le : k ≤ l
  ends : (run l).next = some (s, sig)
  trigger : s.scope.trigger = T
  frames : s.frames = base
  ended : sig.Ended
  first : ∀ m, k ≤ m → m < l → ∀ s' sig', (run m).next = some (s', sig') → s'.scope.trigger = T →
    s'.frames = base → ¬sig'.Ended

/-- Whether a strand waits for its turn or for time to pass from a step on, for as long as the session goes on, though
the loop has a job that takes it up. -/
def LeftWaiting (run : Nat → Engine.Turn) (l id : Nat) : Prop :=
  ∃ x : Strand × Parked, x.1.id = id ∧ x.2.Passing ∧
    ∀ m, l ≤ m → x ∈ (run m).engine.strands ∧ (run m).engine.scheduler.Rouses x

section Sessions

variable {p : Program} {frames : List Frame} {post : Scope → Signal → Prop} {run : Nat → Engine.Turn} {T : Nat}

/-- A session that goes on is in order at every moment. -/
theorem orderly_onward (hopens : Opens (run 0)) (hbeats : ∀ k, Beat (run k) (run (k + 1))) (k : Nat) :
    ∃ L, Orderly (fun _ _ => 0) L (run k) :=
  orderly_run hopens (fun j _ => (hbeats j).play) le_rfl

theorem Concludes.earlier {j k l : Nat} {s : Strand} {sig : Signal} (h : Concludes run T k l frames s sig)
    (hjk : j ≤ k)
    (hbusy : ∀ m, j ≤ m → m < k → ∀ s' sig', (run m).next = some (s', sig') → s'.scope.trigger = T →
      s'.frames = frames → ¬sig'.Ended) : Concludes run T j l frames s sig := by
  refine ⟨hjk.trans h.le, h.ends, h.trigger, h.frames, h.ended, fun m hjm hml => ?_⟩
  by_cases hmk : m < k
  · exact hbusy m hjm hmk
  · exact h.first m (Nat.le_of_not_lt hmk) hml

/-- A strand that is busy stays inside its trigger. -/
theorem Busy.heir {lo : Nat → Dependency → Nat} {L : Ledger} {t : Engine.Turn} {s : Strand} {sig : Signal}
    (hb : Busy frames s sig) (h : Staffed t) (hL : Orderly lo L t) (hn : t.next = some (s, sig))
    (hinside : ¬∀ f ∈ frames, f.Outer) :
    ∃ x ∈ (t.engine.turn s sig).population, x.1.id = s.id ∧ x.1.scope.trigger = s.scope.trigger ∧
      ¬∀ f ∈ x.1.frames, f.Outer := by
  have hbelow : frames <:+ sig.below s.frames := Signal.suffix_below hb.1 fun hended heq => hb.2 ⟨heq, hended⟩
  obtain ⟨x, hx, hid, htrigger, hsuffix, -⟩ :=
    h.heir hL hn fun hout => hinside fun f hf => hout f (hbelow.subset hf)
  exact ⟨x, hx, hid, htrigger, fun hout => hinside fun f hf => hout f ((hbelow.trans hsuffix).subset hf)⟩

/-- A strand that waits before a step and not after it is taken up. -/
theorem Beat.unparks {t t' : Engine.Turn} (h : Staffed t) (hb : Beat t t') {x : Strand × Parked}
    (hx : x ∈ t.engine.strands) (hgone : x ∉ t'.engine.strands) :
    ∃ e : Engine, t' = (e.unpark x.2).2.go x.1 (e.unpark x.2).1 := by
  rcases hb.track h (Staffed.mem_population hx) with ⟨sig, hn, -, -⟩ | ⟨-, hx', -⟩ | ⟨e, -, -, -, ht⟩
  · have hids := h.ids
    rw [Engine.Turn.population_of_next hn, List.map_cons, List.nodup_cons] at hids
    exact absurd (List.mem_map_of_mem hx) hids.1
  · obtain ⟨e', next⟩ := t'
    cases next with
    | none => exact absurd (population_of_none (t := ⟨e', none⟩) rfl ▸ hx') hgone
    | some y =>
      rw [Engine.Turn.population_of_next (t := ⟨e', some y⟩) rfl] at hx'
      rw [(List.mem_cons.mp hx').resolve_right hgone]
      exact ⟨e', rfl⟩
  · exact ⟨e, ht⟩

theorem Engine.program_unpark (e : Engine) (q : Parked) : (e.unpark q).2.program = e.program := by
  cases q with
  | turn | sleep => rfl
  | task | gather =>
    simp only [Engine.unpark]
    split <;> rfl

/-- A strand that waits does so for as long as the session goes on, or until it is taken up. -/
theorem waits_or_unparks (hopens : Opens (run 0)) (hbeats : ∀ k, Beat (run k) (run (k + 1))) {k : Nat}
    {x : Strand × Parked} (hx : x ∈ (run k).engine.strands) :
    (∀ m, k ≤ m → x ∈ (run m).engine.strands) ∨
      ∃ m, k ≤ m ∧ (∀ i, k ≤ i → i ≤ m → x ∈ (run i).engine.strands) ∧
        ∃ e : Engine, run (m + 1) = (e.unpark x.2).2.go x.1 (e.unpark x.2).1 := by
  by_cases hall : ∀ m, k ≤ m → x ∈ (run m).engine.strands
  · exact .inl hall
  · classical
    have hgone : ∃ d, x ∉ (run (k + d)).engine.strands := by
      push Not at hall
      obtain ⟨m, hkm, hm⟩ := hall
      exact ⟨m - k, by rwa [Nat.add_sub_cancel' hkm]⟩
    have hwaits : ∀ d < Nat.find hgone, x ∈ (run (k + d)).engine.strands :=
      fun d hd => not_not.mp (Nat.find_min hgone hd)
    obtain ⟨d, hd⟩ := Nat.exists_eq_add_one_of_ne_zero fun hzero : Nat.find hgone = 0 =>
      absurd hx (by simpa [hzero] using Nat.find_spec hgone)
    refine .inr ⟨k + d, Nat.le_add_right k d, fun i hki him => ?_, ?_⟩
    · have hi := hwaits (i - k) (by omega)
      rwa [Nat.add_sub_cancel' hki] at hi
    · have hspec := Nat.find_spec hgone
      rw [hd] at hspec
      exact (hbeats (k + d)).unparks (staffed_run hopens (fun j _ => hbeats j) le_rfl) (hwaits d (by omega)) hspec

/-- What unwinds comes to its end in any session that goes on and leaves the program alone, unless the strand is left
waiting. -/
theorem Unwinds.comes {e : Engine} {s : Strand} {sig : Signal} (h : Unwinds p frames post e s sig)
    (hopens : Opens (run 0)) (hbeats : ∀ k, Beat (run k) (run (k + 1)))
    (hprogram : ∀ k, (run k).Hosts T → (run k).engine.program = p) (hinside : ¬∀ f ∈ frames, f.Outer)
    {k : Nat} (hrun : run k = e.go s sig) (hT : s.scope.trigger = T) :
    (∃ l s' sig', Concludes run T k l frames s' sig' ∧ post s'.scope sig') ∨
      ∃ l, k ≤ l ∧ LeftWaiting run l s.id := by
  have hstaffed (k : Nat) : Staffed (run k) := staffed_run hopens (fun j _ => hbeats j) le_rfl
  -- a turn is followed by the next one at once; a pause, once the strand is roused, if it ever is
  induction h generalizing k with
  | @ended e s sig hf h hpost =>
    exact .inl ⟨k, s, sig, ⟨le_rfl, by rw [hrun]; rfl, hT, hf, h, fun m hkm hmk => absurd hkm (by omega)⟩, hpost⟩
  | @turn e e' s s' sig sig' hb h hid _ ih =>
    have hn : (run k).next = some (s, sig) := by rw [hrun]; rfl
    obtain ⟨L, hL⟩ := orderly_onward hopens hbeats k
    obtain ⟨x, hx, hxid, hxT, hxin⟩ := hb.heir (hstaffed k) hL hn hinside
    have hnext : run (k + 1) = e'.go s' sig' := by
      rw [(hbeats k).play.eq_turn hn, hrun]
      exact h
    rw [← (hbeats k).play.eq_turn hn] at hx
    have hmem : (s', .turn sig') ∈ (run (k + 1)).population := Engine.Turn.mem_population_of_next (by rw [hnext]; rfl)
    obtain rfl := (hstaffed (k + 1)).unique hx hmem (hxid.trans hid.symm)
    have hp : e'.program = p := by
      have hp := hprogram (k + 1) ⟨_, hmem, hxT.trans hT, hxin⟩
      rwa [hnext] at hp
    rcases ih hp hnext (hxT.trans hT) with ⟨l, s₁, sig₁, hends, hpost⟩ | ⟨l, hkl, hleft⟩
    · refine .inl ⟨l, s₁, sig₁, hends.earlier (Nat.le_succ k) fun m hkm hmk s₂ sig₂ hn₂ _ hf hended => ?_, hpost⟩
      obtain rfl : m = k := by omega
      obtain ⟨rfl, rfl⟩ := Prod.mk.inj (Option.some.inj (hn.symm.trans hn₂))
      exact hb.2 ⟨hf, hended⟩
    · exact .inr ⟨l, (Nat.le_succ k).trans hkl, hid ▸ hleft⟩
  | @pause e e' s s' sig q hb h hid hq hwaits _ ih =>
    have hn : (run k).next = some (s, sig) := by rw [hrun]; rfl
    obtain ⟨L, hL⟩ := orderly_onward hopens hbeats k
    obtain ⟨x, hx, hxid, hxT, hxin⟩ := hb.heir (hstaffed k) hL hn hinside
    have hnext : run (k + 1) = ⟨e', none⟩ := by
      rw [(hbeats k).play.eq_turn hn, hrun]
      exact h
    rw [← (hbeats k).play.eq_turn hn] at hx
    have hwaits' : (s', q) ∈ (run (k + 1)).engine.strands := by rwa [hnext]
    obtain rfl := (hstaffed (k + 1)).unique hx (Staffed.mem_population hwaits') (hxid.trans hid.symm)
    have hsT : s'.scope.trigger = T := hxT.trans hT
    rcases waits_or_unparks hopens hbeats hwaits' with hall | ⟨m, hkm, hwait, e'', hm⟩
    · refine .inr ⟨k + 1, Nat.le_succ k, (s', q), hid, hq, fun m hkm => ⟨hall m hkm, ?_⟩⟩
      exact roused_run hopens (fun j _ => hbeats j) le_rfl _ (hall m hkm)
    · have hmem : (s', .turn (e''.unpark q).1) ∈ (run (m + 1)).population :=
        Engine.Turn.mem_population_of_next (by rw [hm]; rfl)
      have hp : e''.program = p := by
        have hp := hprogram (m + 1) ⟨_, hmem, hsT, hxin⟩
        rw [hm] at hp
        exact (e''.program_unpark q).symm.trans hp
      rcases ih e'' hp hm hsT with ⟨l, s₁, sig₁, hends, hpost⟩ | ⟨l, hml, hleft⟩
      · refine .inl ⟨l, s₁, sig₁, hends.earlier (by omega) fun i hki him s₂ sig₂ hn₂ hT₂ hf hended => ?_, hpost⟩
        rcases Nat.eq_or_lt_of_le hki with rfl | hki
        · obtain ⟨rfl, rfl⟩ := Prod.mk.inj (Option.some.inj (hn.symm.trans hn₂))
          exact hb.2 ⟨hf, hended⟩
        · -- the strand waits, and no other one is in the trigger
          obtain ⟨L', hL'⟩ := orderly_onward hopens hbeats i
          have hT₀ : s₂.scope.trigger ≠ 0 := fun hzero => hinside fun f hmem =>
            (hL'.placed _ (Engine.Turn.mem_population_of_next hn₂)).sits.named hzero f (hf ▸ hmem)
          exact hL'.apart_of_next hn₂ hT₀ (hwait i hki (by omega)) (hsT.trans hT₂.symm)
      · exact .inr ⟨l, by omega, hid ▸ hleft⟩

end Sessions

end Patchbay
