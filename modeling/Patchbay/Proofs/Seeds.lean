import Patchbay.Library.Entry
import Patchbay.Proofs.Births
import Patchbay.Proofs.Propagation
import Patchbay.Proofs.Validity

/-!
# The outputs that a trigger begins with

A trigger from an output of a node may begin with outputs of the node, such as the payload of an event. When the
node is of a kind that does not only carry data, and whose behaviour publishes nothing and ends with no outputs,
the trigger keeps them: in its scope they stay as they are, and are published no second time, whatever the trigger
and others do. So what is pulled from them is what the trigger was given, and not what another one was.

The intervals and listeners of the library are of such kinds.

Contents:
* `Script.Mute`: scripts that publish nothing; `Kind.Quiet`: kinds of such nodes.
* `Keeping`, `Holding`: whether a strand leaves the outputs of a node as they are, in its scope, above some frames or
  altogether.

Results:
* `turn_keeping`, `turn_holding`: turns of such a strand.
* `holding_run`: the outputs that a trigger begins with, all along a run.
* `pulled_run`: what is pulled from them.
* `quiet_of_interval`, `quiet_of_listener`: kinds of the library.
-/

namespace Patchbay

/-! ## Behaviours that publish nothing -/

/-- A script that publishes nothing and ends with no outputs. -/
inductive Script.Mute : Script → Prop
  | finish {v : Value} (h : ∀ es, v ≠ .dict es) : Mute (.finish v)
  | fail (err : Raised) : Mute (.fail err)
  | again (state : Value) : Mute (.again state)
  | ask {q : Query} {k : Except Raised q.Reply → Script} (hq : ∀ port v, q ≠ .memoize port v) (h : ∀ r, Mute (k r)) :
      Mute (.ask q k)
  | wait {w : Wait} {k : Except Raised w.Reply → Script} (h : ∀ r, Mute (k r)) : Mute (.wait w k)
  | edit {c : Command} {k : Except Raised Answer → Script} (h : ∀ r, Mute (k r)) : Mute (.edit c k)

/-- Whether nodes of a kind never change their outputs by themselves. -/
structure Kind.Quiet (k : Kind Behavior) : Prop where
  dataOnly : k.dataOnly = false
  mute : ∀ b, k.behavior = some b → ∀ state, (b state).Mute

/-! ## Strands -/

section Strands

variable (node : String)

/-- Whether a frame changes no outputs of a node. -/
def Frame.Abstains : Frame → Prop
  | .behavior i _ k => i.node = node → i.kind.Quiet ∧ ∀ r, (k r).Mute
  | .output m _ _ => m ≠ node
  | _ => True

/-- Whether what a strand does next changes no outputs of a node. -/
def Signal.Abstains : Signal → Prop
  | .call (.invoke i) => i.node = node → i.kind.Quiet
  | .call (.behave i script) => i.node = node → i.kind.Quiet ∧ script.Mute
  | .back (.invoked v i) => i.node = node → ∀ es, v ≠ .dict es
  | _ => True

/-- Whether what a strand does at its next turn changes no outputs of a node. -/
def Parked.Abstains : Parked → Prop
  | .turn sig => sig.Abstains node
  | _ => True

/-- Whether a scope has the outputs of a node, and their epochs, that another one has. -/
structure Scope.Agrees (sc sc' : Scope) : Prop where
  outputs : sc'.outputsOf node = sc.outputsOf node
  epochs : ∀ port, sc'.epoch node (.str port) = sc.epoch node (.str port)

/-- Whether a strand changes no outputs of a node, and has those of a scope. -/
structure Holding (sc : Scope) (x : Strand × Parked) : Prop where
  frames : ∀ f ∈ x.1.frames, f.Abstains node
  parked : x.2.Abstains node
  scope : sc.Agrees node x.1.scope

/-- Whether the frames above some others change no outputs of a node. -/
def Abstaining (base fs : List Frame) : Prop := ∃ above, fs = above ++ base ∧ ∀ f ∈ above, f.Abstains node

/-- Whether a strand changes no outputs of a node above some frames, and has those of a scope. -/
structure Keeping (base : List Frame) (sc : Scope) (x : Strand × Parked) : Prop where
  frames : Abstaining node base x.1.frames
  parked : x.2.Abstains node
  scope : sc.Agrees node x.1.scope

end Strands

variable {node : String} {sc sc' sc'' : Scope} {e e' : Engine} {s s' : Strand} {sig : Signal} {base fs : List Frame}

namespace Scope.Agrees

theorem refl (sc : Scope) : sc.Agrees node sc := ⟨rfl, fun _ => rfl⟩

theorem trans (h : sc.Agrees node sc') (h' : sc'.Agrees node sc'') : sc.Agrees node sc'' :=
  ⟨h'.outputs.trans h.outputs, fun port => (h'.epochs port).trans (h.epochs port)⟩

/-- A change of anything else. -/
theorem of_eq (ho : sc'.outputs = sc.outputs) (he : sc'.epochs = sc.epochs) : sc.Agrees node sc' := by
  refine ⟨?_, fun port => ?_⟩
  · rw [outputsOf, outputsOf, ho]
  · rw [epoch, epoch, he]

theorem publish (sc : Scope) {other : String} (hne : node ≠ other) (port v : Value) :
    sc.Agrees node (sc.publish other port v) := by
  refine ⟨?_, fun s => ?_⟩
  · rw [outputsOf_publish, if_neg hne]
  · exact epoch_publish_of_ne sc v fun h => hne h.1

theorem publishAll {other : String} (hne : node ≠ other) (es : Dict) (sc : Scope) :
    sc.Agrees node (es.foldl (fun sc x => sc.publish other x.1 x.2) sc) := by
  induction es generalizing sc with
  | nil => exact .refl sc
  | cons x rest ih => exact (publish sc hne x.1 x.2).trans (ih _)

theorem resetNode (sc : Scope) {other : String} (hne : node ≠ other) : sc.Agrees node (sc.resetNode other) := by
  refine ⟨?_, fun _ => rfl⟩
  rw [outputsOf_resetNode, if_neg hne]

theorem withOutputs (sc : Scope) {other : String} (hne : node ≠ other) (d : Dict) :
    sc.Agrees node (sc.withOutputs other d) := by
  refine ⟨?_, fun _ => rfl⟩
  rw [outputsOf_withOutputs, if_neg hne]

end Scope.Agrees

namespace Abstaining

theorem push {f : Frame} (hf : f.Abstains node) (h : Abstaining node base fs) : Abstaining node base (f :: fs) := by
  obtain ⟨above, rfl, habove⟩ := h
  exact ⟨f :: above, rfl, List.forall_mem_cons.mpr ⟨hf, habove⟩⟩

/-- The innermost frame, where it is above the others. -/
theorem pop {f : Frame} (h : Abstaining node base (f :: fs)) (hne : f :: fs ≠ base) :
    f.Abstains node ∧ Abstaining node base fs := by
  obtain ⟨above, heq, habove⟩ := h
  cases above with
  | nil => exact absurd heq hne
  | cons g above =>
    obtain ⟨rfl, rfl⟩ := List.cons.inj heq
    obtain ⟨hg, habove⟩ := List.forall_mem_cons.mp habove
    exact ⟨hg, above, rfl, habove⟩

theorem nil_iff : Abstaining node [] fs ↔ ∀ f ∈ fs, f.Abstains node := by
  simp [Abstaining]

end Abstaining

theorem holding_iff {x : Strand × Parked} : Holding node sc x ↔ Keeping node [] sc x :=
  ⟨fun h => ⟨Abstaining.nil_iff.mpr h.frames, h.parked, h.scope⟩,
    fun h => ⟨Abstaining.nil_iff.mp h.frames, h.parked, h.scope⟩⟩

theorem Frame.Outer.abstains {f : Frame} (h : f.Outer) : f.Abstains node := by
  cases f with
  | behavior | output => exact h.elim
  | _ => trivial

/-! ## Turns -/

section Turns

/-- A turn that leaves its strand with something to do. -/
theorem goes_keeping (hw : e.Welcomes e') (hf : Abstaining node base s'.frames) (hsig : sig.Abstains node)
    (hsc : sc.Agrees node s'.scope) : e.Stays (Keeping node base sc) (e'.go s' sig) := .go hw (.inr ⟨hf, hsig, hsc⟩)

/-- A turn after which its strand has something to do later. -/
theorem parks_keeping (hw : e.Welcomes e') {q : Parked} (hf : Abstaining node base s'.frames) (hq : q.Abstains node)
    (hsc : sc.Agrees node s'.scope) : e.Stays (Keeping node base sc) ⟨e'.park s' q, none⟩ :=
  .park hw (.inr ⟨hf, hq, hsc⟩)

theorem failInvocation_keeping (hw : e.Welcomes e') (i : Invocation) (err : Raised)
    (hf : Abstaining node base s'.frames) (hsc : sc.Agrees node s'.scope) :
    e.Stays (Keeping node base sc) (e'.failInvocation s' i err) := by
  rw [Engine.failInvocation_eq]
  split
  · exact goes_keeping hw hf trivial hsc
  · have hreport : e.Welcomes (e'.report s'.scope i (err.atInvocation s'.scope.trigger i)).2 := hw
    exact goes_keeping hreport hf trivial hsc

theorem walk_keeping (agenda : List String)
    (hq : ∀ rest n k b, agenda = node :: rest → e.running = true → e.nodeWithKind node = .ok (n, k) →
      k.behavior = some b → k.Quiet) (hf : Abstaining node base s.frames) (hsc : sc.Agrees node s.scope) :
    e.Stays (Keeping node base sc) (e.walk s agenda) := by
  have hsame : e.Welcomes e := .of_eq rfl
  have hcases := e.walk_cases s agenda
  generalize e.walk s agenda = t at hcases ⊢
  cases hcases with
  | done | stopped | unknown => exact goes_keeping hsame hf trivial hsc
  | @invokes m rest n k b hrun hn hb =>
    refine goes_keeping hsame (hf.push trivial) ?_ hsc
    rintro rfl
    exact hq rest n k b rfl hrun hn hb
  | passes => exact goes_keeping (.of_eq rfl) hf trivial (hsc.trans (.of_eq rfl rfl))

theorem invoke_keeping {i : Invocation} (hi : i.node = node → i.kind.Quiet) (hf : Abstaining node base s.frames)
    (hsc : sc.Agrees node s.scope) : e.Stays (Keeping node base sc) (e.invoke s i) := by
  unfold Engine.invoke
  dsimp only
  split
  · next b hb => exact goes_keeping (.of_eq rfl) hf (fun heq => ⟨hi heq, (hi heq).mute b hb .null⟩) hsc
  · exact failInvocation_keeping (.of_eq rfl) i _ hf hsc

theorem awaitFor_keeping {i : Invocation} {w : Wait} {k : Except Raised w.Reply → Script}
    (hi : i.node = node → i.kind.Quiet ∧ ∀ r, (k r).Mute) (hf : Abstaining node base s.frames)
    (hsc : sc.Agrees node s.scope) : e.Stays (Keeping node base sc) (e.awaitFor s i w k) := by
  have hsame : e.Welcomes e := .of_eq rfl
  have hnext : ∀ r, i.node = node → i.kind.Quiet ∧ (k r).Mute := fun r heq => ⟨(hi heq).1, (hi heq).2 r⟩
  cases w with
  | pull port => exact goes_keeping hsame (hf.push hi) trivial hsc
  | advance port =>
    simp only [Engine.awaitFor]
    split
    · exact goes_keeping hsame hf (hnext _) hsc
    · exact goes_keeping hsame (hf.push hi) trivial hsc
  | checkpoint => exact parks_keeping (.of_eq rfl) (hf.push hi) trivial hsc
  | sleep seconds =>
    simp only [Engine.awaitFor]
    split
    · exact goes_keeping hsame hf (hnext _) hsc
    · exact parks_keeping (.of_eq rfl) (hf.push hi) trivial hsc

/-- What a behaviour asks changes no outputs of a node but its own, and those only to publish. -/
theorem perform_agrees (e : Engine) (i : Invocation) (sc : Scope) (q : Query)
    (hq : i.node = node → ∀ port v, q ≠ .memoize port v) : sc.Agrees node (e.perform i sc q).scope := by
  cases q with
  | memoize port v =>
    have hne : node ≠ i.node := fun heq => hq heq.symm port v rfl
    exact .publish sc hne _ v
  | _ => exact .refl sc

theorem behave_keeping {i : Invocation} {script : Script} (hi : i.node = node → i.kind.Quiet ∧ script.Mute)
    (hf : Abstaining node base s.frames) (hsc : sc.Agrees node s.scope) :
    e.Stays (Keeping node base sc) (e.behave s i script) := by
  have hsame : e.Welcomes e := .of_eq rfl
  cases script with
  | finish v =>
    refine goes_keeping (.of_eq ?_) hf (fun heq => ?_) (hsc.trans (.of_eq rfl rfl))
    · dsimp only
      split <;> rfl
    · cases (hi heq).2 with
      | finish h => exact h
  | fail err => exact failInvocation_keeping hsame i err hf hsc
  | again state =>
    simp only [Engine.behave]
    split
    · next b hb => exact goes_keeping hsame hf (fun heq => ⟨(hi heq).1, (hi heq).1.mute b hb state⟩) hsc
    · exact failInvocation_keeping hsame i _ hf hsc
  | ask q k =>
    refine goes_keeping (e.welcomes_perform i s.scope q) hf ?_ (hsc.trans (perform_agrees e i s.scope q fun heq => ?_))
    · show (e.perform i s.scope q).invocation.node = node → (e.perform i s.scope q).invocation.kind.Quiet ∧ _
      rw [perform_node, perform_kind]
      intro heq
      obtain ⟨hquiet, hmute⟩ := hi heq
      cases hmute with
      | ask hq h => exact ⟨hquiet, h _⟩
    · cases (hi heq).2 with
      | ask hq h => exact hq
  | edit c k =>
    refine goes_keeping (Engine.Tended.command e c).strands hf (fun heq => ?_) hsc
    obtain ⟨hquiet, hmute⟩ := hi heq
    cases hmute with
    | edit h => exact ⟨hquiet, h _⟩
  | wait w k =>
    refine awaitFor_keeping (fun heq => ?_) hf hsc
    obtain ⟨hquiet, hmute⟩ := hi heq
    cases hmute with
    | wait h => exact ⟨hquiet, h⟩

theorem abstains_outputResult (sc : Scope) (m port : String) (ds : Dependencies) :
    (Engine.outputResult sc m port ds).Abstains node := by
  unfold Engine.outputResult
  split <;> trivial

theorem abstains_literalResult (p : Port) (v : Value) : (Engine.literalResult p v).Abstains node := by
  unfold Engine.literalResult
  split <;> trivial

theorem pullInput_keeping (m port : String) (hf : Abstaining node base s.frames) (hsc : sc.Agrees node s.scope) :
    e.Stays (Keeping node base sc) (e.pullInput s m port) := by
  have hsame : e.Welcomes e := .of_eq rfl
  have hcases := e.pullInput_cases s m port
  generalize e.pullInput s m port = t at hcases ⊢
  cases hcases with
  | literal => exact goes_keeping hsame hf (abstains_literalResult _ _) hsc
  | _ => exact goes_keeping hsame hf trivial hsc

theorem runForOutput_keeping {n : Node} (hn : n.id ≠ node) (k : Kind Behavior) (port : String)
    (hf : Abstaining node base s.frames) (hsc : sc.Agrees node s.scope) :
    e.Stays (Keeping node base sc) (e.runForOutput s n k port) := by
  have hreset : sc.Agrees node ((s.scope.resetNode n.id).enter n.id port) :=
    (hsc.trans (.resetNode s.scope hn.symm)).trans (.of_eq rfl rfl)
  have hframes : Abstaining node base (Frame.output n.id port n.serial :: s.frames) := hf.push hn
  have hcases := e.runForOutput_cases s n k port
  generalize e.runForOutput s n k port = t at hcases ⊢
  cases hcases with
  | hops => exact parks_keeping (.of_eq rfl) (hframes.push trivial) (fun heq => absurd heq hn) hreset
  | nests => exact goes_keeping (.of_eq rfl) hframes (fun heq => absurd heq hn) hreset

theorem pullOutput_keeping (hk : ∀ n k, e.nodeWithKind node = .ok (n, k) → k.dataOnly = false) (m port : String)
    (hf : Abstaining node base s.frames) (hsc : sc.Agrees node s.scope) :
    e.Stays (Keeping node base sc) (e.pullOutput s m port) := by
  have hsame : e.Welcomes e := .of_eq rfl
  have hcases := e.pullOutput_cases s m port
  generalize e.pullOutput s m port = t at hcases ⊢
  cases hcases with
  | current => exact goes_keeping hsame hf (abstains_outputResult _ _ _ _) hsc
  | @runs n k hn _ hdata =>
    -- a node that only carries data is another one
    have hne : n.id ≠ node := by
      rw [Engine.id_of_nodeWithKind hn]
      rintro rfl
      rw [hk n k hn] at hdata
      cases hdata
    exact runForOutput_keeping hne k port hf hsc
  | _ => exact goes_keeping hsame hf trivial hsc

theorem continueFrom_keeping {i : Invocation} {v : Value} (hv : i.node = node → ∀ es, v ≠ .dict es)
    (rest : List String) (hf : Abstaining node base s.frames) (hsc : sc.Agrees node s.scope) :
    e.Stays (Keeping node base sc) (e.continueFrom s i v rest) := by
  have hsame : e.Welcomes e := .of_eq rfl
  unfold Engine.continueFrom
  dsimp only
  split
  · split
    · exact goes_keeping hsame hf trivial hsc
    · exact goes_keeping (.of_eq rfl) hf trivial hsc
  · next es =>
    have hne : node ≠ i.node := fun heq => hv heq.symm es rfl
    exact goes_keeping hsame hf trivial (hsc.trans (.publishAll hne es s.scope))
  · exact goes_keeping hsame hf trivial hsc

theorem resume_keeping {i : Invocation} {w : Wait} {k : Except Raised w.Reply → Script}
    (hi : i.node = node → i.kind.Quiet ∧ ∀ r, (k r).Mute) (r : Result) (hf : Abstaining node base s.frames)
    (hsc : sc.Agrees node s.scope) : e.Stays (Keeping node base sc) (e.resumeBehavior s i w k r) := by
  have hsame : e.Welcomes e := .of_eq rfl
  unfold Engine.resumeBehavior
  split <;> exact goes_keeping hsame hf (fun heq => ⟨(hi heq).1, (hi heq).2 _⟩) hsc

theorem back_keeping {id : Nat} {scope : Scope} {f : Frame} {fs : List Frame} {r : Result} {b : Book}
    (hsits : Sits b (⟨id, scope, f :: fs⟩, .turn (.back r)))
    (hp : Keeping node base sc (⟨id, scope, f :: fs⟩, .turn (.back r))) (hne : f :: fs ≠ base)
    (hinside : ¬∀ g ∈ f :: fs, g.Outer) : e.Stays (Keeping node base sc) (e.back ⟨id, scope, fs⟩ f r) := by
  have hsame : e.Welcomes e := .of_eq rfl
  obtain ⟨hhead, hf⟩ := hp.frames.pop hne
  have hsc : sc.Agrees node scope := hp.scope
  cases f with
  | behavior i w k => exact resume_keeping hhead r hf hsc
  | walk rest =>
    cases r with
    | invoked v i => exact continueFrom_keeping hp.parked rest hf hsc
    | _ => exact goes_keeping hsame hf trivial hsc
  | output m port serial =>
    have hne : node ≠ m := Ne.symm hhead
    cases r with
    | invoked v i =>
      refine goes_keeping (.of_eq rfl) hf (abstains_outputResult _ _ _ _) (hsc.trans ?_)
      have hleave : scope.Agrees node (scope.leave m) := .of_eq rfl rfl
      exact hleave.trans ((Scope.Agrees.withOutputs (scope.leave m) hne _).trans (.of_eq rfl rfl))
    | _ => exact goes_keeping hsame hf trivial hsc
  | hop => exact parks_keeping (.of_eq rfl) hf hp.parked hsc
  | trigger n origin => exact .go (.of_eq rfl) (.inl (hsits.outer_below_trigger rfl))
  | value => exact goes_keeping hsame hf trivial hsc
  | _ => exact absurd (hsits.outer_of_outer rfl trivial) hinside

theorem raise_keeping {id : Nat} {scope : Scope} {f : Frame} {fs : List Frame} {err : Raised} {b : Book}
    (hsits : Sits b (⟨id, scope, f :: fs⟩, .turn (.raise err)))
    (hp : Keeping node base sc (⟨id, scope, f :: fs⟩, .turn (.raise err))) (hne : f :: fs ≠ base)
    (hinside : ¬∀ g ∈ f :: fs, g.Outer) : e.Stays (Keeping node base sc) (e.raise ⟨id, scope, fs⟩ f err) := by
  have hsame : e.Welcomes e := .of_eq rfl
  obtain ⟨hhead, hf⟩ := hp.frames.pop hne
  have hsc : sc.Agrees node scope := hp.scope
  cases f with
  | behavior i w k => exact goes_keeping hsame hf (fun heq => ⟨(hhead heq).1, (hhead heq).2 _⟩) hsc
  | trigger n origin =>
    have hout := hsits.outer_below_trigger rfl
    cases err with
    | failure f => exact .go (.of_eq rfl) (.inl hout)
    | fault f => exact .go hsame (.inl hout)
    | mute f => exact .go hsame (.inl hout)
  | hop => exact parks_keeping (.of_eq rfl) hf trivial hsc
  | output => exact goes_keeping hsame hf trivial (hsc.trans (.of_eq rfl rfl))
  | walk | value => exact goes_keeping hsame hf trivial hsc
  | _ => exact absurd (hsits.outer_of_outer rfl trivial) hinside

/-- A turn above some frames changes no outputs of a node that does not only carry data, unless control flow comes to
the node. -/
theorem turn_keeping {b : Book} (hk : ∀ n k, e.nodeWithKind node = .ok (n, k) → k.dataOnly = false)
    (hq : ∀ rest n k b, sig = .call (.walk (node :: rest)) → e.running = true → e.nodeWithKind node = .ok (n, k) →
      k.behavior = some b → k.Quiet)
    (hsits : Sits b (s, .turn sig)) (hp : Keeping node base sc (s, .turn sig)) (hne : sig.Ended → s.frames ≠ base)
    (hinside : ¬∀ f ∈ s.frames, f.Outer) : e.Stays (Keeping node base sc) (e.turn s sig) := by
  obtain ⟨id, scope, frames⟩ := s
  cases sig with
  | call c =>
    cases c with
    | walk agenda =>
      exact walk_keeping agenda (fun rest n k b heq => hq rest n k b (by rw [heq])) hp.frames hp.scope
    | invoke i => exact invoke_keeping hp.parked hp.frames hp.scope
    | behave i script => exact behave_keeping hp.parked hp.frames hp.scope
    | input m port => exact pullInput_keeping m port hp.frames hp.scope
    | output m port => exact pullOutput_keeping hk m port hp.frames hp.scope
    | _ => exact absurd (hsits.outer_of_call trivial) hinside
  | back r =>
    cases frames with
    | nil => exact (hinside (by simp)).elim
    | cons f fs => exact back_keeping hsits hp (hne trivial) hinside
  | raise err =>
    cases frames with
    | nil => exact (hinside (by simp)).elim
    | cons f fs => exact raise_keeping hsits hp (hne trivial) hinside

/-- A turn changes no outputs of a node of a quiet kind. -/
theorem turn_holding {b : Book} (hk : ∀ n k, e.nodeWithKind node = .ok (n, k) → k.Quiet)
    (hsits : Sits b (s, .turn sig)) (hp : Holding node sc (s, .turn sig)) (hinside : ¬∀ f ∈ s.frames, f.Outer) :
    e.Stays (Holding node sc) (e.turn s sig) := by
  have hne : sig.Ended → s.frames ≠ [] := fun _ hnil => hinside (by simp [hnil])
  have hkeeps := turn_keeping (fun n k hn => (hk n k hn).dataOnly) (fun _ n k _ _ _ hn _ => hk n k hn) hsits
    (holding_iff.mp hp) hne hinside
  exact hkeeps.mono fun x hx => hx.imp_right holding_iff.mpr

end Turns

/-! ## Runs -/

theorem Keeping.unpark {p : Parked} (h : Keeping node base sc (s, p)) (e : Engine) :
    Keeping node base sc (s, .turn (e.unpark p).1) := by
  refine ⟨h.frames, ?_, h.scope⟩
  cases p with
  | turn sig => exact h.parked
  | sleep id => trivial
  | task id =>
    simp only [Engine.unpark]
    split <;> trivial
  | gather id =>
    simp only [Engine.unpark]
    split <;> trivial

theorem Holding.unpark {p : Parked} (h : Holding node sc (s, p)) (e : Engine) :
    Holding node sc (s, .turn (e.unpark p).1) :=
  holding_iff.mpr ((holding_iff.mp h).unpark e)

section Runs

variable {run : Nat → Engine.Turn} {n a b T : Nat} {origin : Origin} {port : Option String} {seeds : Dict}

/-- While a node is of quiet kinds, a trigger that began with outputs of the node keeps them. -/
theorem holding_run (hopens : Opens (run 0)) (hplays : ∀ k < n, Play (run k) (run (k + 1))) (hab : a < b)
    (hb : b ≤ n) (hstart : (run a).next = some (s, .call (.trigger node origin port seeds)))
    (hT : (run a).engine.nextTrigger = T)
    (hquiet : ∀ k, a < k → k < b → ∀ m K, (run k).engine.nodeWithKind node = .ok (m, K) → K.Quiet) :
    During T (Holding node ((run a).engine.seeded node seeds)) (run b) := by
  refine during_since (P := fun _ => Holding node ((run a).engine.seeded node seeds)) hopens hplays hab hb hstart hT
    ?_ ?_ ?_ ?_
  · intro x hborn
    obtain ⟨L, hL⟩ := orderly_run hopens hplays (hab.le.trans hb)
    have hout := hborn.outer (hL.placed _ (Engine.Turn.mem_population_of_next hstart)).sits
    cases hborn with
    | trigger _ =>
      exact ⟨List.forall_mem_cons.mpr ⟨trivial, fun f hf => (hout f hf).abstains⟩, trivial, .refl _⟩
  · intro k hak hkb s' sig hn _ hinside hp
    obtain ⟨L, hL⟩ := orderly_run hopens hplays (hkb.le.trans hb)
    have hsits := (hL.placed _ (Engine.Turn.mem_population_of_next hn)).sits
    exact turn_holding (hquiet k hak hkb) hsits hp hinside
  · exact fun k _ _ x hp => hp
  · exact fun k _ _ s p e hp => hp.unpark e

/-- Whatever a trigger pulls from an output that it began with is what it was given, and was published once. -/
theorem pulled_run (hopens : Opens (run 0)) (hplays : ∀ k < n, Play (run k) (run (k + 1))) (hab : a < b) (hb : b < n)
    {key : String} {v : Value} (hstart : (run a).next = some (s, .call (.trigger node origin port [(.str key, v)])))
    (hT : (run a).engine.nextTrigger = T) {K : Kind Behavior} (hK : K.Quiet) (hkey : (K.outputPort key).isSome = true)
    (hnode : ∀ k, a < k → k ≤ b → ∃ m, (run k).engine.nodeWithKind node = .ok (m, K))
    (hn : (run b).next = some (s', .call (.output node key))) (hsT : s'.scope.trigger = T) :
    run (b + 1) = (run b).engine.go s' (.back (.pulled v [(.output node (.str key), 1)])) := by
  have hquiet : ∀ k, a < k → k < b → ∀ m K, (run k).engine.nodeWithKind node = .ok (m, K) → K.Quiet := by
    intro k hak hkb m K' hm
    obtain ⟨m', hm'⟩ := hnode k hak hkb.le
    rw [hm'] at hm
    obtain ⟨-, rfl⟩ := Prod.mk.inj (Except.ok.inj hm)
    exact hK
  have hmem := Engine.Turn.mem_population_of_next hn
  obtain ⟨L, hL⟩ := orderly_run hopens hplays hb.le
  have hheld : Holding node ((run a).engine.seeded node [(.str key, v)]) (s', .turn (.call (.output node key))) := by
    refine (holding_run hopens hplays hab hb.le hstart hT hquiet _ hmem hsT).resolve_left fun hout => ?_
    exact ((hL.placed _ hmem).sits.outer_of_frames hout).elim
  obtain ⟨m, hm⟩ := hnode b hab le_rfl
  have hvalue : (s'.scope.outputsOf node).get? (.str key) = some v := by
    rw [hheld.scope.outputs]
    show (Scope.outputsOf (Scope.publish _ node (.str key) v) node).get? (.str key) = some v
    rw [Scope.outputsOf_publish, if_pos rfl]
    simp [Scope.outputsOf, Dict.set, Dict.get?, Value.same]
  have hepoch : s'.scope.epoch node (.str key) = 1 := by
    rw [hheld.scope.epochs]
    show Scope.epoch (Scope.publish _ node (.str key) v) node (.str key) = 1
    rw [Scope.epoch_publish_self]
    rfl
  rw [(hplays b hb).eq_turn hn]
  show (run b).engine.pullOutput s' node key = _
  have hport : ¬(K.outputPort key).isNone = true := by
    rw [Option.isNone_iff_eq_none]
    exact fun hnone => by rw [hnone] at hkey; cases hkey
  simp only [Engine.pullOutput, hm, if_neg hport, hK.dataOnly, hvalue, hepoch, Bool.not_false, if_true]

end Runs

/-! ## Kinds of the library -/

namespace Action

variable {α : Type}

theorem mute_ofExcept (r : Except Raised α) {k : α → Script} (h : ∀ a, (k a).Mute) : (ofExcept r k).Mute := by
  cases r with
  | ok a => exact h a
  | error err => exact .fail err

theorem mute_ask {q : Query} (hq : ∀ port v, q ≠ .memoize port v) {k : q.Reply → Script} (h : ∀ a, (k a).Mute) :
    (ask q k).Mute :=
  .ask hq fun r => mute_ofExcept r h

theorem mute_wait {w : Wait} {k : w.Reply → Script} (h : ∀ a, (k a).Mute) : (wait w k).Mute :=
  .wait fun r => mute_ofExcept r h

end Action

/-- A kind of the library at which triggers begin. -/
theorem Declaration.quiet_of_build {d : Declaration Behavior} {k : Kind Behavior} (h : d.build = .ok k)
    (hshape : d.shape = Shape.event.name) (hmute : ∀ b, d.behavior = some b → ∀ state, (b state).Mute) : k.Quiet := by
  obtain ⟨shape, inputs, outputs, hname, -, -, -, rfl⟩ := build_eq_ok_iff.mp h
  rw [hshape] at hname
  obtain rfl := Option.some.inj hname
  exact ⟨rfl, hmute⟩

/-- The data output of a kind that has no other. -/
theorem Declaration.outputPort_of_build {d : Declaration Behavior} {k : Kind Behavior} (h : d.build = .ok k)
    {p : Port} (hp : d.outputs = .listed [p]) : (k.outputPort p.id).isSome = true := by
  obtain ⟨shape, inputs, outputs, -, -, hout, -, rfl⟩ := build_eq_ok_iff.mp h
  rw [hp] at hout
  obtain rfl := Except.ok.inj hout
  rw [Kind.outputPort, List.find?_isSome]
  refine ⟨{ p with direction := .output }, ?_, beq_self_eq_true _⟩
  unfold toKind withExecOutput
  split <;> simp

/-- An interval publishes nothing by itself. -/
theorem quiet_of_interval {k : Kind Behavior} (h : Library.interval.build = .ok k) : k.Quiet := by
  refine Declaration.quiet_of_build h rfl fun b hb state => ?_
  obtain rfl := Option.some.inj hb
  refine Action.mute_wait fun ms => Action.mute_ofExcept _ fun x => ?_
  refine Action.mute_ask (q := .every (.float (x / 1000.0)) execPort) (fun _ _ => nofun) fun id => ?_
  refine Action.mute_ask (q := .keep Library.registrationKey (.registration id)) (fun _ _ => nofun) fun _ => ?_
  exact .finish nofun

/-- A listener publishes nothing by itself. -/
theorem quiet_of_listener {k : Kind Behavior} (h : Library.listener.build = .ok k) : k.Quiet := by
  refine Declaration.quiet_of_build h rfl fun b hb state => ?_
  obtain rfl := Option.some.inj hb
  refine Action.mute_wait fun name => ?_
  simp only [bind, pure]
  cases Value.truthy name with
  | true =>
    refine Action.mute_ask (q := .listen name execPort) (fun _ _ => nofun) fun id => ?_
    refine Action.mute_ask (q := .keep Library.registrationKey (.registration id)) (fun _ _ => nofun) fun _ => ?_
    exact .finish nofun
  | false => exact .finish nofun

end Patchbay
