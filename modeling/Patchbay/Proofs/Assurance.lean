import Patchbay.Proofs.Abiding
import Patchbay.Proofs.Births
import Patchbay.Proofs.Reporting

/-!
# What a check assures

When a check of a graph finds no issue, and behaviours abide by the declarations of their kinds, a trigger does
not end with an error about the graph: not with a cycle of data, nor with a kind, a node or a port that cannot be
found. A missing value can only be that of an output that was not produced in the trigger so far.

The graph may have come about by any edits and registrations. A kind may have been registered again with a control
flow output where an edge of data begins: the check finds no issue then, and what is pulled along that edge is
looked up among the outputs that the trigger has.

Contents:
* `Unproduced`: causes about an output that was not produced.

Results:
* `upright_run`: the strand of a trigger is upright from the turn that begins it to the turn that ends it.
* `check_assures`: the error that a trigger ends with.
* `check_misses_own_error`: it may be one of these when a behaviour raises it of its own.
-/

namespace Patchbay

section Runs

variable (run : Nat → Engine.Turn) (T a k : Nat)

/-- Whether a cause is that an output of a node was not produced, and at some turn of a trigger, after a step and
before another one, the scope of the trigger had none. -/
def Unproduced (c : Cause) : Prop :=
  ∃ m, a < m ∧ m < k ∧ ∃ s sig, (run m).next = some (s, sig) ∧ s.scope.trigger = T ∧ s.scope.Lacks c

variable {run T a k}

theorem Unproduced.succ {c : Cause} (h : Unproduced run T a k c) : Unproduced run T a (k + 1) c := by
  obtain ⟨m, ha, hk, h⟩ := h
  exact ⟨m, ha, Nat.lt_succ_of_lt hk, h⟩

variable {n b : Nat} {p : Program}

/-- A trigger begins with nodes that are there. -/
theorem knows_firstAgenda (ha : p.Anchored) {e : Engine} (hp : e.program = p) {node : String}
    (hnode : p.graph.hasNode node = true) (port : Option String) : p.Knows (e.firstAgenda node port) := by
  cases port with
  | none => exact List.forall_mem_singleton.mpr (ha.nodeWithKind hnode)
  | some q => exact ha.knows_destinations hp node (some q)

/-- From the turn that begins a trigger to the turn that ends it, its strand is upright. -/
theorem upright_run (hr : p.Regular) (hopens : Opens (run 0)) (hplays : ∀ k < n, Play (run k) (run (k + 1)))
    (hb : b < n) {s : Strand} {node : String} {origin : Origin} {port : Option String} {seeds : Dict}
    (hstart : (run a).next = some (s, .call (.trigger node origin port seeds)))
    (hnode : p.graph.hasNode node = true) (hprogram : ∀ k, a ≤ k → k ≤ b → (run k).engine.program = p)
    (hT : (run a).engine.nextTrigger = T) (hab : a < b) :
    During T (Upright.Of p fun c => c.Free ∨ Unproduced run T a b c) (run b) := by
  refine during_since (P := fun k => Upright.Of p fun c => c.Free ∨ Unproduced run T a k c) hopens hplays hab hb.le
    hstart hT ?_ ?_ ?_ ?_
  · intro x hborn
    obtain ⟨L, hL⟩ := orderly_run hopens hplays (hab.trans hb).le
    have hout := hborn.outer (hL.placed _ (Engine.Turn.mem_population_of_next hstart)).sits
    cases hborn with
    | trigger _ =>
      have hagenda := knows_firstAgenda hr.checked.anchored (hprogram a le_rfl hab.le) hnode port
      exact .walks (u := node) hagenda (.trigger hout)
  · intro k hak hkb s' sig hn hsT _ hup
    obtain ⟨L, hL⟩ := orderly_run hopens hplays (hkb.trans hb).le
    have hsits := (hL.placed _ (Engine.Turn.mem_population_of_next hn)).sits
    have hcounts : ∀ c, (c.Free ∨ Unproduced run T a k c) ∨ s'.scope.Lacks c →
        c.Free ∨ Unproduced run T a (k + 1) c := by
      rintro c ((hfree | hbefore) | hlacks)
      · exact .inl hfree
      · exact .inr hbefore.succ
      · exact .inr ⟨k, hak, Nat.lt_succ_self k, s', sig, hn, hsT, hlacks⟩
    exact hup.turn hr (hprogram k hak.le hkb.le) (fun c => .inl) hcounts hsits
  · exact fun k _ _ x hup => hup.mono fun c => .imp_right Unproduced.succ
  · exact fun k _ _ s q e hup => hup.unpark e

/-- The error that a trigger ends with has a cause that no check is to rule out, or it is about an output that was
not produced. -/
theorem cause_of_ended (hr : p.Regular) (hopens : Opens (run 0)) (hplays : ∀ k < n, Play (run k) (run (k + 1)))
    (hab : a ≤ b) (hb : b < n) {s : Strand} {node : String} {origin : Origin} {port : Option String} {seeds : Dict}
    (hstart : (run a).next = some (s, .call (.trigger node origin port seeds)))
    (hnode : p.graph.hasNode node = true) (hprogram : ∀ k, a ≤ k → k ≤ b → (run k).engine.program = p)
    {R : TriggerResult} (hends : (run b).Ends R) (hT : (run a).engine.nextTrigger = R.trigger) {f : Failure}
    (hf : R.error = some f) : f.cause.Free ∨ Unproduced run R.trigger a (b + 1) f.cause := by
  obtain ⟨L, hL⟩ := orderly_run hopens hplays hb.le
  rcases hends.cases hL with ⟨s', node', origin', port', seeds', -, -, hR⟩ |
    ⟨s', sig, node', origin', fs, error, hn, hframes, hR, hsig⟩
  · rw [hR] at hf
    cases hf
  · have hresult : error.map (fun g => g.inTrigger (.serial s'.scope.trigger)) = some f := by
      rw [← hf, hR]
      rfl
    rcases hsig with ⟨-, rfl⟩ | ⟨g, rfl, rfl⟩
    · cases hresult
    · have hs' : s'.scope.trigger = R.trigger := by rw [hR]; rfl
      have hlt : a < b := by
        refine lt_of_le_of_ne hab fun heq => ?_
        obtain ⟨-, hsame⟩ := Prod.mk.inj (Option.some.inj (hn.symm.trans (heq ▸ hstart)))
        cases hsame
      have hup := (upright_run hr hopens hplays hb hstart hnode hprogram hT hlt).of_top hn hs' hframes id
      have hcause : f.cause = g.cause := by
        rw [← Option.some.inj hresult]
        exact g.cause_inTrigger _
      rw [hcause]
      cases hup with
      | raises _ herr _ =>
        rcases herr with (hfree | hbefore) | hlacks
        · exact .inl hfree
        · exact .inr hbefore.succ
        · exact .inr ⟨b, hlt, Nat.lt_succ_self b, s', _, hn, hs', hlacks⟩
      | pauses hq _ => exact hq.elim

/-- Edits and registrations lead to a regular program when the check finds no issue, the ports of each kind in use
are told apart, and behaviours abide by their declarations. -/
theorem regular_of_issues {e : Engine} (hempty : e.graph.edges = []) (hshaped : ∀ k ∈ e.registry.kinds, k.Shaped)
    {cs : List Command} (hcs : ∀ c ∈ cs, c.editsGraph = true ∨ c.redefines = true) {startKind : String}
    (hissues : (e.edited cs).checkIssues startKind .issues = [])
    (hdistinct : ∀ k, (e.edited cs).program.Uses k → (k.inputs.map Port.id).Nodup ∧ (k.outputs.map Port.id).Nodup)
    (habides : ∀ k, (e.edited cs).program.Uses k → ∀ behavior, k.behavior = some behavior →
      ∀ state, (behavior state).Abides Cause.Free k) : (e.edited cs).program.Regular where
  checked := by
    refine Engine.checked_of_issues (Engine.spans_edited ?_ hcs) hissues
    intro x hx
    rw [hempty] at hx
    cases hx
  shaped k hk := Engine.shaped_edited hshaped hcs k hk.registered
  distinct := hdistinct
  abides := habides

/-- What a check without issues assures. The graph has come about by any edits and registrations; the ports of its
kinds are told apart now, and their behaviours abide by the declarations, wait for one thing at a time and raise no
such errors of their own. No trigger on one of its nodes, during which graph and registry stay as they are, ends with
an error about a cycle, a kind, a node or a port. An error about a missing value is about an output of a node, and at
some turn of the trigger there was none. -/
theorem check_assures {e : Engine} (hempty : e.graph.edges = []) (hshaped : ∀ k ∈ e.registry.kinds, k.Shaped)
    {cs : List Command} (hcs : ∀ c ∈ cs, c.editsGraph = true ∨ c.redefines = true) {startKind : String}
    (hissues : (e.edited cs).checkIssues startKind .issues = [])
    (hdistinct : ∀ k, (e.edited cs).program.Uses k → (k.inputs.map Port.id).Nodup ∧ (k.outputs.map Port.id).Nodup)
    (habides : ∀ k, (e.edited cs).program.Uses k → ∀ behavior, k.behavior = some behavior →
      ∀ state, (behavior state).Abides Cause.Free k)
    (hopens : Opens (run 0)) (hplays : ∀ k < n, Play (run k) (run (k + 1))) (hab : a ≤ b) (hb : b < n) {s : Strand}
    {node : String} {origin : Origin} {port : Option String} {seeds : Dict}
    (hstart : (run a).next = some (s, .call (.trigger node origin port seeds)))
    (hnode : (e.edited cs).graph.hasNode node = true)
    (hprogram : ∀ k, a ≤ k → k ≤ b → (run k).engine.program = (e.edited cs).program) {R : TriggerResult}
    (hends : (run b).Ends R) (hT : (run a).engine.nextTrigger = R.trigger) {f : Failure} (hf : R.error = some f) :
    f.family ∉ [.cyclicDependency, .unknownKind, .nodeNotFound, .portNotFound] ∧
      (f.family = .missingLiteral → ∃ source output,
        (f.cause = .notProducedYet output source ∨ f.cause = .notProduced source output) ∧
        ∃ m, a < m ∧ m ≤ b ∧ ∃ s sig, (run m).next = some (s, sig) ∧ s.scope.trigger = R.trigger ∧
          (s.scope.outputsOf source).get? (.str output) = none) := by
  have hr := regular_of_issues hempty hshaped hcs hissues hdistinct habides
  have hnode' : (e.edited cs).program.graph.hasNode node = true := by
    rw [Engine.hasNode_program]
    exact hnode
  rcases cause_of_ended hr hopens hplays hab hb hstart hnode' hprogram hends hT hf with hfree | hlacking
  · have hfamily : f.family ∉ [.cyclicDependency, .unknownKind, .nodeNotFound, .portNotFound] ++ [.missingLiteral] :=
      hfree
    rw [List.mem_append, not_or, List.mem_singleton] at hfamily
    exact ⟨hfamily.1, fun hmissing => absurd hmissing hfamily.2⟩
  · obtain ⟨m, ham, hmb, s', sig, hn, hs', source, output, hnone, hcause⟩ := hlacking
    refine ⟨?_, fun _ => ⟨source, output, hcause, m, ham, Nat.le_of_lt_succ hmb, s', sig, hn, hs', hnone⟩⟩
    have hfamily : f.family = .missingLiteral := by
      rcases hcause with hcause | hcause <;> rw [Failure.family, hcause] <;> rfl
    rw [hfamily]
    decide

end Runs

/-! ## An output that carries control flow now -/

/-- A gate with an output that carries a value, and a reader that asks for one. -/
def gateway : Engine :=
  { registry := { kinds := [
      .sketch "gate" .statement [{ id := "exec", valueType := .exec }]
        [Library.leads "exec", Library.yields "open" .any] none,
      .sketch "reader" .statement [{ id := "exec", valueType := .exec }, { id := "in" }] [Library.leads "exec"]
        (some consuming)] } }

/-- The reader is wired to the gate, and the gate is registered again: its output carries control flow now. -/
def gatewayEdits : List Command :=
  [.addNode "gate" [] (some "g"), .addNode "reader" [] (some "r"), .connect ⟨"g", "open", "r", "in"⟩,
    .register { kind := "gate", outputs := .listed [Library.leads "exec", Library.leads "open"] }]

/-- A session on that graph, which runs the reader. -/
def gatewaySession : Engine.Turn :=
  opening (.initial {} (gateway.edited gatewayEdits).registry (gateway.edited gatewayEdits).graph 0.01) [.runNode "r"]

/-- The state after a number of steps of that session. -/
def gated (n : Nat) : Engine.Turn := (follow n (gatewaySession, fun _ => {})).1

/-- A reader asks for its input, and hands on the error. -/
theorem abides_consuming {k : Kind Behavior} (hport : ∃ q ∈ k.dataInputs, q.id = "in") (state : Value) :
    (consuming state).Abides Cause.Free k := by
  refine .pull hport (fun v => ?_) (fun err => ?_)
  · exact .finish _
  · exact .fail

/-- The check finds no issue. The reader fails, for the gate has produced no value. -/
theorem check_assures_gateway : ∃ R f, (gated 10).Ends R ∧ R.error = some f ∧ f.family = .missingLiteral ∧
    ∃ source output, (f.cause = .notProducedYet output source ∨ f.cause = .notProduced source output) ∧
      ∃ m, 1 < m ∧ m ≤ 10 ∧ ∃ s sig, (gated m).next = some (s, sig) ∧ s.scope.trigger = R.trigger ∧
        (s.scope.outputsOf source).get? (.str output) = none := by
  have hopens : Opens (gated 0) := by
    show Opens gatewaySession
    refine ⟨_, _, _, _, _, ?_, rfl⟩
    exact ⟨by decide +kernel, by decide +kernel⟩
  have hgoes : ∀ k < 12, (Engine.advance (gated k)).isSome = true := by decide +kernel
  have hplays : ∀ k < 12, Play (gated k) (gated (k + 1)) := fun k hk => .of_advance (advance_follow (hgoes k hk))
  have hprogram : ∀ k, 1 ≤ k → k ≤ 10 → (gated k).engine.program = (gateway.edited gatewayEdits).program := by
    intro k _ hk
    interval_cases k <;> with_unfolding_all rfl
  have hissues : (gateway.edited gatewayEdits).checkIssues "reader" .issues = [] := by with_unfolding_all rfl
  have hdistinct : (gateway.edited gatewayEdits).registry.Distinct := by decide +kernel
  have habides : ∀ k ∈ (gateway.edited gatewayEdits).registry.kinds, ∀ behavior, k.behavior = some behavior →
      ∀ state, (behavior state).Abides Cause.Free k := by
    obtain ⟨k₁, k₂, hkinds, hnone, hreader, hport⟩ : ∃ k₁ k₂, (gateway.edited gatewayEdits).registry.kinds = [k₁, k₂] ∧
        k₁.behavior = none ∧ k₂.behavior = some consuming ∧ ∃ q ∈ k₂.dataInputs, q.id = "in" := by
      with_unfolding_all exact ⟨_, _, rfl, rfl, rfl, { id := "in" }, .head _, rfl⟩
    rw [hkinds]
    refine List.forall_mem_cons.mpr ⟨fun behavior hb => ?_, List.forall_mem_singleton.mpr fun behavior hb state => ?_⟩
    · rw [hnone] at hb
      cases hb
    · obtain rfl := Option.some.inj (hreader.symm.trans hb)
      exact abides_consuming hport state
  obtain ⟨s, node, origin, port, seeds, hstart, hnode⟩ : ∃ s node origin port seeds,
      (gated 1).next = some (s, .call (.trigger node origin port seeds)) ∧
        (gateway.edited gatewayEdits).graph.hasNode node = true := by
    with_unfolding_all exact ⟨_, _, _, _, _, rfl, rfl⟩
  obtain ⟨s', f, node', origin', fs, hn, hf, hT, hfamily⟩ : ∃ s f node origin fs,
      (gated 10).next = some (s, .raise (.failure f)) ∧ s.frames = .trigger node origin :: fs ∧
        (gated 1).engine.nextTrigger = s.scope.trigger ∧ f.family = .missingLiteral := by
    with_unfolding_all exact ⟨_, _, _, _, _, rfl, rfl, rfl, rfl⟩
  have hends := Engine.Turn.Ends.of_trigger hn hf (.inr ⟨f, rfl, rfl⟩)
  have hfamily' : (f.inTrigger (.serial s'.scope.trigger)).family = .missingLiteral := by
    rw [Failure.family, Failure.cause_inTrigger]
    exact hfamily
  refine ⟨_, _, hends, rfl, hfamily', ?_⟩
  exact (check_assures (e := gateway) rfl (by decide) (by decide) hissues
    (fun k hk => hdistinct k hk.registered) (fun k hk => habides k hk.registered)
    hopens hplays (by decide) (by decide) hstart hnode hprogram hends hT rfl).2 hfamily'

/-! ## An error of the behaviour's own -/

/-- An engine with a start kind, and a kind whose behaviour raises the error for a node that is not there. -/
def clamor : Engine :=
  { registry := { kinds := [
      .sketch "event.start" .event [] [Library.leads "exec"] none,
      .sketch "bell" .statement [{ id := "exec", valueType := .exec }] [Library.leads "exec"]
        (some fun _ => .fail (.cause (.nodeNotFound "x")))] } }

/-- A start node leads to the bell. -/
def clamorEdits : List Command :=
  [.addNode "event.start" [] (some "s"), .addNode "bell" [] (some "b"), .connect ⟨"s", "exec", "b", "exec"⟩]

/-- The state after a number of steps of a session on that graph, which runs the bell. -/
def clamored (n : Nat) : Engine.Turn :=
  (follow n (opening (.initial {} (clamor.edited clamorEdits).registry (clamor.edited clamorEdits).graph 0.01)
    [.runNode "b"], fun _ => {})).1

/-- A check without issues does not speak of errors that behaviours raise of their own: here the only behaviour pulls
nothing, continues along nothing, and raises the error for a node that is not there. -/
theorem check_misses_own_error : (clamor.edited clamorEdits).checkIssues "event.start" .issues = [] ∧
    (clamor.edited clamorEdits).registry.Distinct ∧
    (∀ k ∈ (clamor.edited clamorEdits).registry.kinds, ∀ behavior, k.behavior = some behavior →
      ∀ state, ∃ err, behavior state = .fail err) ∧
    (clamored 1).engine.program = (clamor.edited clamorEdits).program ∧
    (∃ s, (clamored 1).next = some (s, .call (.trigger "b" .direct none []))) ∧
    ∃ R f, (clamored 6).Ends R ∧ R.error = some f ∧ f.family = .nodeNotFound := by
  have hissues : (clamor.edited clamorEdits).checkIssues "event.start" .issues = [] := by with_unfolding_all rfl
  have hdistinct : (clamor.edited clamorEdits).registry.Distinct := by decide +kernel
  have hbehaviors : ∀ k ∈ (clamor.edited clamorEdits).registry.kinds, ∀ behavior, k.behavior = some behavior →
      ∀ state, ∃ err, behavior state = .fail err := by
    have hkinds : (clamor.edited clamorEdits).registry.kinds = clamor.registry.kinds := by with_unfolding_all rfl
    rw [hkinds]
    refine List.forall_mem_cons.mpr ⟨fun behavior hb => ?_, List.forall_mem_singleton.mpr fun behavior hb state => ?_⟩
    · cases hb
    · obtain rfl := Option.some.inj hb
      exact ⟨_, rfl⟩
  have hprogram : (clamored 1).engine.program = (clamor.edited clamorEdits).program := by with_unfolding_all rfl
  obtain ⟨s, hstart⟩ : ∃ s, (clamored 1).next = some (s, .call (.trigger "b" .direct none [])) := by
    with_unfolding_all exact ⟨_, rfl⟩
  obtain ⟨s', f, node, origin, fs, hn, hf, hfamily⟩ : ∃ s f node origin fs,
      (clamored 6).next = some (s, .raise (.failure f)) ∧ s.frames = .trigger node origin :: fs ∧
        f.family = .nodeNotFound := by
    with_unfolding_all exact ⟨_, _, _, _, _, rfl, rfl, rfl⟩
  have hends := Engine.Turn.Ends.of_trigger hn hf (.inr ⟨f, rfl, rfl⟩)
  refine ⟨hissues, hdistinct, hbehaviors, hprogram, ⟨s, hstart⟩, _, _, hends, rfl, ?_⟩
  rw [Failure.family, Failure.cause_inTrigger]
  exact hfamily

end Patchbay
