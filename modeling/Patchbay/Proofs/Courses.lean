import Patchbay.Proofs.Hearing
import Patchbay.Proofs.Histories
import Patchbay.Proofs.Settling

/-!
# Courses of triggers

A trigger is followed through a run from the turn that begins it to the turn that ends it with a result.
Meanwhile the program stays as it is, while nodes may show other outputs and errors.

Contents:
* `Program.Runs`: an invocation of a node of a program.
* `Engine.onward`: where control flow goes from an output of a node.
* `Engine.Turn.Ends`: a turn that ends a trigger.

Results:
* `Engine.nodeWithKind_cases`: an engine looks up nodes as its program does.
* `Engine.startTrigger_cases`: how a trigger begins.
* `orderly_run`: every state of a run is in order.
* `heard_eq_nil_of_unborn`, `heard_eq_of_over`: nothing is heard of a trigger before it begins and after it
  is over.
* `Engine.Turn.Ends.cases`: how a trigger ends; `Engine.Turn.Ends.over`: it is over then.
-/

namespace Patchbay

/-! ## Nodes of a program -/

/-- Whether an invocation is of a node of a program, with its kind. -/
def Program.Runs (p : Program) (i : Invocation) : Prop :=
  ∃ n, p.nodeWithKind i.node = .ok (n, i.kind) ∧ n.serial = i.serial

namespace Engine

variable {e : Engine} {p : Program}

/-- An engine finds a node as its program does, or fails as its program does. -/
theorem nodeWithKind_cases (hp : e.program = p) (id : String) :
    (∃ err, e.nodeWithKind id = .error err ∧ p.nodeWithKind id = .error err) ∨
      ∃ n k, e.nodeWithKind id = .ok (n, k) ∧ p.nodeWithKind id = .ok (n.bare, k) := by
  have hold : e.Holds p e.store := ⟨hp, rfl⟩
  cases h : e.nodeWithKind id with
  | error err => exact .inl ⟨err, rfl, hold.nodeWithKind_error h⟩
  | ok x => exact .inr ⟨x.1, x.2, rfl, hold.nodeWithKind_ok h⟩

/-- The invocation of a node that was found. -/
theorem runs_of_nodeWithKind (hp : e.program = p) {id : String} {n : Node} {k : Kind Behavior}
    (h : e.nodeWithKind id = .ok (n, k)) (mode : Mode) :
    p.Runs { serial := n.serial, node := id, kind := k, mode := mode } := by
  have hold : e.Holds p e.store := ⟨hp, rfl⟩
  exact ⟨n.bare, hold.nodeWithKind_ok h, rfl⟩

theorem node?_of_nodeWithKind {id : String} {n : Node} {k : Kind Behavior}
    (h : e.nodeWithKind id = .ok (n, k)) : e.graph.node? id = some n := by
  simp only [nodeWithKind, Graph.requireNode, bind, Except.bind, pure, Except.pure] at h
  cases hn : e.graph.node? id with
  | none =>
    rw [hn] at h
    cases h
  | some m =>
    rw [hn] at h
    dsimp only at h
    split at h
    · cases h
    · rw [(Prod.mk.inj (Except.ok.inj h)).1]

theorem outgoing_program (hp : e.program = p) (node : String) (port : Option String) :
    e.graph.outgoing node port = p.graph.outgoing node port := by
  rw [← hp]
  rfl

/-- The nodes that control flow goes to from an output of a node, unless its behaviour has continued along it. -/
def onward (e : Engine) (i : Invocation) : Option String → List String
  | some port => if i.advanced.contains port then [] else e.execTargets i.node i.kind (some port)
  | none => []

theorem execTargets_of_onward {i : Invocation} {exit : Option String} {id : String} (h : id ∈ e.onward i exit) :
    ∃ port, id ∈ e.execTargets i.node i.kind port := by
  cases exit with
  | none => cases h
  | some port =>
    rw [onward] at h
    split at h
    · cases h
    · exact ⟨some port, h⟩

/-! ## How a trigger begins -/

theorem edges_armed (e : Engine) (node : String) (origin : Origin) :
    (e.armed node origin).2.graph.edges = e.graph.edges := by
  unfold armed
  split
  · split
    · rfl
    · next n _ =>
      obtain ⟨⟨f, -, hg⟩, -⟩ := disarm_graph e n
      rw [hg]
  · rfl

/-- The scope of a new trigger, with the outputs that it is given. -/
def seeded (e : Engine) (node : String) (seeds : Dict) : Scope :=
  seeds.foldl (fun sc x => sc.publish node x.1 x.2) { trigger := e.nextTrigger }

theorem seeded_trigger (e : Engine) (node : String) (seeds : Dict) :
    (e.seeded node seeds).trigger = e.nextTrigger :=
  (Scope.Extends.publishAll node seeds _).trigger

/-- The nodes that a new trigger starts with. -/
def firstAgenda (e : Engine) (node : String) (port : Option String) : List String :=
  match port with
  | some p => e.destinations node (some p)
  | none => [node]

/-- A trigger is refused; it fails at once when its node cannot be set up; or control flow begins. -/
theorem startTrigger_cases (e : Engine) (s : Strand) (node : String) (origin : Origin) (port : Option String)
    (seeds : Dict) :
    (e.running = false ∧ e.startTrigger s node origin port seeds = e.freshScope.2.go s
        (.back (.response (.trigger { trigger := e.nextTrigger, origin := node, status := .cancelled })))) ∨
      (∃ e₁ err, e.freshScope.2.Tended e₁ ∧ origin = .arm ∧
        e.startTrigger s node origin port seeds = e₁.go s (.raise err)) ∨
      ∃ e₁, e.freshScope.2.Tended e₁ ∧ e.startTrigger s node origin port seeds =
        e₁.nest { s with scope := e.seeded node seeds } (.trigger node origin)
          (.walk (e.firstAgenda node port)) := by
  cases hrun : e.running with
  | false => exact .inl ⟨rfl, startTrigger_refused hrun s node origin port seeds⟩
  | true =>
    have harmed := armed_tended e.freshScope.2 node origin
    have hedges := edges_armed e.freshScope.2 node origin
    have harm : origin ≠ .arm → (e.freshScope.2.armed node origin).1 = .ok () := by
      intro hne
      simp [armed, hne]
    rw [startTrigger_eq e s node origin port seeds hrun]
    generalize e.freshScope.2.armed node origin = x at harmed hedges harm
    obtain ⟨r, e₁⟩ := x
    cases r with
    | error err =>
      refine .inr (.inl ⟨e₁, err, harmed, ?_, rfl⟩)
      by_contra hne
      cases harm hne
    | ok u =>
      refine .inr (.inr
        ⟨_, harmed.trans (.emit e₁ (n := .triggerStarted (e.seeded node seeds).trigger node origin) id), ?_⟩)
      have hagenda : ∀ p, (e₁.emit (.triggerStarted (e.seeded node seeds).trigger node origin)).destinations
          node p = e.destinations node p := by
        intro p
        show (e₁.graph.edges.filter _).map Edge.dest = (e.graph.edges.filter _).map Edge.dest
        rw [hedges]
        rfl
      cases port with
      | none => rfl
      | some p =>
        exact congrArg (fun agenda => (e₁.emit _).nest { s with scope := e.seeded node seeds }
          (.trigger node origin) (.walk agenda)) (hagenda (some p))

/-- The turn that begins a trigger also counts it. -/
theorem nextTrigger_startTrigger (e : Engine) (s : Strand) (node : String) (origin : Origin)
    (port : Option String) (seeds : Dict) :
    (e.startTrigger s node origin port seeds).engine.nextTrigger = e.nextTrigger + 1 := by
  rcases startTrigger_cases e s node origin port seeds with ⟨-, h⟩ | ⟨e₁, err, ht, -, h⟩ | ⟨e₁, ht, h⟩
  · rw [h]
    rfl
  · rw [h]
    exact ht.nextTrigger
  · rw [h]
    exact ht.nextTrigger

end Engine

/-! ## Runs -/

theorem Opens.orderly {t : Engine.Turn} (h : Opens t) : Orderly (fun _ _ => 0) (fun _ => {}) t := by
  obtain ⟨config, registry, graph, shortest, requests, -, rfl⟩ := h
  exact (Recorded.start config registry graph shortest requests).orderly

section Runs

variable {run : Nat → Engine.Turn} {n : Nat}

theorem orderly_run (hopens : Opens (run 0)) (hplays : ∀ k < n, Play (run k) (run (k + 1))) {k : Nat}
    (hk : k ≤ n) : ∃ L, Orderly (fun _ _ => 0) L (run k) := by
  induction k with
  | zero => exact ⟨_, hopens.orderly⟩
  | succ k ih =>
    obtain ⟨L, hL⟩ := ih (Nat.le_of_succ_le hk)
    exact ⟨_, hL.step (hplays k hk).step⟩

theorem reachable_run (hopens : Opens (run 0)) (hplays : ∀ k < n, Play (run k) (run (k + 1))) {k : Nat}
    (hk : k ≤ n) : Reachable (run k) := by
  induction k with
  | zero => exact .start hopens
  | succ k ih => exact (ih (Nat.le_of_succ_le hk)).play (hplays k hk)

/-- Numbers of triggers only grow. -/
theorem nextTrigger_le_run (hopens : Opens (run 0)) (hplays : ∀ k < n, Play (run k) (run (k + 1))) {j k : Nat}
    (hjk : j ≤ k) (hk : k ≤ n) : (run j).engine.nextTrigger ≤ (run k).engine.nextTrigger := by
  induction k, hjk using Nat.le_induction with
  | base => exact Nat.le_refl _
  | succ k hjk ih =>
    obtain ⟨L, hL⟩ := orderly_run hopens hplays (Nat.le_of_succ_le hk)
    exact (ih (Nat.le_of_succ_le hk)).trans (hL.evolves (hplays k hk).step).nextTrigger

/-- A trigger that has begun is counted. -/
theorem nextTrigger_lt_run (hopens : Opens (run 0)) (hplays : ∀ k < n, Play (run k) (run (k + 1))) {j k : Nat}
    (hjk : j < k) (hk : k ≤ n) {s : Strand} {node : String} {origin : Origin} {port : Option String} {seeds : Dict}
    (hstart : (run j).next = some (s, .call (.trigger node origin port seeds))) :
    (run j).engine.nextTrigger < (run k).engine.nextTrigger := by
  have hle := nextTrigger_le_run hopens hplays (Nat.succ_le_of_lt hjk) hk
  rw [(hplays j (hjk.trans_le hk)).eq_turn hstart] at hle
  have hcounted := Engine.nextTrigger_startTrigger (run j).engine s node origin port seeds
  exact Nat.lt_of_lt_of_le (Nat.lt_succ_self _) (hcounted.symm.le.trans hle)

/-- Nothing is heard of a trigger before it begins. -/
theorem heard_eq_nil_of_unborn (hopens : Opens (run 0)) (hplays : ∀ k < n, Play (run k) (run (k + 1)))
    {k : Nat} (hk : k ≤ n) {T : Nat} (hT : (run k).engine.nextTrigger ≤ T) : (run k).engine.heard T = [] := by
  induction k with
  | zero =>
    obtain ⟨config, registry, graph, shortest, requests, -, heq⟩ := hopens
    rw [heq]
    cases requests <;> rfl
  | succ k ih =>
    have hle := nextTrigger_le_run hopens hplays (Nat.le_succ k) hk
    obtain ⟨L, hL⟩ := orderly_run hopens hplays (Nat.le_of_succ_le hk)
    rw [heard_step (hplays k hk).step, ih (Nat.le_of_succ_le hk) (hle.trans hT), List.nil_append]
    cases hn : (run k).next with
    | none => exact Engine.Turn.toldOf_of_none hn T
    | some x =>
      obtain ⟨s, sig⟩ := x
      rw [Engine.Turn.toldOf, Engine.Turn.told_of_next hn, List.filter_eq_nil_iff]
      intro m hm
      rcases Engine.trigger?_of_mem_told hm with htrigger | ⟨node, origin, port, seeds, rfl, rfl⟩
      · have hknown : s.scope.trigger < (run k).engine.nextTrigger :=
          (hL.placed _ (Engine.Turn.mem_population_of_next hn)).known
        simpa [htrigger] using (hknown.trans_le (hle.trans hT)).ne
      · have hlt := nextTrigger_lt_run hopens hplays (Nat.lt_succ_self k) hk hn
        simpa [Notice.trigger?] using (hlt.trans_le hT).ne

/-- Nothing more is heard of a trigger that is over. -/
theorem heard_eq_of_over (hopens : Opens (run 0)) (hplays : ∀ k < n, Play (run k) (run (k + 1))) {j k : Nat}
    (hjk : j ≤ k) (hk : k ≤ n) {T : Nat} (hT : T ≠ 0) (ho : Over T (run j)) :
    Over T (run k) ∧ (run k).engine.heard T = (run j).engine.heard T := by
  induction k, hjk using Nat.le_induction with
  | base => exact ⟨ho, rfl⟩
  | succ k hjk ih =>
    obtain ⟨hover, hheard⟩ := ih (Nat.le_of_succ_le hk)
    obtain ⟨L, hL⟩ := orderly_run hopens hplays (Nat.le_of_succ_le hk)
    have hstep := (hplays k hk).step
    refine ⟨hover.step hL hT hstep, ?_⟩
    rw [heard_step hstep, hover.toldOf_eq_nil hL, List.append_nil, hheard]

end Runs

/-! ## How a trigger ends -/

/-- Whether the turn of the strand under way ends a trigger with a result: what the trigger had begun is
done, or it has failed, or the trigger may not begin at all. -/
def Engine.Turn.Ends (t : Engine.Turn) (R : TriggerResult) : Prop :=
  ∃ (s : Strand) (sig : Signal) (e' : Engine) (s' : Strand),
    t.next = some (s, sig) ∧ t.engine.turn s sig = e'.go s' (.back (.response (.trigger R))) ∧
    ((∃ node origin, s.frames = .trigger node origin :: s'.frames) ∨
      ∃ node origin port seeds, sig = .call (.trigger node origin port seeds))

/-- The result of a trigger that has run: `error` is what ended it, if anything did. -/
def Engine.resultOf (e : Engine) (sc : Scope) (node : String) (error : Option Failure) : TriggerResult :=
  ⟨sc.trigger, node, if error.isSome then .error else if e.running then .ok else .cancelled, sc.executed,
    error.map fun f => f.inTrigger (.serial sc.trigger)⟩

theorem Engine.endTrigger_eq (e : Engine) (s : Strand) (node : String) (origin : Origin)
    (error : Option Failure) : ∃ e' : Engine, e'.strands = e.strands ∧ e.endTrigger s node origin error =
      e'.go s (.back (.response (.trigger (e.resultOf s.scope node error)))) := by
  refine ⟨(e.endTrigger s node origin error).engine, rfl, ?_⟩
  unfold Engine.endTrigger Engine.resultOf
  cases error with
  | some f => rfl
  | none => cases e.running <;> rfl

theorem Engine.result_inj {e e' : Engine} {s s' : Strand} {R R' : TriggerResult}
    (h : e.go s (.back (.response (.trigger R))) = e'.go s' (.back (.response (.trigger R')))) : R = R' := by
  have hnext := congrArg Engine.Turn.next h
  simp only [Engine.go, Option.some.injEq, Prod.mk.injEq, Signal.back.injEq, Result.response.injEq,
    Response.trigger.injEq] at hnext
  exact hnext.2

section Ends

variable {lo : Nat → Dependency → Nat} {L : Ledger} {t : Engine.Turn} {R : TriggerResult}

theorem Engine.walk_ne_response (e : Engine) (s s' : Strand) (e' : Engine) (agenda : List String)
    (r : Response) : e.walk s agenda ≠ e'.go s' (.back (.response r)) := by
  intro h
  have hnext := congrArg Engine.Turn.next h
  unfold Engine.walk at hnext
  repeat' split at hnext
  all_goals cases hnext

/-- A strand that begins a trigger is outside triggers. -/
theorem Sits.outer_of_trigger {b : Book} {s : Strand} {node : String} {origin : Origin} {port : Option String}
    {seeds : Dict} (h : Sits b (s, .turn (.call (.trigger node origin port seeds)))) :
    ∀ f ∈ s.frames, f.Outer := by
  obtain ⟨nodes, -, hfits⟩ := h.fits
  cases hfits with
  | begins _ hs =>
    generalize b.running = as at hs
    cases hs with
    | outer h => exact h

/-- What a strand begins right above its trigger is control flow. -/
theorem Sits.walks_of_trigger {b : Book} {s : Strand} {c : Call} (h : Sits b (s, .turn (.call c)))
    {node : String} {origin : Origin} {fs : List Frame} (hf : s.frames = .trigger node origin :: fs) :
    ∃ agenda, c = .walk agenda := by
  obtain ⟨nodes, -, hfits⟩ := h.fits
  rw [hf] at hfits
  cases hfits with
  | begins _ hs =>
    generalize b.running = as at hs
    cases hs with
    | outer h => exact (h _ List.mem_cons_self).elim
  | walks _ => exact ⟨_, rfl⟩
  | invokes _ _ hs => cases hs
  | behaves _ _ hs => cases hs
  | input hs => cases hs
  | output hs => cases hs

theorem Stacked.outer_below_trigger {l : Level} {node : String} {origin : Origin} {fs : List Frame}
    {nodes : List String} {as : List Account} (h : Stacked l (.trigger node origin :: fs) nodes as) :
    ∀ f ∈ fs, f.Outer := by
  cases h with
  | outer h => exact (h _ List.mem_cons_self).elim
  | trigger h => exact h

/-- Below a trigger a strand is outside triggers. -/
theorem Sits.outer_below_trigger {b : Book} {s : Strand} {q : Parked} (h : Sits b (s, q)) {node : String}
    {origin : Origin} {fs : List Frame} (hf : s.frames = .trigger node origin :: fs) : ∀ f ∈ fs, f.Outer := by
  obtain ⟨nodes, -, hfits⟩ := h.fits
  rw [hf] at hfits
  cases hfits with
  | begins _ hs | answers hs | joins hs | gathers hs | walks hs | walked hs | invokes _ _ hs | behaves _ _ hs
  | invoked _ _ hs | input hs | output hs | pulled hs _ | woken hs | sleeps hs | raised hs =>
    exact hs.outer_below_trigger

/-- A trigger that ends was refused, or control flow has come back to it, or a failure has. -/
theorem Engine.Turn.Ends.cases (h : Orderly lo L t) (hends : t.Ends R) :
    (∃ s node origin port seeds, t.next = some (s, .call (.trigger node origin port seeds)) ∧
        t.engine.running = false ∧
        R = { trigger := t.engine.nextTrigger, origin := node, status := .cancelled }) ∨
      ∃ s sig node origin fs error, t.next = some (s, sig) ∧ s.frames = .trigger node origin :: fs ∧
        R = t.engine.resultOf s.scope node error ∧
        ((∃ r, sig = .back r) ∧ error = none ∨ ∃ f, sig = .raise (.failure f) ∧ error = some f) := by
  obtain ⟨s, sig, e', s', hn, hturn, hwhere⟩ := hends
  have hsits := (h.placed _ (Engine.Turn.mem_population_of_next hn)).sits
  rcases hwhere with ⟨node, origin, hf⟩ | ⟨node, origin, port, seeds, rfl⟩
  · refine .inr ?_
    have hend : ∀ error, t.engine.turn s sig = t.engine.endTrigger { s with frames := s'.frames } node origin error →
        R = t.engine.resultOf s.scope node error := by
      intro error heq
      obtain ⟨e₁, -, hresult⟩ := t.engine.endTrigger_eq { s with frames := s'.frames } node origin error
      rw [heq, hresult] at hturn
      exact (Engine.result_inj hturn).symm
    -- with the frame of the trigger on top a call is a walk, which answers nothing
    cases sig with
    | call c =>
      obtain ⟨agenda, rfl⟩ := hsits.walks_of_trigger hf
      exact absurd hturn (t.engine.walk_ne_response s s' e' agenda _)
    | back r =>
      refine ⟨s, .back r, node, origin, s'.frames, none, hn, hf, hend none ?_, .inl ⟨⟨r, rfl⟩, rfl⟩⟩
      exact Engine.turn_back hf t.engine r
    | raise err =>
      cases err with
      | failure f =>
        refine ⟨s, .raise (.failure f), node, origin, s'.frames, some f, hn, hf, hend (some f) ?_,
          .inr ⟨f, rfl, rfl⟩⟩
        exact Engine.turn_raise hf t.engine (.failure f)
      | fault f | mute f =>
        rw [Engine.turn_raise hf] at hturn
        have hnext := congrArg Engine.Turn.next hturn
        simp [Engine.raise, Engine.go] at hnext
  · refine .inl ⟨s, node, origin, port, seeds, hn, ?_⟩
    have hstart : t.engine.startTrigger s node origin port seeds = e'.go s' (.back (.response (.trigger R))) :=
      hturn
    rcases t.engine.startTrigger_cases s node origin port seeds with
      ⟨hrun, heq⟩ | ⟨e₁, err, -, -, heq⟩ | ⟨e₁, -, heq⟩
    · rw [heq] at hstart
      exact ⟨hrun, (Engine.result_inj hstart).symm⟩
    · rw [heq] at hstart
      cases congrArg Engine.Turn.next hstart
    · rw [heq] at hstart
      cases congrArg Engine.Turn.next hstart

/-- What comes back to a trigger ends it, and so does a failure that comes up to it. -/
theorem Engine.Turn.Ends.of_trigger {s : Strand} {sig : Signal} {node : String} {origin : Origin} {fs : List Frame}
    {error : Option Failure} (hn : t.next = some (s, sig)) (hf : s.frames = .trigger node origin :: fs)
    (hsig : (∃ r, sig = .back r) ∧ error = none ∨ ∃ f, sig = .raise (.failure f) ∧ error = some f) :
    t.Ends (t.engine.resultOf s.scope node error) := by
  obtain ⟨e', -, heq⟩ := t.engine.endTrigger_eq { s with frames := fs } node origin error
  refine ⟨s, sig, e', { s with frames := fs }, hn, ?_, .inl ⟨node, origin, hf⟩⟩
  rcases hsig with ⟨⟨r, rfl⟩, rfl⟩ | ⟨f, rfl, rfl⟩
  · exact (Engine.turn_back hf t.engine r).trans heq
  · exact (Engine.turn_raise hf t.engine (.failure f)).trans heq

/-- A trigger is over once it has ended. -/
theorem Engine.Turn.Ends.over (h : Orderly lo L t) (hends : t.Ends R) {t' : Engine.Turn} (hs : Step t t')
    (hT : R.trigger ≠ 0) (hknown : R.trigger < t'.engine.nextTrigger) : Over R.trigger t' := by
  refine ⟨hknown, ?_⟩
  rcases hends.cases h with ⟨s, node, origin, port, seeds, hn, hrun, rfl⟩ |
    ⟨s, sig, node, origin, fs, error, hn, hf, rfl, hsig⟩
  · -- the strand never was in the trigger
    obtain rfl := hs.eq_turn hn
    intro x hx hxT
    rw [show t.engine.turn s (.call (.trigger node origin port seeds)) = _ from
      startTrigger_refused hrun s node origin port seeds] at hx
    have hold : x.1.scope.trigger < t.engine.nextTrigger := by
      rcases List.mem_cons.mp hx with rfl | hx
      · exact (h.placed _ (mem_population_of_next hn)).known
      · refine (h.placed x ?_).known
        rw [population_of_next hn]
        exact List.mem_cons_of_mem _ hx
    exact absurd hxT hold.ne
  · have hout := (h.placed _ (mem_population_of_next hn)).sits.outer_below_trigger hf
    obtain ⟨e₁, hstrands, heq⟩ := t.engine.endTrigger_eq { s with frames := fs } node origin error
    have hturn : t.engine.turn s sig = t.engine.endTrigger { s with frames := fs } node origin error := by
      rcases hsig with ⟨⟨r, rfl⟩, rfl⟩ | ⟨f, rfl, rfl⟩
      · exact turn_back hf t.engine r
      · exact turn_raise hf t.engine (.failure f)
    obtain rfl := hs.eq_turn hn
    refine .own h hT hn rfl ?_
    rw [hturn, heq]
    exact .go (.of_eq hstrands) (.inl hout)

end Ends

end Patchbay
