import Patchbay.Proofs.Containment

/-!
# Control flow is recursive

The plain way to follow control flow is recursive: unless execution is stopped, a node is executed, and then each of the
branches that it leads to is followed in the same way, one after another in the order of the edges. An engine does not
nest like that. It keeps the branches that are left on an agenda, and puts what a node leads to before them.

The recursive walker is stated over a session, in which other strands have turns whenever a behaviour waits: it is
entered at some step with some branches, and is over at a later one, when it has executed some nodes at certain steps.
That an engine does what it does means that it executes the same nodes at the same steps, and ends as it does; whatever
is published or told between is told at these steps.

A loop that recurses into all branches but the last, and follows that one itself, is one more way to go through the
branches.

Contents:
* `Lasts`: when what a strand has begun is over for the first time.
* `Engine.branches`, `Invocation.exit?`: where control flow goes from a node.
* `Engine.passOver`, `Engine.publishes`, `Engine.reports`: what is told and published of a node.
* `Executes`, `Recurs`: the recursive walker; `Iterates`: the loop that recurses into all branches but the last.
* `Engine.Turn.reaches`, `reached`: the nodes that the control flow of a strand reaches.
* `Invoking`: how a strand stands with an invocation.

Results:
* `iterates_iff`: the loop and the walker do the same.
* `invoking_run`: an invocation goes on, above what was in progress when it began, until it is over.
* `Executes.walks`, `Lasts.executes`: an engine that reaches a node executes it.
* `Recurs.lasts`, `Lasts.recurs`: an engine does what the walker does, and the other way round.
* `walk_recursive`: control flow is recursive.
-/

namespace Patchbay

/-! ## Where control flow goes -/

/-- The nodes that a node of a kind leads to by one output of control flow, or by all of them: the ends of the edges that
leave by these, in the order in which the edges were made. -/
def Engine.branches (e : Engine) (node : String) (k : Kind Behavior) (port : Option String) : List String :=
  (e.graph.edges.filter fun x => x.source == node && port.all (x.sourcePort == ·) &&
    k.execOutputs.any (x.sourcePort == ·.id)).map Edge.dest

theorem Engine.execTargets_eq_branches (e : Engine) (node : String) (k : Kind Behavior) (port : Option String) :
    e.execTargets node k port = e.branches node k port := by
  rw [execTargets, branches, Graph.outgoing, List.filter_filter]
  congr 2
  funext x
  have hany : (k.execOutputs.map Port.id).contains x.sourcePort = k.execOutputs.any (x.sourcePort == ·.id) := by
    rw [List.contains_eq_any_beq, List.any_map]
    rfl
  rw [hany]
  cases port <;> simp [Bool.and_comm, Bool.and_assoc]

/-- The output by which control flow leaves a node of a kind after an invocation with a result: the one that the result
names, else the one by which control flow goes on by itself, unless the behaviour has continued along outputs or asked
not to. It does not leave by an output that the behaviour has continued along. -/
def Invocation.exit? (i : Invocation) (k : Kind Behavior) (v : Value) : Option String :=
  let chosen := match v with
    | .str port => some port
    | _ => if i.advanced = [] ∧ i.halted = false ∧ k.autoContinue = true then k.defaultExecOutput else none
  chosen.filter fun port => !i.advanced.contains port

/-- Whether a result names something that is no output of control flow. -/
def Kind.misled (k : Kind Behavior) (v : Value) : Option String :=
  match v with
  | .str port => if (k.execOutput port).isNone then some port else none
  | _ => none

/-! ## What is told and published -/

/-- Whether the strand under way has a turn that makes of the engine, and of the scope of its trigger, what `f` does. -/
def Engine.Turn.Does (t t' : Engine.Turn) (f : Engine → Scope → Engine × Scope) : Prop :=
  ∃ s sig s' sig', t.next = some (s, sig) ∧ t'.next = some (s', sig') ∧ (t'.engine, s'.scope) = f t.engine s.scope

/-- The invocation by which control flow executes a node. -/
def Node.invocation (n : Node) (id : String) (k : Kind Behavior) : Invocation :=
  { serial := n.serial, node := id, kind := k, mode := .exec }

/-- What is told of a node without a behaviour: that it has started, and that it has finished. It counts as executed. -/
def Engine.passOver (i : Invocation) (e : Engine) (sc : Scope) : Engine × Scope :=
  ((e.emitStarted sc i).emitFinished sc i, { sc with executed := sc.executed + 1 })

/-- What a result publishes in a trigger: if it has outputs, these, one after another. -/
def Engine.publishes (node : String) (v : Value) (e : Engine) (sc : Scope) : Engine × Scope :=
  match v with
  | .dict es => (e, es.foldl (fun sc (port, v) => sc.publish node port v) sc)
  | _ => (e, sc)

/-- What is told of an error at a node. -/
def Engine.reports (i : Invocation) (f : Failure) (e : Engine) (sc : Scope) : Engine × Scope := ((e.report sc i f).2, sc)

/-- The error of a result that names no output of control flow. -/
def Invocation.misled (i : Invocation) (sc : Scope) (port : String) : Failure :=
  { cause := .notAnExecOutput i.node port i.kind.id
    node := some i.node
    trigger := some (.serial sc.trigger) }

/-! ## Ends -/

instance : DecidablePred Signal.Ended
  | .call _ => .isFalse id
  | .back _ | .raise _ => .isTrue trivial

/-- When what the strand `s` has begun at `a` is over for the first time, and with which signal. -/
structure Lasts (run : Nat → Engine.Turn) (s : Strand) (a c : Nat) (sig : Signal) : Prop where
  lt : a < c
  ended : sig.Ended
  resumes : (run c).Resumes s sig
  first : ∀ j, a < j → j < c → ∀ sig', sig'.Ended → ¬(run j).Resumes s sig'

/-- How control flow ends: it reaches nothing any more, or comes to an error. -/
def endOfWalk : Option Raised → Signal
  | none => .back .nothing
  | some err => .raise err

/-- When an engine comes back from control flow that the walker is over with at `c`: an error is on its way then, but an
empty agenda has still to be found. -/
def overAt (out : Option Raised) (c : Nat) : Nat := if out.isSome then c else c + 1

/-! ## Walkers -/

section Walkers

variable (run : Nat → Engine.Turn) (id : Nat)

/-- Whether a node of a kind is invoked from `a` on, and the invocation is over at `c`. -/
structure Calls (a : Nat) (node : String) (n : Node) (k : Kind Behavior) (c : Nat) (sig : Signal) : Prop where
  found : (run a).engine.nodeWithKind node = .ok (n, k)
  acts : k.behavior ≠ none
  quiet : (run a).Does (run (a + 1)) Prod.mk
  lasts : ∃ s : Strand, s.id = id ∧ (run (a + 1)).next = some (s, .call (.invoke (n.invocation node k))) ∧
    Lasts run s (a + 1) c sig

/-- What it comes to that the strand `id` executes a node from `a` on, and until when: the branches that the node leads
to, or an error. A node is looked up first; if its kind has no behaviour, it is passed over; else it is invoked, and what
the result has is published. Nothing more is told or published than that, but by the invocation. -/
inductive Executes (a : Nat) (node : String) : Nat → Except Raised (List String) → Prop
  | missing {err : Raised} (hn : (run a).engine.nodeWithKind node = .error err)
      (hquiet : (run a).Does (run (a + 1)) Prod.mk) : Executes a node (a + 1) (.error err)
  | passes {n : Node} {k : Kind Behavior} (hn : (run a).engine.nodeWithKind node = .ok (n, k)) (hb : k.behavior = none)
      (htells : (run a).Does (run (a + 1)) (Engine.passOver (n.invocation node k))) :
      Executes a node (a + 1) (.ok ((run a).engine.branches node k none))
  | fails {n : Node} {k : Kind Behavior} {c : Nat} {err : Raised} (hcalls : Calls run id a node n k c (.raise err))
      (hquiet : (run c).Does (run (c + 1)) Prod.mk) : Executes a node (c + 1) (.error err)
  | misleads {n : Node} {k : Kind Behavior} {c : Nat} {v : Value} {i : Invocation} {port : String} {s : Strand}
      (hcalls : Calls run id a node n k c (.back (.invoked v i))) (hv : k.misled v = some port)
      (hs : (run c).next = some (s, .back (.invoked v i)))
      (hreports : (run c).Does (run (c + 1)) (Engine.reports i (i.misled s.scope port))) :
      Executes a node (c + 1) (.error (.failure { i.misled s.scope port with reported := true }))
  | leads {n : Node} {k : Kind Behavior} {c : Nat} {v : Value} {i : Invocation}
      (hcalls : Calls run id a node n k c (.back (.invoked v i))) (hv : k.misled v = none)
      (hpublishes : (run c).Does (run (c + 1)) (Engine.publishes node v)) :
      Executes a node (c + 1) (.ok ((i.exit? k v).elim [] fun port => (run c).engine.branches node k (some port)))

/-- The recursive walker. Entered at `a` with some branches, it follows one after another until it is over, without an
error or with one. A branch is followed thus: unless execution is stopped, its node is executed, and then the branches
are followed that the node leads to. The nodes that have been executed are listed, each with the step at which it was
reached. -/
inductive Recurs : Nat → List String → List (Nat × String) → Nat → Option Raised → Prop
  | nil (a : Nat) : Recurs a [] [] a none
  | stopped {a b : Nat} {node : String} {rest : List String} {ns : List (Nat × String)} {out : Option Raised}
      (hrun : (run a).engine.running = false) (hrest : Recurs a rest ns b out) : Recurs a (node :: rest) ns b out
  /-- executing the node comes to an error -/
  | fails {a c : Nat} {node : String} {rest : List String} {err : Raised} (hrun : (run a).engine.running = true)
      (hnode : Executes run id a node c (.error err)) : Recurs a (node :: rest) [(a, node)] c (some err)
  /-- a branch of the node comes to an error -/
  | breaks {a c b : Nat} {node : String} {rest branches : List String} {ns : List (Nat × String)} {err : Raised}
      (hrun : (run a).engine.running = true) (hnode : Executes run id a node c (.ok branches))
      (hinto : Recurs c branches ns b (some err)) : Recurs a (node :: rest) ((a, node) :: ns) b (some err)
  | follows {a c d b : Nat} {node : String} {rest branches : List String} {ns ms : List (Nat × String)}
      {out : Option Raised} (hrun : (run a).engine.running = true) (hnode : Executes run id a node c (.ok branches))
      (hinto : Recurs c branches ns d none) (hrest : Recurs d rest ms b out) :
      Recurs a (node :: rest) ((a, node) :: ns ++ ms) b out

/-- A loop that follows control flow from a node on. As long as there is a node and execution goes on, it executes the
node, follows all branches but the last that the node leads to by loops of their own, and goes on with the last one.
Entered at `a`, it has branches to follow before it goes on, and the node that it goes on with. -/
inductive Iterates : Nat → List String → Option String → List (Nat × String) → Nat → Option Raised → Prop
  | ends (a : Nat) : Iterates a [] none [] a none
  | stopped {a : Nat} {node : String} (hrun : (run a).engine.running = false) : Iterates a [] (some node) [] a none
  | fails {a c : Nat} {node : String} {err : Raised} (hrun : (run a).engine.running = true)
      (hnode : Executes run id a node c (.error err)) : Iterates a [] (some node) [(a, node)] c (some err)
  | goesOn {a c b : Nat} {node : String} {branches : List String} {ns : List (Nat × String)} {out : Option Raised}
      (hrun : (run a).engine.running = true) (hnode : Executes run id a node c (.ok branches))
      (hnext : Iterates c branches.dropLast branches.getLast? ns b out) :
      Iterates a [] (some node) ((a, node) :: ns) b out
  | breaks {a b : Nat} {node : String} {rest : List String} {last : Option String} {ns : List (Nat × String)}
      {err : Raised} (hinto : Iterates a [] (some node) ns b (some err)) :
      Iterates a (node :: rest) last ns b (some err)
  | recurs {a d b : Nat} {node : String} {rest : List String} {last : Option String} {ns ms : List (Nat × String)}
      {out : Option Raised} (hinto : Iterates a [] (some node) ns d none) (hrest : Iterates d rest last ms b out) :
      Iterates a (node :: rest) last (ns ++ ms) b out

end Walkers

section Walkers

variable {run : Nat → Engine.Turn} {id : Nat}

namespace Recurs

variable {a b c : Nat} {xs ys : List String} {ns ms : List (Nat × String)} {out : Option Raised}

/-- Nothing is reached any more once execution is stopped. -/
theorem of_stopped (hrun : (run a).engine.running = false) (xs : List String) : Recurs run id a xs [] a none := by
  induction xs with
  | nil => exact .nil a
  | cons x xs ih => exact .stopped hrun ih

theorem append (h : Recurs run id a xs ns c none) (h' : Recurs run id c ys ms b out) :
    Recurs run id a (xs ++ ys) (ns ++ ms) b out := by
  generalize hdone : (none : Option Raised) = done at h
  induction h with
  | nil => exact h'
  | stopped hrun _ ih => exact .stopped hrun (ih h' hdone)
  | fails => cases hdone
  | breaks => cases hdone
  | follows hrun hnode hinto _ _ ih =>
    rw [List.cons_append, List.append_assoc]
    exact .follows hrun hnode hinto (ih h' hdone)

theorem append_error {err : Raised} (h : Recurs run id a xs ns b (some err)) (ys : List String) :
    Recurs run id a (xs ++ ys) ns b (some err) := by
  generalize hdone : some err = done at h ⊢
  induction h with
  | nil => cases hdone
  | stopped hrun _ ih => exact .stopped hrun (ih hdone)
  | fails hrun hnode => exact .fails hrun hnode
  | breaks hrun hnode hinto => exact .breaks hrun hnode hinto
  | follows hrun hnode hinto _ _ ih => exact .follows hrun hnode hinto (ih hdone)

/-- To follow some branches and then others is to follow the ones, and the others unless there was an error. -/
theorem of_append (h : Recurs run id a (xs ++ ys) ns b out) :
    (∃ err, out = some err ∧ Recurs run id a xs ns b (some err)) ∨
      ∃ ns₁ ns₂ c, ns = ns₁ ++ ns₂ ∧ Recurs run id a xs ns₁ c none ∧ Recurs run id c ys ns₂ b out := by
  induction xs generalizing a ns with
  | nil => exact .inr ⟨[], ns, a, rfl, .nil a, h⟩
  | cons x xs ih =>
    rw [List.cons_append] at h
    cases h with
    | stopped hrun hrest =>
      rcases ih hrest with ⟨err, rfl, hxs⟩ | ⟨ns₁, ns₂, c, rfl, hxs, hys⟩
      · exact .inl ⟨err, rfl, .stopped hrun hxs⟩
      · exact .inr ⟨ns₁, ns₂, c, rfl, .stopped hrun hxs, hys⟩
    | fails hrun hnode => exact .inl ⟨_, rfl, .fails hrun hnode⟩
    | breaks hrun hnode hinto => exact .inl ⟨_, rfl, .breaks hrun hnode hinto⟩
    | @follows _ _ _ _ _ _ _ ms _ _ hrun hnode hinto hrest =>
      rcases ih hrest with ⟨err, rfl, hxs⟩ | ⟨ns₁, ns₂, c, rfl, hxs, hys⟩
      · exact .inl ⟨err, rfl, .follows hrun hnode hinto hxs⟩
      · exact .inr ⟨_, ns₂, c, (List.append_assoc _ _ _).symm, .follows hrun hnode hinto hxs, hys⟩

/-- A node that is executed, and what it leads to before anything else. -/
theorem into {node : String} {branches rest : List String} (hrun : (run a).engine.running = true)
    (hnode : Executes run id a node c (.ok branches)) (h : Recurs run id c (branches ++ rest) ns b out) :
    Recurs run id a (node :: rest) ((a, node) :: ns) b out := by
  rcases h.of_append with ⟨err, rfl, hinto⟩ | ⟨ns₁, ns₂, d, rfl, hinto, hrest⟩
  · exact .breaks hrun hnode hinto
  · exact .follows hrun hnode hinto hrest

end Recurs

theorem dropLast_append_toList_getLast? (xs : List String) : xs.dropLast ++ xs.getLast?.toList = xs := by
  rcases List.eq_nil_or_concat xs with rfl | ⟨init, last, rfl⟩
  · rfl
  · rw [List.concat_eq_append, List.dropLast_concat, List.getLast?_concat, Option.toList_some]

/-- The first of some branches is the last one, or there are others before that. -/
theorem cases_of_append_toList {init rest : List String} {last : Option String} {node : String}
    (h : init ++ last.toList = node :: rest) :
    init = [] ∧ last = some node ∧ rest = [] ∨ ∃ init', init = node :: init' ∧ init' ++ last.toList = rest := by
  cases init with
  | nil =>
    cases last with
    | none => cases h
    | some x =>
      obtain ⟨rfl, hrest⟩ := List.cons.inj h
      exact .inl ⟨rfl, rfl, hrest.symm⟩
  | cons x init =>
    obtain ⟨rfl, hrest⟩ := List.cons.inj h
    exact .inr ⟨init, rfl, hrest⟩

/-- The loop that goes on with the last branch does what the recursive walker does. -/
theorem iterates_iff {a b : Nat} {init : List String} {last : Option String} {ns : List (Nat × String)}
    {out : Option Raised} :
    Iterates run id a init last ns b out ↔ Recurs run id a (init ++ last.toList) ns b out := by
  constructor
  · intro h
    induction h with
    | ends a => exact .nil a
    | stopped hrun => exact .stopped hrun (.nil _)
    | fails hrun hnode => exact .fails hrun hnode
    | goesOn hrun hnode _ ih =>
      rw [dropLast_append_toList_getLast?] at ih
      exact .into hrun hnode (by rwa [List.append_nil])
    | breaks _ ih => exact ih.append_error _
    | recurs _ _ ih ih' => exact ih.append ih'
  · intro h
    generalize hbs : init ++ last.toList = bs at h
    induction h generalizing init last with
    | nil a =>
      obtain ⟨rfl, hlast⟩ := List.append_eq_nil_iff.mp hbs
      cases last with
      | none => exact .ends a
      | some x => cases hlast
    | stopped hrun hrest ih =>
      rcases cases_of_append_toList hbs with ⟨rfl, rfl, rfl⟩ | ⟨init, rfl, hinit⟩
      · cases hrest
        exact .stopped hrun
      · exact .recurs (.stopped hrun) (ih hinit)
    | fails hrun hnode =>
      rcases cases_of_append_toList hbs with ⟨rfl, rfl, rfl⟩ | ⟨init, rfl, -⟩
      · exact .fails hrun hnode
      · exact .breaks (.fails hrun hnode)
    | @breaks _ _ _ _ _ branches _ _ hrun hnode _ ih =>
      have hnext := Iterates.goesOn hrun hnode (ih (dropLast_append_toList_getLast? branches))
      rcases cases_of_append_toList hbs with ⟨rfl, rfl, rfl⟩ | ⟨init, rfl, -⟩
      · exact hnext
      · exact .breaks hnext
    | @follows _ _ _ _ _ _ branches _ _ _ hrun hnode _ hrest ih ih' =>
      have hnext := Iterates.goesOn hrun hnode (ih (dropLast_append_toList_getLast? branches))
      rcases cases_of_append_toList hbs with ⟨rfl, rfl, rfl⟩ | ⟨init, rfl, hinit⟩
      · cases hrest
        rwa [List.append_nil]
      · exact .recurs hnext (ih' hinit)

end Walkers

/-! ## The nodes that are reached -/

/-- The node that the control flow of a strand reaches at a turn above a number of frames, while execution goes on. -/
def Engine.Turn.reaches (t : Engine.Turn) (id height : Nat) : Option String :=
  match t.next with
  | some (s, .call (.walk (node :: _))) =>
    if s.id = id ∧ s.frames.length = height ∧ t.engine.running = true then some node else none
  | _ => none

/-- The nodes that the control flow of a strand reaches above a number of frames from `a` until before `b`, each with the
step at which it does. -/
def reached (run : Nat → Engine.Turn) (id height a b : Nat) : List (Nat × String) :=
  (List.range' a (b - a)).filterMap fun k => ((run k).reaches id height).map fun node => (k, node)

section Reached

variable {run : Nat → Engine.Turn} {id height a b c : Nat}

theorem reached_append (hab : a ≤ b) (hbc : b ≤ c) :
    reached run id height a c = reached run id height a b ++ reached run id height b c := by
  rw [reached, reached, reached, ← List.filterMap_append]
  have hb : b = a + (b - a) := by omega
  have hsum : c - a = (b - a) + (c - b) := by omega
  conv_rhs => rw [show List.range' b (c - b) = List.range' (a + 1 * (b - a)) (c - b) by rw [Nat.one_mul, ← hb]]
  rw [List.range'_append, ← hsum]

theorem reached_eq_nil (h : ∀ k, a ≤ k → k < b → (run k).reaches id height = none) : reached run id height a b = [] := by
  rw [reached, List.filterMap_eq_nil_iff]
  intro k hk
  rw [List.mem_range'_1] at hk
  rw [h k hk.1 (by omega), Option.map_none]

theorem reached_self (a : Nat) : reached run id height a a = [] := reached_eq_nil fun k hk hk' => absurd hk' (by omega)

/-- A node that is reached, and no other one before `c`. -/
theorem reached_cons {node : String} (hac : a < c) (hcb : c ≤ b) (hnode : (run a).reaches id height = some node)
    (hnone : ∀ k, a < k → k < c → (run k).reaches id height = none) :
    reached run id height a b = (a, node) :: reached run id height c b := by
  have hone : reached run id height a (a + 1) = [(a, node)] := by
    rw [reached, Nat.add_sub_cancel_left]
    simp [hnode]
  rw [reached_append hac.le hcb, reached_append (Nat.le_succ a) hac, hone, reached_eq_nil fun k hk hkc => hnone k hk hkc]
  rfl

end Reached

/-! ## Invocations -/

/-- How a strand stands with an invocation of a node that it has begun above the frames `base`. -/
inductive Invoking (node : String) (kind : Kind Behavior) (base : List Frame) : Strand × Parked → Prop
  | begins {s : Strand} {i : Invocation} (hi : i.node = node ∧ i.kind = kind) (hf : s.frames = base) :
      Invoking node kind base (s, .turn (.call (.invoke i)))
  | behaves {s : Strand} {i : Invocation} {script : Script} (hi : i.node = node ∧ i.kind = kind) (hf : s.frames = base) :
      Invoking node kind base (s, .turn (.call (.behave i script)))
  /-- its behaviour waits for something -/
  | waits {s : Strand} {p : Parked} {i : Invocation} {w : Wait} {k : Except Raised w.Reply → Script} {pre : List Frame}
      (hi : i.node = node ∧ i.kind = kind) (hf : s.frames = pre ++ .behavior i w k :: base) :
      Invoking node kind base (s, p)
  | returns {s : Strand} {v : Value} {i : Invocation} (hi : i.node = node ∧ i.kind = kind) (hf : s.frames = base) :
      Invoking node kind base (s, .turn (.back (.invoked v i)))
  | raises {s : Strand} {err : Raised} (hf : s.frames = base) : Invoking node kind base (s, .turn (.raise err))

/-- A query leaves an invocation one of its node. -/
theorem Engine.perform_invocation (e : Engine) (i : Invocation) (sc : Scope) (q : Query) :
    (e.perform i sc q).invocation.node = i.node ∧ (e.perform i sc q).invocation.kind = i.kind := by
  cases q <;> simp [perform, registering]

namespace Invoking

variable {e : Engine} {s : Strand} {sig : Signal} {b : Book} {node : String} {kind : Kind Behavior} {base : List Frame}

theorem length_le {x : Strand × Parked} (h : Invoking node kind base x) : base.length ≤ x.1.frames.length := by
  cases h with
  | waits hi hf => simp [hf]; omega
  | begins hi hf | behaves hi hf | returns hi hf | raises hf => exact hf ▸ le_rfl

/-- A strand that is taken up goes on with its invocation. -/
theorem unpark {p : Parked} (h : Invoking node kind base (s, p)) (e : Engine) :
    Invoking node kind base (s, .turn (e.unpark p).1) := by
  cases h with
  | waits hi hf => exact .waits hi hf
  | begins hi hf => exact .begins hi hf
  | behaves hi hf => exact .behaves hi hf
  | returns hi hf => exact .returns hi hf
  | raises hf => exact .raises hf

/-- An error ends an invocation. -/
theorem failInvocation (e : Engine) (s : Strand) (i : Invocation) (err : Raised) (hf : s.frames = base) :
    ∃ x ∈ (e.failInvocation s i err).population, x.1.id = s.id ∧ Invoking node kind base x := by
  unfold Engine.failInvocation
  split
  · split
    · exact ⟨_, List.mem_cons_self, rfl, .raises hf⟩
    · exact ⟨_, List.mem_cons_self, rfl, .raises hf⟩
  · exact ⟨_, List.mem_cons_self, rfl, .raises hf⟩
  · exact ⟨_, List.mem_cons_self, rfl, .raises hf⟩

/-- A behaviour begins to wait. -/
theorem awaitFor (e : Engine) (s : Strand) (i : Invocation) (w : Wait) (k : Except Raised w.Reply → Script)
    (hi : i.node = node ∧ i.kind = kind) (hf : s.frames = base) :
    ∃ x ∈ (e.awaitFor s i w k).population, x.1.id = s.id ∧ Invoking node kind base x := by
  subst hf
  cases w with
  | pull port => exact ⟨_, List.mem_cons_self, rfl, .waits hi (List.nil_append _).symm⟩
  | advance port =>
    simp only [Engine.awaitFor]
    split
    · exact ⟨_, List.mem_cons_self, rfl, .behaves hi rfl⟩
    · exact ⟨_, List.mem_cons_self, rfl,
        .waits (i := { i with advanced := i.advanced ++ [port] }) hi (List.nil_append _).symm⟩
  | checkpoint => exact ⟨_, List.mem_cons_self, rfl, .waits hi (List.nil_append _).symm⟩
  | sleep seconds =>
    simp only [Engine.awaitFor]
    split
    · exact ⟨_, List.mem_cons_self, rfl, .behaves hi rfl⟩
    · exact ⟨_, List.mem_cons_self, rfl, .waits hi (List.nil_append _).symm⟩

/-- One step of a behaviour. -/
theorem behave (e : Engine) (s : Strand) (i : Invocation) (script : Script) (hi : i.node = node ∧ i.kind = kind)
    (hf : s.frames = base) :
    ∃ x ∈ (e.behave s i script).population, x.1.id = s.id ∧ Invoking node kind base x := by
  cases script with
  | finish v => exact ⟨_, List.mem_cons_self, rfl, .returns hi hf⟩
  | fail err => exact failInvocation e s i err hf
  | again state =>
    simp only [Engine.behave]
    split
    · exact ⟨_, List.mem_cons_self, rfl, .behaves hi hf⟩
    · exact failInvocation e s i (.fault .type) hf
  | ask q k =>
    obtain ⟨hnode, hkind⟩ := e.perform_invocation i s.scope q
    exact ⟨_, List.mem_cons_self, rfl, .behaves ⟨hnode.trans hi.1, hkind.trans hi.2⟩ hf⟩
  | wait w k => exact awaitFor e s i w k hi hf
  | edit c k => exact ⟨_, List.mem_cons_self, rfl, .behaves hi hf⟩

/-- The turn of a strand with an invocation that is not over. -/
theorem turn (h : Invoking node kind base (s, .turn sig)) (hs : Sits b (s, .turn sig))
    (hgoes : ¬(s.frames = base ∧ sig.Ended)) (e : Engine) :
    ∃ x ∈ (e.turn s sig).population, x.1.id = s.id ∧ Invoking node kind base x := by
  cases h with
  | returns hi hf | raises hf => exact absurd ⟨hf, trivial⟩ hgoes
  | @begins _ i hi hf =>
    show ∃ x ∈ (e.invoke s i).population, _
    unfold Engine.invoke
    split
    · exact ⟨_, List.mem_cons_self, rfl, .behaves hi hf⟩
    · exact failInvocation _ s i (.fault .type) hf
  | @behaves _ i script hi hf => exact behave e s i script hi hf
  | @waits _ _ i w k pre hi hf =>
    -- what comes back to the behaviour lets it go on; anything else goes on above it
    have hgoesOn : ∀ pre', sig.below s.frames = pre' ++ .behavior i w k :: base →
        ∃ x ∈ (e.turn s sig).population, x.1.id = s.id ∧ Invoking node kind base x := by
      intro pre' hbelow
      have htop : ∀ f, sig.top s.frames = some f → ¬f.Outer := by
        intro f hfirst hout
        cases sig with
        | call c => cases hfirst
        | back | raise =>
          obtain ⟨rest, hrest⟩ : ∃ rest, s.frames = f :: rest := List.head?_eq_some_iff.mp hfirst
          exact hs.outer_of_outer hrest hout (.behavior i w k) (by simp [hf])
      obtain ⟨own, news, hpop, -, -, hown, hover⟩ := (turn_passes e s sig).population
      cases own with
      | none =>
        rcases hover rfl with ⟨f, hfirst, hout⟩ | ⟨-, hnil⟩
        · exact absurd hout (htop f hfirst)
        · rw [hbelow] at hnil
          simp at hnil
      | some x =>
        rcases hown x rfl with hheir | ⟨hsession, -⟩
        · obtain ⟨pushed, hpushed, -⟩ := hheir.frames
          have hfx : x.1.frames = (pushed ++ pre') ++ .behavior i w k :: base := by
            rw [hpushed, hbelow, List.append_assoc]
          exact ⟨x, by simp [hpop], hheir.id, .waits hi hfx⟩
        · exact absurd trivial (htop _ hsession)
    cases sig with
    | call c => exact hgoesOn pre hf
    | back r =>
      cases pre with
      | nil =>
        rw [Engine.turn_back hf]
        show ∃ x ∈ (e.resumeBehavior _ i w k r).population, _
        unfold Engine.resumeBehavior
        split <;> exact ⟨_, List.mem_cons_self, rfl, .behaves hi rfl⟩
      | cons f pre => exact hgoesOn pre (by simp [Signal.below, hf])
    | raise err =>
      cases pre with
      | nil =>
        rw [Engine.turn_raise hf]
        exact ⟨_, List.mem_cons_self, rfl, .behaves hi rfl⟩
      | cons f pre => exact hgoesOn pre (by simp [Signal.below, hf])

end Invoking

/-- One step of an engine, with an invocation that is not over. -/
theorem Invoking.beat {t t' : Engine.Turn} (h : Staffed t) (hb : Beat t t') (hsits : ∀ x ∈ t.population, ∃ b, Sits b x)
    {node : String} {kind : Kind Behavior} {base : List Frame} {x : Strand × Parked} (hx : x ∈ t.population)
    (hi : Invoking node kind base x) (hgoes : ∀ sig, t.next = some (x.1, sig) → ¬(x.1.frames = base ∧ sig.Ended)) :
    ∃ y ∈ t'.population, y.1.id = x.1.id ∧ Invoking node kind base y := by
  obtain ⟨s, p⟩ := x
  rcases hb.track h hx with ⟨sig, hn, hp, rfl⟩ | ⟨-, hx', -⟩ | ⟨e, -, -, -, rfl⟩
  · obtain rfl : p = .turn sig := hp
    obtain ⟨b, hsit⟩ := hsits _ hx
    exact hi.turn hsit (hgoes sig hn) t.engine
  · exact ⟨_, hx', rfl, hi⟩
  · exact ⟨_, List.mem_cons_self, rfl, hi.unpark e⟩

/-- Whether a strand is at work on an invocation that it has begun, or has just ended it. -/
def Engine.Turn.Invokes (t : Engine.Turn) (s : Strand) (i : Invocation) : Prop :=
  ∃ x ∈ t.population, x.1.id = s.id ∧ Invoking i.node i.kind s.frames x

theorem Engine.Turn.Invokes.length_le {t : Engine.Turn} (h : Staffed t) {s s' : Strand} {i : Invocation} {sig : Signal}
    (hi : t.Invokes s i) (hn : t.next = some (s', sig)) (hid : s'.id = s.id) : s.frames.length ≤ s'.frames.length := by
  obtain ⟨x, hx, hxid, hinv⟩ := hi
  obtain rfl := h.unique hx (Engine.Turn.mem_population_of_next hn) (hxid.trans hid.symm)
  exact hinv.length_le

/-- An invocation ends with a result, for its node, or with an error. -/
theorem Engine.Turn.Invokes.ends {t : Engine.Turn} (h : Staffed t) {s : Strand} {i : Invocation} {sig : Signal}
    (hi : t.Invokes s i) (hended : sig.Ended) (hr : t.Resumes s sig) :
    (∃ v i', sig = .back (.invoked v i') ∧ i'.node = i.node ∧ i'.kind = i.kind) ∨ ∃ err, sig = .raise err := by
  obtain ⟨x, hx, hxid, hinv⟩ := hi
  obtain ⟨s', hn, hid, hf⟩ := hr
  obtain rfl := h.unique hx (Engine.Turn.mem_population_of_next hn) (hxid.trans hid.symm)
  cases hinv with
  | begins | behaves => exact hended.elim
  | returns hi => exact .inl ⟨_, _, rfl, hi.1, hi.2⟩
  | raises => exact .inr ⟨_, rfl⟩
  | waits _ hpre =>
    have hlength := congrArg List.length (hf.symm.trans hpre)
    simp at hlength
    omega

section Runs

variable {run : Nat → Engine.Turn} {n a b c : Nat} {s : Strand} {sig : Signal}

/-- What a strand has begun is over for the first time once. -/
theorem Lasts.unique (h : Lasts run s a c sig) {c' : Nat} {sig' : Signal} (h' : Lasts run s a c' sig') :
    c = c' ∧ sig = sig' := by
  obtain rfl : c = c' := by
    rcases Nat.lt_trichotomy c c' with hlt | heq | hlt
    · exact absurd h.resumes (h'.first c h.lt hlt sig h.ended)
    · exact heq
    · exact absurd h'.resumes (h.first c' h'.lt hlt sig' h'.ended)
  obtain ⟨s₁, hn, -⟩ := h.resumes
  obtain ⟨s₂, hn', -⟩ := h'.resumes
  rw [hn] at hn'
  exact ⟨rfl, (Prod.mk.inj (Option.some.inj hn')).2⟩

/-- An invocation goes on, above what was in progress when it began, until it is over for the first time. -/
theorem invoking_run (hopens : Opens (run 0)) (hbeats : ∀ k < n, Beat (run k) (run (k + 1))) {i : Invocation}
    (hn : (run a).next = some (s, .call (.invoke i))) {m : Nat} (ham : a ≤ m) (hm : m ≤ n) :
    (∀ j, a ≤ j → j ≤ m → (run j).Invokes s i ∧ ∀ sig, sig.Ended → ¬(run j).Resumes s sig) ∨
      ∃ c ≤ m, (∀ j, a ≤ j → j ≤ c → (run j).Invokes s i) ∧ ∃ sig, Lasts run s a c sig := by
  -- once it is over nothing is left to show, so only the last of the steps matters
  induction m, ham using Nat.le_induction with
  | base =>
    refine .inl fun j haj hja => ?_
    obtain rfl := Nat.le_antisymm haj hja
    refine ⟨⟨_, Engine.Turn.mem_population_of_next hn, rfl, .begins ⟨rfl, rfl⟩ rfl⟩, ?_⟩
    rintro sig hended ⟨s', hn', -⟩
    rw [hn] at hn'
    obtain ⟨-, rfl⟩ := Prod.mk.inj (Option.some.inj hn')
    exact hended
  | succ m ham ih =>
    rcases ih (Nat.le_of_succ_le hm) with hgoes | ⟨c, hcm, hover⟩
    · obtain ⟨⟨x, hx, hid, hi⟩, hnot⟩ := hgoes m ham le_rfl
      have hinvokes : (run (m + 1)).Invokes s i := by
        obtain ⟨y, hy, hyid, hyi⟩ := hi.beat (staffed_run hopens hbeats (Nat.le_of_succ_le hm)) (hbeats m hm)
          (sits_run hopens hbeats (Nat.le_of_succ_le hm)) hx fun sig hnext hends =>
            hnot sig hends.2 ⟨x.1, hnext, hid, hends.1⟩
        exact ⟨y, hy, hyid.trans hid, hyi⟩
      have hall : ∀ j, a ≤ j → j ≤ m + 1 → (run j).Invokes s i := by
        intro j haj hjm
        rcases Nat.le_succ_iff.mp hjm with hjm | rfl
        · exact (hgoes j haj hjm).1
        · exact hinvokes
      by_cases hover : ∃ sig, sig.Ended ∧ (run (m + 1)).Resumes s sig
      · obtain ⟨sig, hended, hresumes⟩ := hover
        exact .inr ⟨m + 1, le_rfl, hall, sig, Nat.lt_succ_of_le ham, hended, hresumes,
          fun j haj hjm => (hgoes j haj.le (Nat.lt_succ_iff.mp hjm)).2⟩
      · refine .inl fun j haj hjm => ⟨hall j haj hjm, ?_⟩
        rcases Nat.le_succ_iff.mp hjm with hjm | rfl
        · exact (hgoes j haj hjm).2
        · exact fun sig hended hresumes => hover ⟨sig, hended, hresumes⟩
    · exact .inr ⟨c, Nat.le_succ_of_le hcm, hover⟩

/-- An invocation that is over has been in progress all along. -/
theorem Lasts.invokes (hopens : Opens (run 0)) (hbeats : ∀ k < n, Beat (run k) (run (k + 1))) {i : Invocation}
    (hn : (run a).next = some (s, .call (.invoke i))) (h : Lasts run s a c sig) (hc : c ≤ n) {j : Nat} (haj : a ≤ j)
    (hjc : j ≤ c) : (run j).Invokes s i := by
  rcases invoking_run hopens hbeats hn h.lt.le hc with hgoes | ⟨c', -, hall, sig', h'⟩
  · exact (hgoes j haj hjc).1
  · obtain ⟨rfl, -⟩ := h.unique h'
    exact hall j haj hjc

end Runs

/-! ## What an engine does -/

namespace Engine

variable (e : Engine) (s : Strand) (i : Invocation) {v : Value} (rest : List String)

/-- A result that names no output of control flow is reported as an error. -/
theorem continueFrom_of_misled {port : String} (h : i.kind.misled v = some port) :
    e.continueFrom s i v rest = (e.report s.scope i (i.misled s.scope port)).2.go s
      (.raise (.failure { i.misled s.scope port with reported := true })) := by
  cases v with
  | str p =>
    simp only [Kind.misled] at h
    split at h
    · next hnone =>
      obtain rfl := Option.some.inj h
      simp only [continueFrom, Option.isNone_iff_eq_none.mp hnone]
      rfl
    · cases h
  | _ => cases h

/-- Else its outputs are published, and control flow goes on with the branches that the node leads to. -/
theorem continueFrom_of_leads (h : i.kind.misled v = none) :
    e.continueFrom s i v rest = e.go { s with scope := (publishes i.node v e s.scope).2 }
      (.call (.walk (((i.exit? i.kind v).elim [] fun port => e.branches i.node i.kind (some port)) ++ rest))) := by
  have hfollow : ∀ port, ((some port).filter fun p => !i.advanced.contains p).elim []
      (fun p => e.branches i.node i.kind (some p)) =
      if i.advanced.contains port then [] else e.execTargets i.node i.kind (some port) := by
    intro port
    rw [execTargets_eq_branches, Option.filter_some]
    cases i.advanced.contains port <;> rfl
  have hexit : (if i.advanced = [] ∧ i.halted = false ∧ i.kind.autoContinue = true then i.kind.defaultExecOutput
      else none) = defaultExit i := by
    simp [defaultExit, and_assoc]
  cases v with
  | str port =>
    obtain ⟨q, hq⟩ : ∃ q, i.kind.execOutput port = some q := by
      rw [← Option.ne_none_iff_exists']
      simpa [Kind.misled] using h
    simp only [continueFrom, hq, Invocation.exit?, hfollow]
    rfl
  | _ =>
    simp only [continueFrom, Invocation.exit?, hexit]
    cases defaultExit i with
    | none => rfl
    | some port =>
      simp only [hfollow]
      rfl

end Engine

/-- How control flow goes on from a node, before the branches that are left. -/
def goesOnWith (rest : List String) : Except Raised (List String) → Signal
  | .ok branches => .call (.walk (branches ++ rest))
  | .error err => .raise err

/-- Whether a strand is neither done with what it has begun nor reaches a node by it between two steps. -/
def Still (run : Nat → Engine.Turn) (s : Strand) (a c : Nat) : Prop :=
  ∀ j, a < j → j < c → (∀ sig, sig.Ended → ¬(run j).Resumes s sig) ∧ (run j).reaches s.id s.frames.length = none

theorem Still.succ {run : Nat → Engine.Turn} {s : Strand} (a : Nat) : Still run s a (a + 1) :=
  fun j haj hjc => absurd hjc (by omega)

/-- A strand that is at work above some frames is not done with what it has begun above fewer ones. -/
theorem Engine.Turn.Invokes.still {t : Engine.Turn} (h : Staffed t) {s s' : Strand} {i : Invocation}
    (hi : t.Invokes s' i) (hid : s'.id = s.id) (hlength : s.frames.length < s'.frames.length) :
    (∀ sig, sig.Ended → ¬t.Resumes s sig) ∧ t.reaches s.id s.frames.length = none := by
  have hlow : ∀ x sig, t.next = some (x, sig) → x.id = s.id → s.frames.length < x.frames.length :=
    fun x sig hn hx => hlength.trans_le (hi.length_le h hn (hx.trans hid.symm))
  constructor
  · rintro sig - ⟨x, hn, hx, hf⟩
    have := hlow x sig hn hx
    rw [hf] at this
    omega
  · unfold Engine.Turn.reaches
    split
    · next x node rest hn =>
      rw [if_neg]
      rintro ⟨hx, hf, -⟩
      have := hlow x _ hn hx
      omega
    · rfl

section Runs

variable {run : Nat → Engine.Turn} {n a b c : Nat} {s : Strand} {sig : Signal} {node : String} {rest : List String}

/-- While a node is invoked, its invocation is above the control flow that has reached it. -/
theorem Calls.walks (hopens : Opens (run 0)) (hbeats : ∀ k < n, Beat (run k) (run (k + 1))) {m : Node}
    {k : Kind Behavior} (h : Calls run s.id a node m k c sig) (hc : c < n)
    (hwalk : (run a).Resumes s (.call (.walk (node :: rest)))) (hrun : (run a).engine.running = true) :
    a < c ∧ Still run s a (c + 1) ∧
      ∃ s' : Strand, (run c).next = some (s', sig) ∧ s'.id = s.id ∧ s'.frames = .walk rest :: s.frames := by
  obtain ⟨hfound, hacts, -, s₁, hid₁, hn₁, hlasts⟩ := h
  obtain ⟨s₀, hn₀, hid₀, hf₀⟩ := hwalk
  have hac := hlasts.lt
  obtain ⟨bhv, hb⟩ := Option.ne_none_iff_exists'.mp hacts
  have hf₁ : s₁.frames = .walk rest :: s.frames := by
    have hturn := (hbeats a (by omega)).play.eq_turn hn₀
    have hnest : run (a + 1) = (run a).engine.nest s₀ (.walk rest) (.invoke (m.invocation node k)) := by
      rw [hturn]
      simp only [Engine.turn, Engine.call, Engine.walk, hrun, hfound, hb, Bool.not_true, Bool.false_eq_true, if_false]
      rfl
    rw [hnest] at hn₁
    obtain ⟨rfl, -⟩ := Prod.mk.inj (Option.some.inj hn₁)
    rw [← hf₀]
  refine ⟨by omega, fun j haj hjc => ?_, ?_⟩
  · exact (hlasts.invokes hopens hbeats hn₁ hc.le haj (by omega)).still (staffed_run hopens hbeats (by omega)) hid₁
      (by simp [hf₁])
  · obtain ⟨s', hn', hid', hf'⟩ := hlasts.resumes
    exact ⟨s', hn', hid'.trans hid₁, hf'.trans hf₁⟩

/-- What an invocation that control flow has begun comes back with is about its node. -/
theorem Calls.invocation (hopens : Opens (run 0)) (hbeats : ∀ k < n, Beat (run k) (run (k + 1))) {id : Nat} {m : Node}
    {k : Kind Behavior} {v : Value} {i : Invocation} (h : Calls run id a node m k c (.back (.invoked v i)))
    (hc : c ≤ n) : i.node = node ∧ i.kind = k := by
  obtain ⟨-, -, -, s₁, -, hn₁, hlasts⟩ := h
  have hinvokes := hlasts.invokes hopens hbeats hn₁ hc hlasts.lt.le le_rfl
  rcases hinvokes.ends (staffed_run hopens hbeats hc) hlasts.ended hlasts.resumes with ⟨v', i', heq, hi⟩ | ⟨err, heq⟩
  · cases heq
    exact hi
  · cases heq

/-- An engine that reaches a node executes it, and goes on as that comes to. -/
theorem Executes.walks (hopens : Opens (run 0)) (hbeats : ∀ k < n, Beat (run k) (run (k + 1)))
    {r : Except Raised (List String)} (h : Executes run s.id a node c r) (hc : c ≤ n)
    (hwalk : (run a).Resumes s (.call (.walk (node :: rest)))) (hrun : (run a).engine.running = true) :
    a < c ∧ Still run s a c ∧ (run c).Resumes s (goesOnWith rest r) := by
  obtain ⟨s₀, hn₀, hid₀, hf₀⟩ := id hwalk
  cases h with
  | missing hn hquiet =>
    refine ⟨Nat.lt_succ_self a, Still.succ a, s₀, ?_, hid₀, hf₀⟩
    rw [(hbeats a hc).play.eq_turn hn₀]
    simp only [Engine.turn, Engine.call, Engine.walk, hrun, hn, Bool.not_true, Bool.false_eq_true, if_false]
    rfl
  | @passes m k hn hb =>
    refine ⟨Nat.lt_succ_self a, Still.succ a,
      { s₀ with scope := { s₀.scope with executed := s₀.scope.executed + 1 } }, ?_, hid₀, hf₀⟩
    rw [(hbeats a hc).play.eq_turn hn₀, ← Engine.execTargets_eq_branches]
    simp only [Engine.turn, Engine.call, Engine.walk, hrun, hn, hb, Bool.not_true, Bool.false_eq_true, if_false]
    rfl
  | @fails m k c err hcalls =>
    obtain ⟨hac, hstill, s', hn', hid', hf'⟩ := hcalls.walks hopens hbeats hc hwalk hrun
    refine ⟨by omega, hstill, { s' with frames := s.frames }, ?_, hid', rfl⟩
    rw [(hbeats c hc).play.eq_turn hn', Engine.turn_raise hf']
    rfl
  | @misleads m k c v i port s'' hcalls hv hs =>
    obtain ⟨hac, hstill, s', hn', hid', hf'⟩ := hcalls.walks hopens hbeats hc hwalk hrun
    obtain ⟨rfl, rfl⟩ := hcalls.invocation hopens hbeats (Nat.le_of_succ_le hc)
    obtain ⟨rfl, -⟩ := Prod.mk.inj (Option.some.inj (hn'.symm.trans hs))
    refine ⟨by omega, hstill, { s' with frames := s.frames }, ?_, hid', rfl⟩
    rw [(hbeats c hc).play.eq_turn hn', Engine.turn_back hf']
    simp only [Engine.back, Engine.continueFrom_of_misled _ _ _ _ hv]
    rfl
  | @leads m k c v i hcalls hv =>
    obtain ⟨hac, hstill, s', hn', hid', hf'⟩ := hcalls.walks hopens hbeats hc hwalk hrun
    obtain ⟨rfl, rfl⟩ := hcalls.invocation hopens hbeats (Nat.le_of_succ_le hc)
    refine ⟨by omega, hstill, ?_⟩
    rw [(hbeats c hc).play.eq_turn hn', Engine.turn_back hf']
    simp only [Engine.back, Engine.continueFrom_of_leads _ _ _ _ hv]
    exact ⟨_, rfl, hid', rfl⟩

/-- A node that is reached is executed, if what the control flow belongs to is ever over. -/
theorem Lasts.executes (hopens : Opens (run 0)) (hbeats : ∀ k < n, Beat (run k) (run (k + 1)))
    (h : Lasts run s a b sig) (hb : b ≤ n) (hwalk : (run a).Resumes s (.call (.walk (node :: rest))))
    (hrun : (run a).engine.running = true) : ∃ c r, c ≤ b ∧ Executes run s.id a node c r := by
  have hab := h.lt
  obtain ⟨s₀, hn₀, hid₀, hf₀⟩ := hwalk
  have hcases := (run a).engine.walk_cases s₀ (node :: rest)
  have hturn : run (a + 1) = (run a).engine.walk s₀ (node :: rest) := (hbeats a (by omega)).play.eq_turn hn₀
  rw [← hturn] at hcases
  generalize hnext : run (a + 1) = t at hcases
  cases hcases with
  | stopped hstopped => exact absurd (hstopped.symm.trans hrun) Bool.false_ne_true
  | unknown _ hn =>
    exact ⟨a + 1, _, hab, .missing hn ⟨s₀, _, s₀, _, hn₀, by rw [hnext]; rfl, by rw [hnext]; rfl⟩⟩
  | passes _ hn hbhv =>
    exact ⟨a + 1, _, hab, .passes hn hbhv ⟨s₀, _, _, _, hn₀, by rw [hnext]; rfl, by rw [hnext]; rfl⟩⟩
  | @invokes _ _ m k bhv _ hn hbhv =>
    have hn₁ : (run (a + 1)).next = some ({ s₀ with frames := .walk rest :: s₀.frames },
        .call (.invoke (m.invocation node k))) := by
      rw [hnext]
      rfl
    have hquiet : (run a).Does (run (a + 1)) Prod.mk := ⟨s₀, _, _, _, hn₀, hn₁, by rw [hnext]; rfl⟩
    -- what the control flow belongs to is not over while the invocation goes on above it
    have hbusy : ∀ j ≤ n,
        (run j).Invokes { s₀ with frames := .walk rest :: s₀.frames } (m.invocation node k) → j ≠ b := by
      rintro j hj hinvokes rfl
      exact (hinvokes.still (staffed_run hopens hbeats hj) hid₀ (by simp [hf₀])).1 sig h.ended h.resumes
    rcases invoking_run hopens hbeats hn₁ hab hb with hgoes | ⟨c, hcb, hall, sig', hlasts⟩
    · exact absurd rfl (hbusy b hb (hgoes b hab le_rfl).1)
    · have hinvokes := hall c hlasts.lt.le le_rfl
      have hlt : c < b := lt_of_le_of_ne hcb (hbusy c (hcb.trans hb) hinvokes)
      have hcalls : Calls run s.id a node m k c sig' :=
        ⟨hn, by simp [hbhv], hquiet, { s₀ with frames := .walk rest :: s₀.frames }, hid₀, hn₁, hlasts⟩
      obtain ⟨s', hn', -, hf'⟩ := hlasts.resumes
      have hturn' := (hbeats c (by omega)).play.eq_turn hn'
      rcases hinvokes.ends (staffed_run hopens hbeats (hcb.trans hb)) hlasts.ended hlasts.resumes with
        ⟨v, i, rfl, hi, hk⟩ | ⟨err, rfl⟩
      · obtain rfl : i.node = node := hi
        obtain rfl : i.kind = k := hk
        rw [Engine.turn_back hf'] at hturn'
        cases hv : i.kind.misled v with
        | some port =>
          simp only [Engine.back, Engine.continueFrom_of_misled _ _ _ _ hv] at hturn'
          exact ⟨c + 1, _, hlt, .misleads hcalls hv hn' ⟨s', _, _, _, hn', by rw [hturn']; rfl, by rw [hturn']; rfl⟩⟩
        | none =>
          simp only [Engine.back, Engine.continueFrom_of_leads _ _ _ _ hv] at hturn'
          exact ⟨c + 1, _, hlt, .leads hcalls hv ⟨s', _, _, _, hn', by rw [hturn']; rfl, by
            rw [hturn']
            cases v <;> rfl⟩⟩
      · rw [Engine.turn_raise hf'] at hturn'
        exact ⟨c + 1, _, hlt, .fails hcalls ⟨s', _, _, _, hn', by rw [hturn']; rfl, by rw [hturn']; rfl⟩⟩

/-! ## Recursion -/

/-- Whether what a strand has begun is not over from `a` on until before `b`. -/
def Unended (run : Nat → Engine.Turn) (s : Strand) (a b : Nat) : Prop :=
  ∀ j, a ≤ j → j < b → ∀ sig, sig.Ended → ¬(run j).Resumes s sig

theorem Unended.self (run : Nat → Engine.Turn) (s : Strand) (a : Nat) : Unended run s a a :=
  fun j haj hja => absurd hja (by omega)

theorem Unended.append (h : Unended run s a c) (h' : Unended run s c b) : Unended run s a b := by
  intro j haj hjb
  rcases Nat.lt_or_ge j c with hjc | hcj
  · exact h j haj hjc
  · exact h' j hcj hjb

/-- Control flow that has nothing to reach any more comes to its end. -/
theorem ends_of_walk (hbeats : ∀ k < n, Beat (run k) (run (k + 1))) (ha : a < n) {agenda : List String}
    (hwalk : (run a).Resumes s (.call (.walk agenda))) (hover : agenda = [] ∨ (run a).engine.running = false) :
    (run (a + 1)).Resumes s (.back .nothing) := by
  obtain ⟨s₀, hn₀, hid₀, hf₀⟩ := hwalk
  refine ⟨s₀, ?_, hid₀, hf₀⟩
  rw [(hbeats a ha).play.eq_turn hn₀]
  rcases hover with rfl | hstopped
  · rfl
  · cases agenda with
    | nil => rfl
    | cons x xs =>
      simp only [Engine.turn, Engine.call, Engine.walk, hstopped, Bool.not_false, if_true]
      rfl

/-- Control flow that comes to its end reaches no node. -/
theorem reaches_of_walk {agenda : List String} (hwalk : (run a).Resumes s (.call (.walk agenda)))
    (hover : agenda = [] ∨ (run a).engine.running = false) (id height : Nat) : (run a).reaches id height = none := by
  obtain ⟨s₀, hn₀, -⟩ := hwalk
  unfold Engine.Turn.reaches
  rw [hn₀]
  rcases hover with rfl | hstopped
  · rfl
  · cases agenda with
    | nil => rfl
    | cons x xs => simp [hstopped]

theorem reached_of_walk {agenda : List String} (hwalk : (run a).Resumes s (.call (.walk agenda)))
    (hover : agenda = [] ∨ (run a).engine.running = false) (id height : Nat) : reached run id height a (a + 1) = [] := by
  refine reached_eq_nil fun k hak hka => ?_
  obtain rfl : k = a := by omega
  exact reaches_of_walk hwalk hover id height

/-- Control flow that goes on reaches the first node of its agenda. -/
theorem reaches_of_running (hwalk : (run a).Resumes s (.call (.walk (node :: rest))))
    (hrun : (run a).engine.running = true) : (run a).reaches s.id s.frames.length = some node := by
  obtain ⟨s₀, hn₀, hid₀, hf₀⟩ := hwalk
  simp [Engine.Turn.reaches, hn₀, hid₀, hf₀, hrun]

/-- Nothing is over where control flow goes on. -/
theorem not_resumes_of_walk {agenda : List String} (hwalk : (run a).Resumes s (.call (.walk agenda))) (sig : Signal)
    (hended : sig.Ended) : ¬(run a).Resumes s sig := by
  obtain ⟨s₀, hn₀, -⟩ := hwalk
  rintro ⟨s', hn', -⟩
  obtain ⟨-, rfl⟩ := Prod.mk.inj (Option.some.inj (hn₀.symm.trans hn'))
  exact hended

theorem Executes.lt {id : Nat} {r : Except Raised (List String)} (h : Executes run id a node c r) : a < c := by
  cases h with
  | missing | passes => omega
  | fails h | misleads h | leads h =>
    obtain ⟨s, -, -, hlasts⟩ := h.lasts
    have := hlasts.lt
    omega

theorem Recurs.le {id : Nat} {xs : List String} {ns : List (Nat × String)} {out : Option Raised}
    (h : Recurs run id a xs ns b out) : a ≤ b := by
  induction h with
  | nil => exact le_rfl
  | stopped _ _ ih => exact ih
  | fails _ hnode => exact hnode.lt.le
  | breaks _ hnode _ ih => exact hnode.lt.le.trans ih
  | follows _ hnode _ _ ih ih' => exact hnode.lt.le.trans (ih.trans ih')

/-- Once execution is stopped the walker is over at once. -/
theorem Recurs.eq_of_stopped {id : Nat} {xs : List String} {ns : List (Nat × String)} {out : Option Raised}
    (h : Recurs run id a xs ns b out) (hrun : (run a).engine.running = false) : ns = [] ∧ b = a ∧ out = none := by
  induction h with
  | nil => exact ⟨rfl, rfl, rfl⟩
  | stopped _ _ ih => exact ih hrun
  | fails hgoes | breaks hgoes | follows hgoes => exact absurd (hrun.symm.trans hgoes) Bool.false_ne_true

/-- How an engine stands when the walker is over, before the branches `more`: at the error, or at those branches, unless
execution is stopped. -/
def StandsAt (run : Nat → Engine.Turn) (s : Strand) (more : List String) (b : Nat) : Option Raised → Prop
  | some err => (run b).Resumes s (.raise err)
  | none => ∃ left, (run b).Resumes s (.call (.walk (left ++ more))) ∧ (left = [] ∨ (run b).engine.running = false)

/-- A node that an engine reaches is the next one that is listed, and nothing is over before it has been executed. -/
theorem Executes.goes (hopens : Opens (run 0)) (hbeats : ∀ k < n, Beat (run k) (run (k + 1)))
    {r : Except Raised (List String)} (h : Executes run s.id a node c r) (hc : c ≤ n)
    (hwalk : (run a).Resumes s (.call (.walk (node :: rest)))) (hrun : (run a).engine.running = true) :
    a < c ∧ (run c).Resumes s (goesOnWith rest r) ∧
      (∀ b, c ≤ b → reached run s.id s.frames.length a b = (a, node) :: reached run s.id s.frames.length c b) ∧
      Unended run s a c := by
  obtain ⟨hac, hstill, hends⟩ := h.walks hopens hbeats hc hwalk hrun
  refine ⟨hac, hends, fun b hcb => ?_, fun j haj hjc => ?_⟩
  · exact reached_cons hac hcb (reaches_of_running hwalk hrun) fun k hak hkc => (hstill k hak hkc).2
  · rcases haj.eq_or_lt with rfl | haj
    · exact not_resumes_of_walk hwalk
    · exact (hstill j haj hjc).1

/-- What the walker does an engine does. -/
theorem Recurs.walks (hopens : Opens (run 0)) (hbeats : ∀ k < n, Beat (run k) (run (k + 1))) {branches : List String}
    {ns : List (Nat × String)} {out : Option Raised} (h : Recurs run s.id a branches ns b out) (hb : b ≤ n)
    {more : List String} (hwalk : (run a).Resumes s (.call (.walk (branches ++ more)))) :
    a ≤ b ∧ ns = reached run s.id s.frames.length a b ∧ StandsAt run s more b out ∧ Unended run s a b := by
  induction h generalizing more with
  | nil a => exact ⟨le_rfl, (reached_self a).symm, ⟨[], hwalk, .inl rfl⟩, .self run s a⟩
  | @stopped a b node rest ns out hrun hrest =>
    obtain ⟨rfl, rfl, rfl⟩ := hrest.eq_of_stopped hrun
    exact ⟨le_rfl, (reached_self b).symm, ⟨node :: rest, hwalk, .inr hrun⟩, .self run s b⟩
  | @fails a c node rest err hrun hnode =>
    obtain ⟨hac, hends, hreached, hnot⟩ := hnode.goes hopens hbeats hb hwalk hrun
    refine ⟨hac.le, ?_, hends, hnot⟩
    rw [hreached c le_rfl, reached_self]
  | @breaks a c b node rest branches ns err hrun hnode hinto ih =>
    have hcb : c ≤ b := hinto.le
    obtain ⟨hac, hends, hreached, hnot⟩ := hnode.goes hopens hbeats (hcb.trans hb) hwalk hrun
    obtain ⟨-, hns, hstands, hnot'⟩ := ih hb hends
    exact ⟨hac.le.trans hcb, by rw [hreached b hcb, hns], hstands, hnot.append hnot'⟩
  | @follows a c d b node rest branches ns ms out hrun hnode hinto hrest ih ih' =>
    have hcd : c ≤ d := hinto.le
    have hdb : d ≤ b := hrest.le
    obtain ⟨hac, hends, hreached, hnot⟩ := hnode.goes hopens hbeats (by omega) hwalk hrun
    obtain ⟨-, hns, ⟨left, hleft, hover⟩, hnot'⟩ := ih (by omega) hends
    have hwhole : (a, node) :: ns = reached run s.id s.frames.length a d := by rw [hreached d hcd, hns]
    rcases hover with rfl | hstopped
    · obtain ⟨-, hms, hstands, hafter⟩ := ih' hb hleft
      refine ⟨by omega, ?_, hstands, (hnot.append hnot').append hafter⟩
      rw [reached_append (by omega) hdb, ← hwhole, ← hms]
    · -- execution was stopped in a branch of the node: the walker passes over the rest, the agenda keeps it
      obtain ⟨rfl, rfl, rfl⟩ := hrest.eq_of_stopped hstopped
      refine ⟨by omega, ?_, ⟨left ++ rest, ?_, .inr hstopped⟩, hnot.append hnot'⟩
      · rw [List.append_nil, hwhole]
      · rwa [List.append_assoc]

/-- When the walker is over, so is the control flow of an engine. -/
theorem Recurs.lasts (hopens : Opens (run 0)) (hbeats : ∀ k < n, Beat (run k) (run (k + 1))) {branches : List String}
    {ns : List (Nat × String)} {out : Option Raised} (h : Recurs run s.id a branches ns c out) (hc : overAt out c ≤ n)
    (hwalk : (run a).Resumes s (.call (.walk branches))) :
    Lasts run s a (overAt out c) (endOfWalk out) ∧ ns = reached run s.id s.frames.length a (overAt out c) := by
  cases out with
  | some err =>
    obtain ⟨hac, hns, hends, hnot⟩ := h.walks hopens hbeats hc (by rwa [List.append_nil])
    have hlt : a < c := by
      refine lt_of_le_of_ne hac ?_
      rintro rfl
      exact not_resumes_of_walk hwalk (.raise err) trivial hends
    exact ⟨⟨hlt, trivial, hends, fun j haj => hnot j haj.le⟩, hns⟩
  | none =>
    obtain ⟨hac, hns, ⟨left, hleft, hover⟩, hnot⟩ :=
      h.walks hopens hbeats (Nat.le_of_succ_le hc) (by rwa [List.append_nil])
    rw [List.append_nil] at hleft
    refine ⟨⟨Nat.lt_succ_of_le hac, trivial, ends_of_walk hbeats hc hleft hover, fun j haj hjc => ?_⟩, ?_⟩
    · rcases (Nat.lt_succ_iff.mp hjc).lt_or_eq with hjc | rfl
      · exact hnot j haj.le hjc
      · exact not_resumes_of_walk hleft
    · show ns = reached run s.id s.frames.length a (c + 1)
      rw [reached_append hac (Nat.le_succ c), reached_of_walk hleft hover, List.append_nil, hns]

/-- What an engine does the walker does. -/
theorem Lasts.recurs (hopens : Opens (run 0)) (hbeats : ∀ k < n, Beat (run k) (run (k + 1)))
    (h : Lasts run s a b sig) (hb : b ≤ n) {agenda : List String}
    (hwalk : (run a).Resumes s (.call (.walk agenda))) :
    ∃ out c, sig = endOfWalk out ∧ b = overAt out c ∧
      Recurs run s.id a agenda (reached run s.id s.frames.length a b) c out := by
  -- by the number of steps until it is over; executing a node takes some of them
  induction hlength : b - a using Nat.strongRecOn generalizing a agenda with
  | _ l ih =>
    have hab := h.lt
    by_cases hover : agenda = [] ∨ (run a).engine.running = false
    · have hends : Lasts run s a (a + 1) (.back .nothing) :=
        ⟨Nat.lt_succ_self a, trivial, ends_of_walk hbeats (by omega) hwalk hover, fun j haj hja => absurd hja (by omega)⟩
      obtain ⟨rfl, rfl⟩ := h.unique hends
      refine ⟨none, a, rfl, rfl, ?_⟩
      rw [reached_of_walk hwalk hover]
      rcases hover with rfl | hstopped
      · exact .nil a
      · exact .of_stopped hstopped agenda
    · obtain ⟨hsome, hgoes⟩ := not_or.mp hover
      obtain ⟨node, rest, rfl⟩ := List.exists_cons_of_ne_nil hsome
      have hrun : (run a).engine.running = true := Bool.eq_true_of_not_eq_false hgoes
      obtain ⟨c, r, hcb, hnode⟩ := h.executes hopens hbeats hb hwalk hrun
      obtain ⟨hac, hends, hreached, hnot⟩ := hnode.goes hopens hbeats (hcb.trans hb) hwalk hrun
      rw [hreached b hcb]
      cases r with
      | error err =>
        have hfails : Lasts run s a c (.raise err) := ⟨hac, trivial, hends, fun j haj => hnot j haj.le⟩
        obtain ⟨rfl, rfl⟩ := h.unique hfails
        rw [reached_self]
        exact ⟨some err, b, rfl, rfl, .fails hrun hnode⟩
      | ok branches =>
        have hlt : c < b := by
          refine lt_of_le_of_ne hcb ?_
          rintro rfl
          exact not_resumes_of_walk hends sig h.ended h.resumes
        have hrest : Lasts run s c b sig := ⟨hlt, h.ended, h.resumes, fun j hcj => h.first j (by omega)⟩
        obtain ⟨out, d, hsig, hd, hrecurs⟩ := ih (b - c) (by omega) hrest hends rfl
        exact ⟨out, d, hsig, hd, .into hrun hnode hrecurs⟩

end Runs

/-- Control flow is recursive. From the moment when the control flow of a strand reaches some branches: what the strand
has begun is over at `b` with an error or without one, and the nodes that it has reached by then are those listed, if and
only if the recursive walker is over with those branches, ends in the same way, and has executed those nodes; each node
at the same step, with what its execution tells and publishes. And the loop that goes on with the last branch does what
the recursive walker does. -/
theorem walk_recursive {run : Nat → Engine.Turn} {n : Nat} (hopens : Opens (run 0))
    (hbeats : ∀ k < n, Beat (run k) (run (k + 1))) :
    (∀ s a b branches, b ≤ n → (run a).next = some (s, .call (.walk branches)) → ∀ sig ns,
      (Lasts run s a b sig ∧ ns = reached run s.id s.frames.length a b ↔
        ∃ out c, sig = endOfWalk out ∧ b = overAt out c ∧ Recurs run s.id a branches ns c out)) ∧
      ∀ id a init last ns c out,
        Iterates run id a init last ns c out ↔ Recurs run id a (init ++ last.toList) ns c out := by
  refine ⟨fun s a b branches hb hnext sig ns => ⟨?_, ?_⟩, fun id a init last ns c out => iterates_iff⟩
  · rintro ⟨hlasts, rfl⟩
    exact hlasts.recurs hopens hbeats hb ⟨s, hnext, rfl, rfl⟩
  · rintro ⟨out, c, rfl, rfl, hrecurs⟩
    exact hrecurs.lasts hopens hbeats hb ⟨s, hnext, rfl, rfl⟩

/-! ## A branch that is suspended -/

/-- A session that asks for a step. Its start node leads to two branches, of which the first waits at a checkpoint before
it leads on. -/
def forkSession : Engine.Turn :=
  opening (.initial {}
    { kinds := [.sketch "event.start" .event [] [Library.leads "exec"] none,
        .sketch "pause" .statement [{ id := "exec", valueType := .exec }] [Library.leads "exec"]
          (some fun _ => .wait .checkpoint fun _ => .finish .null),
        .sketch "sink" .statement [{ id := "exec", valueType := .exec }] [] none] }
    { nodes := [{ serial := 0, id := "s", kind := "event.start" }, { serial := 1, id := "p", kind := "pause" },
        { serial := 2, id := "q", kind := "sink" }, { serial := 3, id := "r", kind := "sink" }]
      edges := [⟨"s", "exec", "p", "exec"⟩, ⟨"s", "exec", "r", "exec"⟩, ⟨"p", "exec", "q", "exec"⟩]
      nextSerial := 4 } 0.01)
    [.step]

/-- The state after a number of steps of that session. -/
def forked (n : Nat) : Engine.Turn := (follow n (forkSession, fun _ => {})).1

/-- The walker follows the first branch to its end before it turns to the second one, although it is suspended there;
and so does the loop, which goes on with the second one itself. -/
theorem walk_recursive_forked : ∃ s, (forked 2).next = some (s, .call (.walk ["s"])) ∧
    Lasts forked s 2 13 (.back .nothing) ∧
    Recurs forked s.id 2 ["s"] [(2, "s"), (3, "p"), (10, "q"), (11, "r")] 12 none ∧
    Iterates forked s.id 2 [] (some "s") [(2, "s"), (3, "p"), (10, "q"), (11, "r")] 12 none := by
  have hopens : Opens (forked 0) := by
    show Opens forkSession
    exact ⟨_, _, _, _, _, ⟨by decide, by decide⟩, rfl⟩
  have hgoes : ∀ k < 14, (Engine.advance (forked k)).isSome = true := by decide +kernel
  have hbeats : ∀ k < 14, Beat (forked k) (forked (k + 1)) := fun k hk => .of_advance (advance_follow (hgoes k hk))
  obtain ⟨s, hn, hid, hlength, hends⟩ : ∃ s : Strand, (forked 2).next = some (s, .call (.walk ["s"])) ∧ s.id = 0 ∧
      s.frames.length = 2 ∧ (forked 13).Resumes s (.back .nothing) := by
    with_unfolding_all exact ⟨_, rfl, rfl, rfl, _, rfl, rfl, rfl⟩
  have habove : ∀ j < 13, 2 < j → ∀ x ∈ (forked j).next, x.2.Ended → x.1.frames.length ≠ 2 := by decide +kernel
  have hlasts : Lasts forked s 2 13 (.back .nothing) := by
    refine ⟨by decide, trivial, hends, fun j h2j hj sig hended hresumes => ?_⟩
    obtain ⟨s', hn', -, hf'⟩ := hresumes
    exact habove j hj h2j (s', sig) hn' hended (by rw [hf', hlength])
  obtain ⟨hwalks, hloops⟩ := walk_recursive hopens hbeats
  have hreached : [(2, "s"), (3, "p"), (10, "q"), (11, "r")] = reached forked s.id s.frames.length 2 13 := by
    rw [hid, hlength]
    decide +kernel
  obtain ⟨out, c, hsig, hc, hrecurs⟩ := (hwalks s 2 13 ["s"] (by decide) hn (.back .nothing) _).mp ⟨hlasts, hreached⟩
  cases out with
  | some err => cases hsig
  | none =>
    obtain rfl : c = 12 := (Nat.succ.inj hc).symm
    exact ⟨s, hn, hlasts, hrecurs, (hloops _ _ _ _ _ _ _).mpr hrecurs⟩

end Patchbay
