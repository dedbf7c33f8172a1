import Patchbay.Proofs.Courses
import Patchbay.Proofs.NewErrors

/-!
# How errors propagate

An error goes up through the frames of a strand. Behaviours that wait for an input or for control flow hand
it on, perhaps after some cleaning up. As long as no invocation has ended with an error, a strand is
`Clean`: an error on its way is new, and it is about to reach the behaviour that asked for a value. From the
turn that ends an invocation with an error on the strand is `Failing`, with the error that was reported
there, until the trigger ends.

Contents:
* `Script.Passes`, `Script.Relays`, `Script.HandsOn`: behaviours that hand errors on.
* `Program.Anchored`: every node has a registered kind, and every edge leads to a node.
* `Deep`: the frames of a trigger in progress; `Clean`, `Failing`: what its strand does next.

Results:
* `Clean.turn`: a clean strand stays clean, ends its trigger or is failing with the error it has reported.
* `Failing.turn`: a failing strand is failing with the same error until it ends its trigger.
-/

namespace Patchbay

/-! ## Behaviours -/

/-- Whether a wait is for other nodes: for a value, or for what control flow leads to. -/
def Wait.nests : Wait → Bool
  | .pull _ => true
  | .advance _ => true
  | _ => false

/-- A script that ends with an error, whatever it is told before. It may still ask, edit and let others
run. -/
inductive Script.Passes (err : Raised) : Script → Prop
  | fail : Passes err (.fail err)
  | ask {q : Query} {k : Except Raised q.Reply → Script} (h : ∀ r, Passes err (k r)) : Passes err (.ask q k)
  | edit {c : Command} {k : Except Raised Answer → Script} (h : ∀ r, Passes err (k r)) :
      Passes err (.edit c k)
  | pause {w : Wait} {k : Except Raised w.Reply → Script} (hw : w.nests = false) (h : ∀ r, Passes err (k r)) :
      Passes err (.wait w k)

/-- A script that hands on the errors of other nodes: what it waits for fails, and it ends with that error, perhaps
after some cleaning up. What errors of its own it ends with is its own concern. -/
inductive Script.Relays : Script → Prop
  | finish (v : Value) : Relays (.finish v)
  | fail (err : Raised) : Relays (.fail err)
  | again (state : Value) : Relays (.again state)
  | ask {q : Query} {k : Except Raised q.Reply → Script} (h : ∀ r, Relays (k r)) : Relays (.ask q k)
  | edit {c : Command} {k : Except Raised Answer → Script} (h : ∀ r, Relays (k r)) : Relays (.edit c k)
  | pause {w : Wait} {k : Except Raised w.Reply → Script} (hw : w.nests = false) (h : ∀ r, Relays (k r)) :
      Relays (.wait w k)
  | nest {w : Wait} {k : Except Raised w.Reply → Script} (hw : w.nests = true) (hok : ∀ a, Relays (k (.ok a)))
      (herr : ∀ err, (k (.error err)).Passes err) : Relays (.wait w k)

/-- A script that hands on the errors of other nodes, and whose own errors are new; what it does with those that are
its answers is its own concern. -/
inductive Script.HandsOn : Script → Prop
  | finish (v : Value) : HandsOn (.finish v)
  | fail {err : Raised} (h : err.silent = false) : HandsOn (.fail err)
  | again (state : Value) : HandsOn (.again state)
  | ask {q : Query} {k : Except Raised q.Reply → Script} (h : ∀ r, Unreported r → HandsOn (k r)) :
      HandsOn (.ask q k)
  | edit {c : Command} {k : Except Raised Answer → Script} (h : ∀ r, Unreported r → HandsOn (k r)) :
      HandsOn (.edit c k)
  | pause {w : Wait} {k : Except Raised w.Reply → Script} (hw : w.nests = false)
      (h : ∀ r, Unreported r → HandsOn (k r)) : HandsOn (.wait w k)
  | nest {w : Wait} {k : Except Raised w.Reply → Script} (hw : w.nests = true)
      (hok : ∀ a, HandsOn (k (.ok a))) (herr : ∀ err, (k (.error err)).Passes err) : HandsOn (.wait w k)

namespace Script

variable {w : Wait} {k : Except Raised w.Reply → Script}

/-- A script that ends with an error hands it on. -/
theorem Passes.relays {err : Raised} {s : Script} (h : s.Passes err) : s.Relays := by
  induction h with
  | fail => exact .fail err
  | ask _ ih => exact .ask ih
  | edit _ ih => exact .edit ih
  | pause hw _ ih => exact .pause hw ih

/-- Whatever it is told, a script goes on handing errors on. -/
theorem Relays.of_reply (h : (Script.wait w k).Relays) (r : Except Raised w.Reply) : (k r).Relays := by
  cases h with
  | pause _ hk => exact hk r
  | nest _ hok herr =>
    cases r with
    | ok a => exact hok a
    | error err => exact (herr err).relays

/-- The error of another node ends a script that waits for the node. -/
theorem Relays.passes (h : (Script.wait w k).Relays) (hw : w.nests = true) (err : Raised) :
    (k (.error err)).Passes err := by
  cases h with
  | nest _ _ herr => exact herr err
  | pause hnests _ =>
    rw [hw] at hnests
    cases hnests

end Script

/-- A script that ends with a new error. -/
theorem Script.Passes.handsOn {err : Raised} (herr : err.silent = false) {s : Script} (h : s.Passes err) :
    s.HandsOn := by
  induction h with
  | fail => exact .fail herr
  | ask _ ih => exact .ask fun r _ => ih r
  | edit _ ih => exact .edit fun r _ => ih r
  | pause hw _ ih => exact .pause hw fun r _ => ih r

namespace Program

/-- Whether all behaviours hand the errors of other nodes on, from every local state. -/
def Relays (p : Program) : Prop :=
  ∀ k ∈ p.registry.kinds, ∀ b, k.behavior = some b → ∀ state, (b state).Relays

/-- Whether all behaviours hand errors on and end with new ones, from every local state. -/
def HandsOn (p : Program) : Prop :=
  ∀ k ∈ p.registry.kinds, ∀ b, k.behavior = some b → ∀ state, (b state).HandsOn

/-- Whether every node has a registered kind, and every edge leads to a node. -/
structure Anchored (p : Program) : Prop where
  kinds : ∀ n ∈ p.graph.nodes, p.registry.contains n.kind = true
  edges : ∀ x ∈ p.graph.edges, p.graph.hasNode x.dest = true

/-- Whether control flow can reach all nodes of an agenda. -/
def Knows (p : Program) (agenda : List String) : Prop := ∀ id ∈ agenda, ∃ x, p.nodeWithKind id = .ok x

variable {p : Program}

theorem Anchored.nodeWithKind (h : p.Anchored) {id : String} (hid : p.graph.hasNode id = true) :
    ∃ x, p.nodeWithKind id = .ok x := by
  rw [Graph.hasNode_eq_isSome] at hid
  obtain ⟨n, hn⟩ := Option.isSome_iff_exists.mp hid
  have hk := h.kinds n (List.mem_of_find?_eq_some hn)
  obtain ⟨k, hk⟩ := Option.isSome_iff_exists.mp hk
  refine ⟨(n, k), ?_⟩
  simp only [Program.nodeWithKind, Graph.requireNode, Registry.lookup, hn, hk, bind, Except.bind, pure,
    Except.pure]

/-- Control flow can reach what edges lead to. -/
theorem Anchored.knows (h : p.Anchored) {edges : List Edge} (hsub : ∀ x ∈ edges, x ∈ p.graph.edges) :
    p.Knows (edges.map Edge.dest) := by
  intro id hid
  obtain ⟨x, hx, rfl⟩ := List.mem_map.mp hid
  exact h.nodeWithKind (h.edges x (hsub x hx))

theorem Anchored.knows_destinations (h : p.Anchored) {e : Engine} (hp : e.program = p) (node : String)
    (port : Option String) : p.Knows (e.destinations node port) := by
  rw [Engine.destinations, Engine.outgoing_program hp]
  exact h.knows fun x hx => List.mem_of_mem_filter hx

theorem Anchored.knows_execTargets (h : p.Anchored) {e : Engine} (hp : e.program = p) (node : String)
    (k : Kind Behavior) (port : Option String) : p.Knows (e.execTargets node k port) := by
  rw [Engine.execTargets, Engine.outgoing_program hp]
  exact h.knows fun x hx => List.mem_of_mem_filter (List.mem_of_mem_filter hx)

theorem Anchored.knows_onward (h : p.Anchored) {e : Engine} (hp : e.program = p) (i : Invocation)
    (exit : Option String) : p.Knows (e.onward i exit) := by
  intro id hid
  obtain ⟨port, hid⟩ := Engine.execTargets_of_onward hid
  exact h.knows_execTargets hp _ _ _ id hid

theorem Knows.append {a b : List String} (ha : p.Knows a) (hb : p.Knows b) : p.Knows (a ++ b) :=
  fun id hid => (List.mem_append.mp hid).elim (ha id) (hb id)

/-- The behaviour of a node of a program. -/
theorem HandsOn.of_runs (h : p.HandsOn) {i : Invocation} (hi : p.Runs i) {b : Behavior}
    (hb : i.kind.behavior = some b) (state : Value) : (b state).HandsOn := by
  obtain ⟨n, hn, -⟩ := hi
  exact h i.kind (mem_kinds hn) b hb state

end Program

/-! ## Frames -/

/-- What frames with a behaviour on top wait for. -/
def Wait.level : Wait → Level
  | .pull _ => .value
  | .advance _ => .flow
  | .checkpoint => .pause
  | .sleep _ => .pause

/-- The frames of a trigger in progress, by what they wait for. -/
inductive Deep (p : Program) : Level → List Frame → Prop
  | trigger {node : String} {origin : Origin} {fs : List Frame} (h : ∀ f ∈ fs, f.Outer) :
      Deep p .flow (.trigger node origin :: fs)
  | behavior {i : Invocation} {w : Wait} {k : Except Raised w.Reply → Script} {fs : List Frame}
      (hi : p.Runs i) (hk : (Script.wait w k).HandsOn) (h : Deep p .invocation fs) :
      Deep p w.level (.behavior i w k :: fs)
  | walk {agenda : List String} {fs : List Frame} (ha : p.Knows agenda) (h : Deep p .flow fs) :
      Deep p .invocation (.walk agenda :: fs)
  | output {node port : String} {serial : Nat} {fs : List Frame} (h : Deep p .value fs) :
      Deep p .invocation (.output node port serial :: fs)
  | hop {node port : String} {serial : Nat} {fs : List Frame} (h : Deep p .value fs) :
      Deep p .invocation (.hop :: .output node port serial :: fs)

/-- Whether a strand waits for time to pass or for others to run, or is about to go on after that. -/
def Parked.Pauses : Parked → Prop
  | .turn (.back _) => True
  | .sleep _ => True
  | _ => False

/-- What a strand inside a trigger does next, as long as no invocation has ended with an error. -/
inductive Clean (p : Program) (fs : List Frame) : Parked → Prop
  | walks {agenda : List String} (ha : p.Knows agenda) (h : Deep p .flow fs) :
      Clean p fs (.turn (.call (.walk agenda)))
  | walked {r : Result} (h : Deep p .flow fs) : Clean p fs (.turn (.back r))
  | invokes {i : Invocation} (hi : p.Runs i) (h : Deep p .invocation fs) :
      Clean p fs (.turn (.call (.invoke i)))
  | behaves {i : Invocation} {script : Script} (hi : p.Runs i) (hs : script.HandsOn)
      (h : Deep p .invocation fs) : Clean p fs (.turn (.call (.behave i script)))
  | invoked {v : Value} {i : Invocation} (hi : p.Runs i) (h : Deep p .invocation fs) :
      Clean p fs (.turn (.back (.invoked v i)))
  | input {node port : String} (h : Deep p .value fs) : Clean p fs (.turn (.call (.input node port)))
  | output {node port : String} (h : Deep p .value fs) : Clean p fs (.turn (.call (.output node port)))
  | pulled {v : Value} {ds : Dependencies} (h : Deep p .value fs) : Clean p fs (.turn (.back (.pulled v ds)))
  | raised {err : Raised} (herr : err.silent = false) (h : Deep p .value fs) :
      Clean p fs (.turn (.raise err))
  | pauses {q : Parked} (hq : q.Pauses) (h : Deep p .pause fs) : Clean p fs q

/-- What a strand inside a trigger does next after an invocation has ended with a failure. -/
inductive Failing (p : Program) (f : Failure) : List Frame → Parked → Prop
  | raises {l : Level} {fs : List Frame} (hl : l ≠ .pause) (h : Deep p l fs) :
      Failing p f fs (.turn (.raise (.failure f)))
  | cleans {i : Invocation} {script : Script} {fs : List Frame} (hs : script.Passes (.failure f))
      (h : Deep p .invocation fs) : Failing p f fs (.turn (.call (.behave i script)))
  | pauses {i : Invocation} {w : Wait} {k : Except Raised w.Reply → Script} {fs : List Frame} {q : Parked}
      (hw : w.nests = false) (hk : ∀ r, (k r).Passes (.failure f)) (hq : q.Pauses)
      (h : Deep p .invocation fs) : Failing p f (.behavior i w k :: fs) q

theorem Parked.Pauses.unpark {q : Parked} (h : q.Pauses) (e : Engine) : (Parked.turn (e.unpark q).1).Pauses := by
  cases q with
  | turn sig => exact h
  | sleep id => exact trivial
  | _ => exact h.elim

theorem Clean.unpark {p : Program} {fs : List Frame} {q : Parked} (h : Clean p fs q) (e : Engine) :
    Clean p fs (.turn (e.unpark q).1) := by
  cases h with
  | pauses hq h => exact .pauses (hq.unpark e) h
  | walks ha h => exact .walks ha h
  | walked h => exact .walked h
  | invokes hi h => exact .invokes hi h
  | behaves hi hs h => exact .behaves hi hs h
  | invoked hi h => exact .invoked hi h
  | input h => exact .input h
  | output h => exact .output h
  | pulled h => exact .pulled h
  | raised herr h => exact .raised herr h

theorem Failing.unpark {p : Program} {f : Failure} {fs : List Frame} {q : Parked} (h : Failing p f fs q)
    (e : Engine) : Failing p f fs (.turn (e.unpark q).1) := by
  cases h with
  | raises hl h => exact .raises hl h
  | cleans hs h => exact .cleans hs h
  | pauses hw hk hq h => exact .pauses hw hk (hq.unpark e) h

/-! ## Turns -/

/-- The failure with which an error ends an invocation, after it was reported. -/
def Raised.reportedAt (trigger : Nat) (i : Invocation) (err : Raised) : Failure :=
  { err.atInvocation trigger i with reported := true }

/-- Where a turn of a strand leads that raised nothing so far: it goes on, or its trigger ends; or it is
failing with the error that it raises. -/
def Leads (p : Program) (T : Nat) (raising : Option (Invocation × Raised)) (x : Strand × Parked) : Prop :=
  match raising with
  | none => Clean p x.1.frames x.2
  | some (i, err) => Failing p (err.reportedAt T i) x.1.frames x.2

section Turns

variable {p : Program} {e : Engine} {s : Strand}

/-- What is found after a turn, when the strand is inside its trigger or outside. -/
abbrev Engine.Stays (e : Engine) (P : Strand × Parked → Prop) (t : Engine.Turn) : Prop :=
  e.Finds (fun x => (∀ f ∈ x.1.frames, f.Outer) ∨ P x) t

theorem Engine.unreported_nodeWithKind (e : Engine) (id : String) : Unreported (e.nodeWithKind id) :=
  (e.graph.unreported_requireNode id).bind fun n =>
    (Graph.unreported_lookup e.registry n.kind).bind fun _ => .ok _

/-- A new error ends an invocation. -/
theorem failInvocation_stays {e' : Engine} {i : Invocation} {err : Raised} (hw : e.Welcomes e')
    (herr : err.silent = false) (h : Deep p .invocation s.frames) :
    e.Stays (Leads p s.scope.trigger (some (i, err))) (e'.failInvocation s i err) := by
  rw [Engine.failInvocation_eq, herr]
  have hl : Level.invocation ≠ .pause := nofun
  exact .go hw (.inr (.raises hl h))

theorem walk_stays (hp : e.program = p) (ha : p.Anchored) {agenda : List String} (hagenda : p.Knows agenda)
    (h : Deep p .flow s.frames) : e.Stays (Leads p s.scope.trigger none) (e.walk s agenda) := by
  have hsame : e.Welcomes e := .of_eq rfl
  have hcases := e.walk_cases s agenda
  generalize e.walk s agenda = t at hcases ⊢
  cases hcases with
  | done | stopped => exact .go hsame (.inr (.walked h))
  | @unknown node _ err _ hn =>
    -- a node that control flow leads to is there, and its kind is registered
    obtain ⟨x, hx⟩ := hagenda node List.mem_cons_self
    rw [← hp, e.nodeWithKind_program, hn] at hx
    cases hx
  | invokes _ hn =>
    have hrest : p.Knows _ := fun id hid => hagenda id (List.mem_cons_of_mem _ hid)
    exact .go hsame (.inr (.invokes (Engine.runs_of_nodeWithKind hp hn .exec) (.walk hrest h)))
  | @passes node rest n k _ hn =>
    have hrest : p.Knows rest := fun id hid => hagenda id (List.mem_cons_of_mem _ hid)
    exact .go (.of_eq rfl) (.inr (.walks ((ha.knows_execTargets hp node k none).append hrest) h))

theorem invoke_stays (hh : p.HandsOn) {i : Invocation} (hi : p.Runs i) (h : Deep p .invocation s.frames) :
    e.Stays (Leads p s.scope.trigger (s.raising? (.call (.invoke i)))) (e.invoke s i) := by
  unfold Engine.invoke
  cases hb : i.kind.behavior with
  | some b =>
    have hr : s.raising? (.call (.invoke i)) = none := by simp [Strand.raising?, hb]
    rw [hr]
    exact .go (.of_eq rfl) (.inr (.behaves hi (hh.of_runs hi hb _) h))
  | none =>
    have hr : s.raising? (.call (.invoke i)) = some (i, .fault .type) := by simp [Strand.raising?, hb]
    rw [hr]
    exact failInvocation_stays (.of_eq rfl) rfl h

theorem Program.Runs.perform {i : Invocation} (hi : p.Runs i) (e : Engine) (sc : Scope) (q : Query) :
    p.Runs (e.perform i sc q).invocation := by
  cases q <;> exact hi

theorem perform_executed (e : Engine) (i : Invocation) (sc : Scope) (q : Query) :
    (e.perform i sc q).scope.executed = sc.executed := by
  cases q <;> rfl

theorem perform_node (e : Engine) (i : Invocation) (sc : Scope) (q : Query) :
    (e.perform i sc q).invocation.node = i.node := by
  cases q <;> rfl

theorem perform_kind (e : Engine) (i : Invocation) (sc : Scope) (q : Query) :
    (e.perform i sc q).invocation.kind = i.kind := by
  cases q <;> rfl

theorem Engine.welcomes_perform (e : Engine) (i : Invocation) (sc : Scope) (q : Query) :
    e.Welcomes (e.perform i sc q).engine := by
  cases q <;> exact .of_eq rfl

theorem awaitFor_stays (hp : e.program = p) (ha : p.Anchored) {i : Invocation} (hi : p.Runs i) {w : Wait}
    {k : Except Raised w.Reply → Script} (hs : (Script.wait w k).HandsOn) (h : Deep p .invocation s.frames) :
    e.Stays (Leads p s.scope.trigger none) (e.awaitFor s i w k) := by
  have hsame : e.Welcomes e := .of_eq rfl
  have hdeep : ∀ {j : Invocation}, p.Runs j → Deep p w.level (.behavior j w k :: s.frames) :=
    fun hj => .behavior hj hs h
  cases w with
  | pull port => exact .go hsame (.inr (.input (hdeep hi)))
  | advance port =>
    simp only [Engine.awaitFor]
    split
    · cases hs with
      | nest _ _ herr => exact .go hsame (.inr (.behaves hi ((herr _).handsOn rfl) h))
      | pause hw _ => cases hw
    · have hj : p.Runs { i with advanced := i.advanced ++ [port] } := hi
      exact .go hsame (.inr (.walks (ha.knows_destinations hp i.node (some port)) (hdeep hj)))
  | checkpoint =>
    exact .park (.of_eq rfl) (.inr (.pauses trivial (hdeep hi)))
  | sleep seconds =>
    simp only [Engine.awaitFor]
    split
    · next f _ =>
      cases hs with
      | nest hw _ _ => cases hw
      | pause _ hk => exact .go hsame (.inr (.behaves hi (hk _ (.error rfl)) h))
    · exact .park (.of_eq rfl) (.inr (.pauses trivial (hdeep hi)))

theorem behave_stays (hp : e.program = p) (ha : p.Anchored) (hh : p.HandsOn) {i : Invocation} (hi : p.Runs i)
    {script : Script} (hs : script.HandsOn) (h : Deep p .invocation s.frames) :
    e.Stays (Leads p s.scope.trigger (s.raising? (.call (.behave i script)))) (e.behave s i script) := by
  cases hs with
  | finish v =>
    refine .go (.of_eq ?_) (.inr (.invoked hi h))
    dsimp only
    split <;> rfl
  | fail herr => exact failInvocation_stays (.of_eq rfl) herr h
  | again state =>
    unfold Engine.behave
    cases hb : i.kind.behavior with
    | some b =>
      have hr : s.raising? (.call (.behave i (.again state))) = none := by simp [Strand.raising?, hb]
      rw [hr]
      exact .go (.of_eq rfl) (.inr (.behaves hi (hh.of_runs hi hb _) h))
    | none =>
      have hr : s.raising? (.call (.behave i (.again state))) = some (i, .fault .type) := by
        simp [Strand.raising?, hb]
      rw [hr]
      exact failInvocation_stays (.of_eq rfl) rfl h
  | @ask q k hk =>
    exact .go (e.welcomes_perform i s.scope q)
      (.inr (.behaves (hi.perform e s.scope q) (hk _ (e.unreported_perform i s.scope q)) h))
  | @edit c k hk =>
    exact .go (Engine.Tended.command e c).strands
      (.inr (.behaves hi (hk _ (e.unreported_command c)) h))
  | pause hw hk => exact awaitFor_stays hp ha hi (.pause hw hk) h
  | nest hw hok herr => exact awaitFor_stays hp ha hi (.nest hw hok herr) h

/-- A value, or an error that is new. -/
theorem Clean.of_outputResult (sc : Scope) (node port : String) (ds : Dependencies) {fs : List Frame}
    (h : Deep p .value fs) : Clean p fs (.turn (Engine.outputResult sc node port ds)) := by
  unfold Engine.outputResult
  split
  · exact .pulled h
  · exact .raised rfl h

theorem Clean.of_literalResult (port : Port) (v : Value) {fs : List Frame} (h : Deep p .value fs) :
    Clean p fs (.turn (Engine.literalResult port v)) := by
  unfold Engine.literalResult
  split
  · exact .pulled h
  · exact .raised rfl h

theorem pullInput_stays (node port : String) (h : Deep p .value s.frames) :
    e.Stays (Leads p s.scope.trigger none) (e.pullInput s node port) := by
  have hsame : e.Welcomes e := .of_eq rfl
  have hn := e.unreported_nodeWithKind node
  have hcases := e.pullInput_cases s node port
  generalize e.pullInput s node port = t at hcases ⊢
  cases hcases with
  | unknown herr => exact .go hsame (.inr (.raised (hn _ herr) h))
  | portless | missing => exact .go hsame (.inr (.raised rfl h))
  | wired => exact .go hsame (.inr (.output h))
  | literal => exact .go hsame (.inr (.of_literalResult _ _ h))
  | null => exact .go hsame (.inr (.pulled h))

theorem pullOutput_stays (hp : e.program = p) (node port : String) (h : Deep p .value s.frames) :
    e.Stays (Leads p s.scope.trigger none) (e.pullOutput s node port) := by
  have hsame : e.Welcomes e := .of_eq rfl
  have hn := e.unreported_nodeWithKind node
  have hcases := e.pullOutput_cases s node port
  generalize e.pullOutput s node port = t at hcases ⊢
  cases hcases with
  | unknown herr => exact .go hsame (.inr (.raised (hn _ herr) h))
  | portless | unpublished | circular => exact .go hsame (.inr (.raised rfl h))
  | published => exact .go hsame (.inr (.pulled h))
  | current => exact .go hsame (.inr (.of_outputResult _ _ _ _ h))
  | deep =>
    refine .go hsame (.inr (.raised ?_ h))
    unfold Engine.tooDeep
    split <;> rfl
  | @runs n k hk =>
    have hi : p.Runs { serial := n.serial, node := n.id, kind := k, mode := .pull } := by
      rw [Engine.id_of_nodeWithKind hk]
      exact Engine.runs_of_nodeWithKind hp hk .pull
    have hcases := e.runForOutput_cases s n k port
    generalize e.runForOutput s n k port = t at hcases ⊢
    cases hcases with
    | hops => exact .park (.of_eq rfl) (.inr (.invokes hi (.hop h)))
    | nests => exact .go hsame (.inr (.invokes hi (.output h)))

/-- The result of an invocation that control flow had reached. -/
theorem continueFrom_stays (hp : e.program = p) (ha : p.Anchored) {id : Nat} {sc : Scope} {rest : List String}
    {frames : List Frame} {i : Invocation} {v : Value} (hrest : p.Knows rest) (h : Deep p .flow frames) :
    e.Stays (Leads p sc.trigger (Strand.raising? ⟨id, sc, .walk rest :: frames⟩ (.back (.invoked v i))))
      (e.continueFrom ⟨id, sc, frames⟩ i v rest) := by
  have hsame : e.Welcomes e := .of_eq rfl
  have htargets (exit : Option String) : p.Knows (e.onward i exit ++ rest) := (ha.knows_onward hp i exit).append hrest
  unfold Engine.continueFrom
  cases v with
  | str port =>
    cases hport : i.kind.execOutput port with
    | some q =>
      simp only [hport, Strand.raising?_exit hport]
      exact .go hsame (.inr (.walks (htargets (some port)) h))
    | none =>
      have hl : Level.flow ≠ .pause := Level.noConfusion
      simp only [hport, Strand.raising?_astray hport]
      exact .go (.of_eq rfl) (.inr (.raises hl h))
  | _ => exact .go hsame (.inr (.walks (htargets _) h))

theorem resumeBehavior_stays {i : Invocation} (hi : p.Runs i) {w : Wait} {k : Except Raised w.Reply → Script}
    (hk : ∀ a, (k (.ok a)).HandsOn) (h : Deep p .invocation s.frames) (r : Result) :
    e.Stays (Leads p s.scope.trigger none) (e.resumeBehavior s i w k r) := by
  have hsame : e.Welcomes e := .of_eq rfl
  unfold Engine.resumeBehavior
  split
  · next v ds =>
    have hj : p.Runs { i with dependencies := i.dependencies.merge ds } := hi
    exact .go hsame (.inr (.behaves hj (hk _) h))
  all_goals exact .go hsame (.inr (.behaves hi (hk _) h))

theorem Script.HandsOn.of_ok {w : Wait} {k : Except Raised w.Reply → Script} (h : (Script.wait w k).HandsOn)
    (a : w.Reply) : (k (.ok a)).HandsOn := by
  cases h with
  | pause _ hk => exact hk _ (.ok a)
  | nest _ hok _ => exact hok a

/-- The error of what a script waits for ends it. -/
theorem Script.HandsOn.passes {w : Wait} {k : Except Raised w.Reply → Script} (h : (Script.wait w k).HandsOn)
    (hw : w.level ≠ .pause) (err : Raised) : (k (.error err)).Passes err := by
  cases h with
  | nest _ _ hpass => exact hpass err
  | pause hnests _ =>
    cases w with
    | pull | advance => cases hnests
    | checkpoint | sleep => exact absurd rfl hw

/-- A turn of a strand before any invocation has ended with an error. -/
theorem Clean.turn (hp : e.program = p) (ha : p.Anchored) (hh : p.HandsOn) {sig : Signal}
    (h : Clean p s.frames (.turn sig)) :
    e.Stays (Leads p s.scope.trigger (s.raising? sig)) (e.turn s sig) := by
  obtain ⟨id, sc, frames⟩ := s
  cases h with
  | walks hagenda h => exact walk_stays hp ha hagenda h
  | walked h =>
    generalize hl : Level.flow = l at h
    cases h with
    | trigger hout => exact .go (.of_eq rfl) (.inl hout)
    | @behavior i w k fs hi hk h =>
      exact resumeBehavior_stays (s := ⟨id, sc, fs⟩) hi hk.of_ok h _
    | _ => cases hl
  | invokes hi h => exact invoke_stays hh hi h
  | behaves hi hs h => exact behave_stays hp ha hh hi hs h
  | invoked hi h =>
    generalize hl : Level.invocation = l at h
    cases h with
    | walk hrest h => exact continueFrom_stays hp ha hrest h
    | output h => exact .go (.of_eq rfl) (.inr (.of_outputResult _ _ _ _ h))
    | hop h => exact .park (.of_eq rfl) (.inr (.invoked hi (.output h)))
    | @behavior _ w => cases w <;> cases hl
    | trigger => cases hl
  | input h => exact pullInput_stays _ _ h
  | output h => exact pullOutput_stays hp _ _ h
  | pulled h =>
    generalize hl : Level.value = l at h
    cases h with
    | @behavior i w k fs hi hk h => exact resumeBehavior_stays (s := ⟨id, sc, fs⟩) hi hk.of_ok h _
    | _ => cases hl
  | raised herr h =>
    generalize hl : Level.value = l at h
    cases h with
    | @behavior i w k fs hi hk h =>
      have hw : w.level ≠ .pause := hl ▸ nofun
      exact .go (.of_eq rfl) (.inr (.behaves hi ((hk.passes hw _).handsOn herr) h))
    | _ => cases hl
  | pauses hq h =>
    generalize hl : Level.pause = l at h
    cases h with
    | @behavior i w k fs hi hk h =>
      cases sig with
      | back r => exact resumeBehavior_stays (s := ⟨id, sc, fs⟩) hi hk.of_ok h r
      | _ => exact hq.elim
    | _ => cases hl

/-- The error that ends an invocation is new, as long as no other has. -/
theorem Clean.raising {sig : Signal} (h : Clean p s.frames (.turn sig)) {i : Invocation} {err : Raised}
    (hr : s.raising? sig = some (i, err)) : err.silent = false ∧ p.Runs i := by
  obtain ⟨id, sc, frames⟩ := s
  cases h with
  | walks | input | output | raised => cases hr
  | invokes hi _ =>
    simp only [Strand.raising?] at hr
    split at hr
    · obtain ⟨rfl, rfl⟩ := Prod.mk.inj (Option.some.inj hr)
      exact ⟨rfl, hi⟩
    · cases hr
  | behaves hi hs _ =>
    cases hs with
    | fail herr =>
      obtain ⟨rfl, rfl⟩ := Prod.mk.inj (Option.some.inj hr)
      exact ⟨herr, hi⟩
    | again state =>
      simp only [Strand.raising?] at hr
      split at hr
      · obtain ⟨rfl, rfl⟩ := Prod.mk.inj (Option.some.inj hr)
        exact ⟨rfl, hi⟩
      · cases hr
    | _ => cases hr
  | walked h =>
    generalize hl : Level.flow = l at h
    cases h <;> first | cases hr | cases hl
  | @invoked v _ hi h =>
    generalize Level.invocation = l at h
    cases h with
    | walk _ _ =>
      cases v with
      | str port =>
        simp only [Strand.raising?, Result.astray?] at hr
        split at hr
        · obtain ⟨rfl, rfl⟩ := Prod.mk.inj (Option.some.inj hr)
          exact ⟨rfl, hi⟩
        · cases hr
      | _ => cases hr
    | _ => cases hr
  | pulled h =>
    generalize Level.value = l at h
    cases h <;> cases hr
  | pauses hq h =>
    generalize hl : Level.pause = l at h
    cases h with
    | behavior =>
      cases sig with
      | back r => cases hr
      | _ => exact hq.elim
    | _ => cases hl

/-- A turn of a strand on which a failure is on its way. -/
theorem Failing.turn {f : Failure} (hf : f.reported = true) {sig : Signal} (h : Failing p f s.frames (.turn sig)) :
    e.Stays (fun x => Failing p f x.1.frames x.2) (e.turn s sig) := by
  have hsame : e.Welcomes e := .of_eq rfl
  obtain ⟨id, sc, frames⟩ := s
  generalize hfs : frames = fs at h
  -- the error runs down the frames; a behaviour that is handed it may only clean up and pass it on
  cases h with
  | @raises l _ hl h =>
    subst hfs
    cases h with
    | trigger hout => exact .go (.of_eq rfl) (.inl hout)
    | behavior _ hk h => exact .go hsame (.inr (.cleans (hk.passes hl _) h))
    | walk _ h =>
      have hl : Level.flow ≠ .pause := nofun
      exact .go hsame (.inr (.raises hl h))
    | output h =>
      have hl : Level.value ≠ .pause := nofun
      exact .go hsame (.inr (.raises hl h))
    | hop h => exact .park (.of_eq rfl) (.inr (.raises hl (.output h)))
  | cleans hs h =>
    subst hfs
    cases hs with
    | fail =>
      show e.Stays _ (e.failInvocation _ _ _)
      have hr : Raised.silent (.failure f) = true := hf
      have hl : Level.invocation ≠ .pause := nofun
      rw [Engine.failInvocation_eq, hr]
      exact .go hsame (.inr (.raises hl h))
    | @ask q k hk => exact .go (e.welcomes_perform _ sc q) (.inr (.cleans (hk _) h))
    | @edit c k hk => exact .go (Engine.Tended.command e c).strands (.inr (.cleans (hk _) h))
    | @pause w k hw hk =>
      cases w with
      | checkpoint => exact .park (.of_eq rfl) (.inr (.pauses rfl hk trivial h))
      | sleep seconds =>
        show e.Stays _ (e.awaitFor _ _ _ _)
        simp only [Engine.awaitFor]
        split
        · exact .go hsame (.inr (.cleans (hk _) h))
        · exact .park (.of_eq rfl) (.inr (.pauses rfl hk trivial h))
      | _ => cases hw
  | @pauses i w k fs q hw hk hq h =>
    subst hfs
    cases sig with
    | back r =>
      show e.Stays _ (e.resumeBehavior ⟨id, sc, fs⟩ i w k r)
      unfold Engine.resumeBehavior
      split
      all_goals exact .go hsame (.inr (.cleans (hk _) h))
    | _ => exact hq.elim

/-- What ends further invocations is the failure itself. -/
theorem Failing.raising {f : Failure} {sig : Signal} (h : Failing p f s.frames (.turn sig)) {i : Invocation}
    {err : Raised} (hr : s.raising? sig = some (i, err)) : err = .failure f := by
  obtain ⟨id, sc, frames⟩ := s
  generalize hfs : frames = fs at h
  cases h with
  | raises => cases hr
  | cleans hs _ =>
    cases hs with
    | fail => exact (Prod.mk.inj (Option.some.inj hr)).2.symm
    | _ => cases hr
  | pauses _ _ hq _ =>
    subst hfs
    cases sig with
    | back r => cases hr
    | _ => exact hq.elim

/-- Right above its trigger a clean strand raises nothing. -/
theorem Clean.not_raises {node : String} {origin : Origin} {fs : List Frame} {err : Raised} :
    ¬Clean p (.trigger node origin :: fs) (.turn (.raise err)) := by
  intro h
  cases h with
  | raised _ h =>
    generalize hl : Level.value = l at h
    cases h
    cases hl
  | pauses hq _ => exact hq.elim

/-- Right above its trigger a failing strand raises the failure. -/
theorem Failing.raises_of_trigger {node : String} {origin : Origin} {fs : List Frame} {f : Failure} {sig : Signal}
    (h : Failing p f (.trigger node origin :: fs) (.turn sig)) : sig = .raise (.failure f) := by
  cases h with
  | raises => rfl
  | cleans _ h =>
    generalize hl : Level.invocation = l at h
    cases h
    cases hl

end Turns

end Patchbay
