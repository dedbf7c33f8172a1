import Patchbay.Proofs.Courses

/-!
# Triggers that are alike

Two strands, of two engines that run the same program, may be in the same place of a trigger. The triggers
have different numbers, the engines differ in everything that is not the program, and the strands go back to
different requests when their triggers end. Alike strands have alike turns: what a turn does inside a trigger
depends on the program, on the scope of the trigger and on the frames above it.

For that behaviours may use nothing that triggers share. They are related to themselves: for answers that are
the same but for the numbers of two triggers, a behaviour goes on in the same way but for these numbers.

Contents:
* `Failure.Like`, `Raised.Like`: errors that are the same but for the numbers of two triggers.
* `Query.isolated`, `Command.Steady`: questions and commands whose answers only depend on the program and on
  the invocation.
* `Script.Like`, `Program.Isolated`: behaviours that use nothing that triggers share.
* `FramesLike`, `Signal.Like`, `Alike`: strands in the same place of a trigger.
* `Heirs`: what two turns leave alike strands as.

Results:
* `Alike.turn`: alike strands have alike turns.
* `Alike.told`, `Alike.ends`: they tell the same, and end their triggers with alike results.
-/

namespace Patchbay

/-! ## Errors -/

/-- Whether two failures are the same, but for the numbers of two triggers. -/
structure Failure.Like (T₁ T₂ : Nat) (f₁ f₂ : Failure) : Prop where
  same : f₂ = { f₁ with trigger := f₂.trigger }
  trigger : f₁.trigger = f₂.trigger ∨ f₁.trigger = some (.serial T₁) ∧ f₂.trigger = some (.serial T₂)

/-- Whether two errors are the same, but for the numbers of two triggers. -/
inductive Raised.Like (T₁ T₂ : Nat) : Raised → Raised → Prop
  | failure {f₁ f₂ : Failure} (h : f₁.Like T₁ T₂ f₂) : Like T₁ T₂ (.failure f₁) (.failure f₂)
  | fault (f : Fault) : Like T₁ T₂ (.fault f) (.fault f)
  | mute (f : Fault) : Like T₁ T₂ (.mute f) (.mute f)

/-- Whether two answers are the same, but for the numbers of two triggers in errors. -/
inductive AnswersLike (T₁ T₂ : Nat) {α : Type} : Except Raised α → Except Raised α → Prop
  | ok (a : α) : AnswersLike T₁ T₂ (.ok a) (.ok a)
  | error {err₁ err₂ : Raised} (h : err₁.Like T₁ T₂ err₂) : AnswersLike T₁ T₂ (.error err₁) (.error err₂)

section Errors

variable {T₁ T₂ : Nat} {f₁ f₂ : Failure} {err₁ err₂ : Raised}

theorem Failure.Like.refl (f : Failure) : f.Like T₁ T₂ f := ⟨rfl, .inl rfl⟩

theorem Raised.Like.refl (err : Raised) : err.Like T₁ T₂ err := by
  cases err with
  | failure f => exact .failure (.refl f)
  | fault f => exact .fault f
  | mute f => exact .mute f

theorem Failure.Like.cause (h : f₁.Like T₁ T₂ f₂) : f₂.cause = f₁.cause := by rw [h.same]

theorem Failure.Like.family (h : f₁.Like T₁ T₂ f₂) : f₂.family = f₁.family := by
  rw [Failure.family, h.cause, Failure.family]

theorem Failure.Like.message (h : f₁.Like T₁ T₂ f₂) : f₂.message = f₁.message := by
  rw [Failure.message, h.cause, Failure.message]

theorem Raised.Like.silent (h : err₁.Like T₁ T₂ err₂) : err₂.silent = err₁.silent := by
  cases h with
  | failure h => rw [Raised.silent, h.same, Raised.silent]
  | fault f => rfl
  | mute f => rfl

theorem Raised.Like.passed (h : err₁.Like T₁ T₂ err₂) : err₁.passed.Like T₁ T₂ err₂.passed := by
  cases h with
  | failure h => exact .failure h
  | fault f => exact .fault f
  | mute f => exact .fault .value

theorem Failure.Like.markReported (h : f₁.Like T₁ T₂ f₂) :
    Failure.Like T₁ T₂ { f₁ with reported := true } { f₂ with reported := true } := by
  refine ⟨?_, h.trigger⟩
  rw [h.same]

theorem Failure.Like.atNode (h : f₁.Like T₁ T₂ f₂) (node : String) :
    (f₁.atNode node).Like T₁ T₂ (f₂.atNode node) := by
  have hnode : f₂.node = f₁.node := by rw [h.same]
  unfold Failure.atNode
  rw [hnode]
  split
  · refine ⟨?_, h.trigger⟩
    rw [h.same]
  · exact h

/-- Each failure takes the number of its own trigger, unless both name one. -/
theorem Failure.Like.inTrigger (h : f₁.Like T₁ T₂ f₂) :
    (f₁.inTrigger (.serial T₁)).Like T₁ T₂ (f₂.inTrigger (.serial T₂)) := by
  have hput : Failure.Like T₁ T₂ { f₁ with trigger := some (.serial T₁) }
      { f₂ with trigger := some (.serial T₂) } := by
    refine ⟨?_, .inr ⟨rfl, rfl⟩⟩
    rw [h.same]
  unfold Failure.inTrigger
  rcases h.trigger with htrigger | ⟨h₁, h₂⟩
  · rw [← htrigger]
    split
    · exact hput
    · exact hput
    · exact h
  · rw [h₁, h₂]
    exact h

/-- An error at one invocation in each of two triggers. -/
theorem Raised.Like.atInvocation (h : err₁.Like T₁ T₂ err₂) (i : Invocation) :
    (err₁.atInvocation T₁ i).Like T₁ T₂ (err₂.atInvocation T₂ i) := by
  cases h with
  | failure h => exact (h.atNode i.node).inTrigger
  | fault f => exact ⟨rfl, .inr ⟨rfl, rfl⟩⟩
  | mute f => exact ⟨rfl, .inr ⟨rfl, rfl⟩⟩

end Errors

/-! ## Behaviours -/

/-- Whether a question is about the invocation and its trigger alone. Variables, what nodes keep,
registrations and the clock are shared between triggers. -/
def Query.isolated : Query → Bool
  | .input _ | .memoize _ _ | .log _ _ | .halt | .situation | .dependencies => true
  | _ => false

/-- Whether what a command is answered with depends on the program alone, while an engine runs. -/
def Command.Steady (c : Command) : Prop :=
  ∀ e₁ e₂ : Engine, e₁.program = e₂.program → e₁.running = true → e₂.running = true →
    (e₁.command c).1 = (e₂.command c).1

/-- Scripts that are the same, but for the numbers of two triggers, and use nothing that triggers share. -/
inductive Script.Like (T₁ T₂ : Nat) : Script → Script → Prop
  | finish (v : Value) : Like T₁ T₂ (.finish v) (.finish v)
  | fail {err₁ err₂ : Raised} (h : err₁.Like T₁ T₂ err₂) : Like T₁ T₂ (.fail err₁) (.fail err₂)
  | again (state : Value) : Like T₁ T₂ (.again state) (.again state)
  | ask {q : Query} {k₁ k₂ : Except Raised q.Reply → Script} (hq : q.isolated = true)
      (h : ∀ r, Like T₁ T₂ (k₁ r) (k₂ r)) : Like T₁ T₂ (.ask q k₁) (.ask q k₂)
  | edit {c : Command} {k₁ k₂ : Except Raised Answer → Script} (hc : c.Steady)
      (h : ∀ r, Like T₁ T₂ (k₁ r) (k₂ r)) : Like T₁ T₂ (.edit c k₁) (.edit c k₂)
  | wait {w : Wait} {k₁ k₂ : Except Raised w.Reply → Script}
      (h : ∀ r₁ r₂, AnswersLike T₁ T₂ r₁ r₂ → Like T₁ T₂ (k₁ r₁) (k₂ r₂)) :
      Like T₁ T₂ (.wait w k₁) (.wait w k₂)

/-- Whether behaviours use nothing that triggers share, and do not depend on the numbers of triggers. -/
def Program.Isolated (p : Program) : Prop :=
  ∀ k ∈ p.registry.kinds, ∀ b, k.behavior = some b → ∀ state T₁ T₂, (b state).Like T₁ T₂ (b state)

theorem Program.Isolated.of_runs {p : Program} (h : p.Isolated) {i : Invocation} (hi : p.Runs i) {b : Behavior}
    (hb : i.kind.behavior = some b) (state : Value) (T₁ T₂ : Nat) : (b state).Like T₁ T₂ (b state) := by
  obtain ⟨n, hn, -⟩ := hi
  exact h i.kind (Program.mem_kinds hn) b hb state T₁ T₂

/-! ## Dependencies -/

/-- Whether all that was read is outputs. -/
def Dependencies.Local (ds : Dependencies) : Prop := ∀ x ∈ ds, ∃ node port, x.1 = .output node port

/-- Whether all that the cached nodes of a scope had read is outputs. -/
def Scope.Local (sc : Scope) : Prop := ∀ x ∈ sc.cached, Dependencies.Local x.2

namespace Dependencies.Local

variable {ds es : Dependencies}

theorem nil : Dependencies.Local [] := fun _ hx => nomatch hx

theorem output (node : String) (port : Value) (n : Nat) : Dependencies.Local [(.output node port, n)] := by
  intro x hx
  rw [List.mem_singleton.mp hx]
  exact ⟨node, port, rfl⟩

theorem note (h : ds.Local) {d : Dependency} (hd : ∃ node port, d = .output node port) (n : Nat) :
    (ds.note d n).Local := by
  induction ds with
  | nil =>
    intro x hx
    rw [List.mem_singleton.mp hx]
    exact hd
  | cons y rest ih =>
    obtain ⟨hy, hrest⟩ := List.forall_mem_cons.mp h
    unfold Dependencies.note
    split
    · exact List.forall_mem_cons.mpr ⟨hy, hrest⟩
    · exact List.forall_mem_cons.mpr ⟨hy, ih hrest⟩

theorem merge (h : ds.Local) (h' : es.Local) : (ds.merge es).Local := by
  unfold Dependencies.merge
  induction es generalizing ds with
  | nil => exact h
  | cons y rest ih =>
    obtain ⟨hy, hrest⟩ := List.forall_mem_cons.mp h'
    exact ih (h.note hy y.2) hrest

end Dependencies.Local

/-! ## Scopes -/

/-- The scope of another trigger that has come as far. -/
def Scope.renumber (T : Nat) (sc : Scope) : Scope := { sc with trigger := T }

namespace Scope.Local

variable {sc : Scope}

theorem cached? (h : sc.Local) {node : String} {ds : Dependencies} (hds : sc.cached? node = some ds) :
    ds.Local := by
  obtain ⟨l₁, l₂, heq, -⟩ := List.lookup_eq_some_iff.mp hds
  refine h (node, ds) ?_
  rw [heq]
  exact List.mem_append_right _ List.mem_cons_self

theorem resetNode (h : sc.Local) (node : String) : (sc.resetNode node).Local :=
  fun x hx => h x (List.mem_of_mem_filter hx)

theorem cache (h : sc.Local) (node : String) {ds : Dependencies} (hds : ds.Local) : (sc.cache node ds).Local := by
  intro x hx
  rcases List.mem_cons.mp hx with rfl | hx
  · exact hds
  · exact h x (List.mem_of_mem_filter hx)

/-- Publications leave what is cached as it is. -/
theorem publishAll (h : sc.Local) (node : String) (es : Dict) :
    (es.foldl (fun sc x => sc.publish node x.1 x.2) sc).Local := by
  induction es generalizing sc with
  | nil => exact h
  | cons x rest ih =>
    have hnext : (sc.publish node x.1 x.2).Local := h
    exact ih hnext

end Scope.Local

theorem Scope.publishAll_renumber (T : Nat) (node : String) (es : Dict) (sc : Scope) :
    es.foldl (fun sc x => sc.publish node x.1 x.2) (sc.renumber T) =
      (es.foldl (fun sc x => sc.publish node x.1 x.2) sc).renumber T := by
  induction es generalizing sc with
  | nil => rfl
  | cons x rest ih => exact ih (sc.publish node x.1 x.2)

/-- Whether outputs have moved does not depend on the engine. -/
theorem Dependencies.Local.stillCurrent {ds : Dependencies} (h : ds.Local) (e₁ e₂ : Engine) (sc : Scope) (T : Nat) :
    e₂.stillCurrent (sc.renumber T) ds = e₁.stillCurrent sc ds := by
  rw [Bool.eq_iff_iff, Engine.stillCurrent, Engine.stillCurrent, List.all_eq_true, List.all_eq_true]
  refine forall₂_congr fun x hx => ?_
  obtain ⟨d, n⟩ := x
  obtain ⟨node, port, rfl⟩ := h _ hx
  rfl

/-! ## Strands -/

/-- An invocation of a node of a program that has read outputs only. -/
structure Invocation.Isolated (p : Program) (i : Invocation) : Prop where
  runs : p.Runs i
  reads : i.dependencies.Local

/-- A result that only depends on outputs. -/
def Result.Isolated (p : Program) : Result → Prop
  | .pulled _ ds => ds.Local
  | .invoked _ i => i.Isolated p
  | _ => True

/-- The frames of two triggers in the same place. Below their triggers strands may differ. -/
inductive FramesLike (p : Program) (T₁ T₂ : Nat) : List Frame → List Frame → Prop
  | trigger {node : String} {origin : Origin} {fs₁ fs₂ : List Frame} (h₁ : ∀ f ∈ fs₁, f.Outer)
      (h₂ : ∀ f ∈ fs₂, f.Outer) : FramesLike p T₁ T₂ (.trigger node origin :: fs₁) (.trigger node origin :: fs₂)
  | behavior {i : Invocation} {w : Wait} {k₁ k₂ : Except Raised w.Reply → Script} {fs₁ fs₂ : List Frame}
      (hi : i.Isolated p) (hk : ∀ r₁ r₂, AnswersLike T₁ T₂ r₁ r₂ → (k₁ r₁).Like T₁ T₂ (k₂ r₂))
      (h : FramesLike p T₁ T₂ fs₁ fs₂) : FramesLike p T₁ T₂ (.behavior i w k₁ :: fs₁) (.behavior i w k₂ :: fs₂)
  | walk (agenda : List String) {fs₁ fs₂ : List Frame} (h : FramesLike p T₁ T₂ fs₁ fs₂) :
      FramesLike p T₁ T₂ (.walk agenda :: fs₁) (.walk agenda :: fs₂)
  | output (node port : String) (serial : Nat) {fs₁ fs₂ : List Frame} (h : FramesLike p T₁ T₂ fs₁ fs₂) :
      FramesLike p T₁ T₂ (.output node port serial :: fs₁) (.output node port serial :: fs₂)
  | hop {fs₁ fs₂ : List Frame} (h : FramesLike p T₁ T₂ fs₁ fs₂) :
      FramesLike p T₁ T₂ (.hop :: fs₁) (.hop :: fs₂)

/-- What two strands do next in the same place. -/
inductive Signal.Like (p : Program) (T₁ T₂ : Nat) : Signal → Signal → Prop
  | walk (agenda : List String) : Like p T₁ T₂ (.call (.walk agenda)) (.call (.walk agenda))
  | invoke {i : Invocation} (hi : i.Isolated p) : Like p T₁ T₂ (.call (.invoke i)) (.call (.invoke i))
  | behave {i : Invocation} {script₁ script₂ : Script} (hi : i.Isolated p) (h : script₁.Like T₁ T₂ script₂) :
      Like p T₁ T₂ (.call (.behave i script₁)) (.call (.behave i script₂))
  | input (node port : String) : Like p T₁ T₂ (.call (.input node port)) (.call (.input node port))
  | output (node port : String) : Like p T₁ T₂ (.call (.output node port)) (.call (.output node port))
  | back {r : Result} (hr : r.Isolated p) : Like p T₁ T₂ (.back r) (.back r)
  | raise {err₁ err₂ : Raised} (h : err₁.Like T₁ T₂ err₂) : Like p T₁ T₂ (.raise err₁) (.raise err₂)

/-- Inside a trigger none begins. -/
theorem Signal.Like.ne_trigger {p : Program} {T₁ T₂ : Nat} {sig₁ sig₂ : Signal} (h : sig₁.Like p T₁ T₂ sig₂)
    (node : String) (origin : Origin) (port : Option String) (seeds : Dict) :
    sig₁ ≠ .call (.trigger node origin port seeds) ∧ sig₂ ≠ .call (.trigger node origin port seeds) := by
  cases h <;> exact ⟨nofun, nofun⟩

/-- Whether two strands are in the same place of their triggers. -/
structure Abreast (p : Program) (T₁ T₂ : Nat) (s₁ s₂ : Strand) : Prop where
  trigger : s₁.scope.trigger = T₁
  scope : s₂.scope = s₁.scope.renumber T₂
  cached : s₁.scope.Local
  frames : FramesLike p T₁ T₂ s₁.frames s₂.frames

/-- Whether two strands are in the same place, and do the same there. -/
structure Alike (p : Program) (T₁ T₂ : Nat) (s₁ : Strand) (sig₁ : Signal) (s₂ : Strand) (sig₂ : Signal) :
    Prop where
  place : Abreast p T₁ T₂ s₁ s₂
  signal : sig₁.Like p T₁ T₂ sig₂

/-- The signal with which a strand goes on that waits inside a trigger, where sleeps from one on last their
time. -/
def Parked.signal? (z : Nat) : Parked → Option Signal
  | .turn sig => some sig
  | .sleep id => if z ≤ id then some (.back (.flag true)) else none
  | _ => none

/-- Whether a strand goes on with a signal, where sleeps from one on last their time. -/
def Awaits (z : Nat) (s : Strand) (sig : Signal) (x : Strand × Parked) : Prop :=
  x.1 = s ∧ x.2.signal? z = some sig

theorem Awaits.mono {z z' : Nat} {s : Strand} {sig : Signal} {x : Strand × Parked} (h : Awaits z' s sig x)
    (hz : z ≤ z') : Awaits z s sig x := by
  refine ⟨h.1, ?_⟩
  have hsig := h.2
  cases hx : x.2 with
  | sleep id =>
    rw [hx, Parked.signal?, ite_eq_iff] at hsig
    rw [Parked.signal?, if_pos (hz.trans (hsig.resolve_right fun h => nomatch h.2).1)]
    exact (hsig.resolve_right fun h => nomatch h.2).2
  | _ => rw [hx] at hsig; exact hsig

/-- What two turns leave the strands as that had them: in the same place, or outside triggers. -/
inductive Heirs (p : Program) (T₁ T₂ : Nat) (e₁ e₂ : Engine) (t₁ t₂ : Engine.Turn) : Prop
  | inside {s₁ s₂ : Strand} {sig₁ sig₂ : Signal} (h : Alike p T₁ T₂ s₁ sig₁ s₂ sig₂)
      (h₁ : e₁.Finds (Awaits e₁.scheduler.nextSleeper s₁ sig₁) t₁)
      (h₂ : e₂.Finds (Awaits e₂.scheduler.nextSleeper s₂ sig₂) t₂)
  | outside (h₁ : e₁.Finds (fun x => ∀ f ∈ x.1.frames, f.Outer) t₁)
      (h₂ : e₂.Finds (fun x => ∀ f ∈ x.1.frames, f.Outer) t₂)

section Turns

variable {p : Program} {T₁ T₂ : Nat} {e₁ e₂ e₁' e₂' : Engine} {s₁ s₂ : Strand} {sig₁ sig₂ : Signal}

theorem Abreast.rescope (h : Abreast p T₁ T₂ s₁ s₂) {sc : Scope} (ht : sc.trigger = T₁) (hc : sc.Local) :
    Abreast p T₁ T₂ { s₁ with scope := sc } { s₂ with scope := sc.renumber T₂ } :=
  ⟨ht, rfl, hc, h.frames⟩

theorem Abreast.push (h : Abreast p T₁ T₂ s₁ s₂) {f₁ f₂ : Frame}
    (hf : FramesLike p T₁ T₂ (f₁ :: s₁.frames) (f₂ :: s₂.frames)) :
    Abreast p T₁ T₂ { s₁ with frames := f₁ :: s₁.frames } { s₂ with frames := f₂ :: s₂.frames } :=
  ⟨h.trigger, h.scope, h.cached, hf⟩

theorem Heirs.go (hs : Abreast p T₁ T₂ s₁ s₂) (hsig : sig₁.Like p T₁ T₂ sig₂) (w₁ : e₁.Welcomes e₁')
    (w₂ : e₂.Welcomes e₂') : Heirs p T₁ T₂ e₁ e₂ (e₁'.go s₁ sig₁) (e₂'.go s₂ sig₂) :=
  .inside ⟨hs, hsig⟩ (.go w₁ ⟨rfl, rfl⟩) (.go w₂ ⟨rfl, rfl⟩)

theorem Heirs.parkTurn (hs : Abreast p T₁ T₂ s₁ s₂) (hsig : sig₁.Like p T₁ T₂ sig₂) (w₁ : e₁.Welcomes e₁')
    (w₂ : e₂.Welcomes e₂') :
    Heirs p T₁ T₂ e₁ e₂ ⟨e₁'.parkTurn s₁ sig₁, none⟩ ⟨e₂'.parkTurn s₂ sig₂, none⟩ :=
  .inside ⟨hs, hsig⟩ (.park w₁ ⟨rfl, rfl⟩) (.park w₂ ⟨rfl, rfl⟩)

/-- Strands that sleep from now on. -/
theorem Heirs.sleep (hs : Abreast p T₁ T₂ s₁ s₂) (w₁ : e₁.Welcomes e₁') (w₂ : e₂.Welcomes e₂') :
    Heirs p T₁ T₂ e₁ e₂ ⟨e₁'.park s₁ (.sleep e₁.scheduler.nextSleeper), none⟩
      ⟨e₂'.park s₂ (.sleep e₂.scheduler.nextSleeper), none⟩ := by
  have hsig : Signal.Like p T₁ T₂ (.back (.flag true)) (.back (.flag true)) := .back trivial
  exact .inside ⟨hs, hsig⟩ (.park w₁ ⟨rfl, if_pos le_rfl⟩) (.park w₂ ⟨rfl, if_pos le_rfl⟩)

/-- Engines that run one program find the same nodes, but for what these show. -/
theorem Engine.nodeWithKind_same (h₁ : e₁.program = p) (h₂ : e₂.program = p) (id : String) :
    (∃ err, e₁.nodeWithKind id = .error err ∧ e₂.nodeWithKind id = .error err) ∨
      ∃ n₁ n₂ k, e₁.nodeWithKind id = .ok (n₁, k) ∧ e₂.nodeWithKind id = .ok (n₂, k) ∧ n₂.bare = n₁.bare := by
  rcases e₁.nodeWithKind_cases h₁ id with ⟨err, hn₁, hp₁⟩ | ⟨n₁, k₁, hn₁, hp₁⟩
  · rcases e₂.nodeWithKind_cases h₂ id with ⟨err', hn₂, hp₂⟩ | ⟨n₂, k₂, -, hp₂⟩
    · obtain rfl := Except.error.inj (hp₁.symm.trans hp₂)
      exact .inl ⟨err, hn₁, hn₂⟩
    · cases hp₁.symm.trans hp₂
  · rcases e₂.nodeWithKind_cases h₂ id with ⟨err', -, hp₂⟩ | ⟨n₂, k₂, hn₂, hp₂⟩
    · cases hp₁.symm.trans hp₂
    · obtain ⟨hbare, rfl⟩ := Prod.mk.inj (Except.ok.inj (hp₁.symm.trans hp₂))
      exact .inr ⟨n₁, n₂, k₁, hn₁, hn₂, hbare.symm⟩

theorem Engine.outgoing_same (h₁ : e₁.program = p) (h₂ : e₂.program = p) (node : String) (port : Option String) :
    e₂.graph.outgoing node port = e₁.graph.outgoing node port := by
  rw [e₁.outgoing_program h₁, e₂.outgoing_program h₂]

theorem Engine.execTargets_same (h₁ : e₁.program = p) (h₂ : e₂.program = p) (node : String) (k : Kind Behavior)
    (port : Option String) : e₂.execTargets node k port = e₁.execTargets node k port := by
  rw [Engine.execTargets, Engine.outgoing_same h₁ h₂, Engine.execTargets]

theorem Engine.destinations_same (h₁ : e₁.program = p) (h₂ : e₂.program = p) (node : String)
    (port : Option String) : e₂.destinations node port = e₁.destinations node port := by
  rw [Engine.destinations, Engine.outgoing_same h₁ h₂, Engine.destinations]

/-! ## Invocations -/

theorem failInvocation_heirs (hs : Abreast p T₁ T₂ s₁ s₂) {err₁ err₂ : Raised} (h : err₁.Like T₁ T₂ err₂)
    (i : Invocation) (w₁ : e₁.Welcomes e₁') (w₂ : e₂.Welcomes e₂') :
    Heirs p T₁ T₂ e₁ e₂ (e₁'.failInvocation s₁ i err₁) (e₂'.failInvocation s₂ i err₂) := by
  have ht₂ : s₂.scope.trigger = T₂ := by rw [hs.scope]; rfl
  rw [Engine.failInvocation_eq, Engine.failInvocation_eq, h.silent, hs.trigger, ht₂]
  cases err₁.silent with
  | true => exact .go hs (.raise h.passed) w₁ w₂
  | false => exact .go hs (.raise (.failure (h.atInvocation i).markReported)) w₁ w₂

theorem invoke_heirs (hiso : p.Isolated) (hs : Abreast p T₁ T₂ s₁ s₂) {i : Invocation} (hi : i.Isolated p) :
    Heirs p T₁ T₂ e₁ e₂ (e₁.invoke s₁ i) (e₂.invoke s₂ i) := by
  unfold Engine.invoke
  cases hb : i.kind.behavior with
  | some b => exact .go hs (.behave hi (hiso.of_runs hi.runs hb _ _ _)) (.of_eq rfl) (.of_eq rfl)
  | none => exact failInvocation_heirs hs (.fault _) i (.of_eq rfl) (.of_eq rfl)

/-- The literals of the node of an invocation are those of the program. -/
theorem Engine.literal_program (h : e₁.program = p) {i : Invocation} (hi : p.Runs i) (port : String) :
    ((e₁.nodeBySerial? i.serial).bind fun n => n.literals.get? port) =
      (p.graph.nodes.find? fun n => n.serial == i.serial).bind fun n => n.literals.get? port := by
  have hnodes : p.graph.nodes = e₁.graph.nodes.map Node.bare := by rw [← h]; rfl
  have hfind : (p.graph.nodes.find? fun n => n.serial == i.serial) =
      (e₁.graph.nodes.find? fun n => n.serial == i.serial).map Node.bare := by
    rw [hnodes, List.find?_map]
    rfl
  rw [hfind, Engine.nodeBySerial?]
  cases hx : e₁.graph.nodes.find? fun n => n.serial == i.serial with
  | some x => rfl
  | none =>
    -- the node of the invocation is in the graph
    obtain ⟨n, hn, hserial⟩ := hi
    rcases e₁.nodeWithKind_cases h i.node with ⟨err, -, herr⟩ | ⟨m, k, hm, hbare⟩
    · cases herr.symm.trans hn
    · obtain ⟨rfl, -⟩ := Prod.mk.inj (Except.ok.inj (hn.symm.trans hbare))
      have hmem := List.mem_of_find?_eq_some (Engine.node?_of_nodeWithKind hm)
      exact absurd (beq_iff_eq.mpr hserial) (List.find?_eq_none.mp hx m hmem)

/-- What is shared between triggers does not matter for the answer to an isolated question. -/
theorem Engine.perform_same (h₁ : e₁.program = p) (h₂ : e₂.program = p) (r₁ : e₁.running = true)
    (r₂ : e₂.running = true) {i : Invocation} (hi : i.Isolated p) {q : Query} (hq : q.isolated = true)
    (sc : Scope) (T : Nat) :
    (e₂.perform i (sc.renumber T) q).reply = (e₁.perform i sc q).reply ∧
      (e₂.perform i (sc.renumber T) q).invocation = (e₁.perform i sc q).invocation ∧
      (e₂.perform i (sc.renumber T) q).scope = (e₁.perform i sc q).scope.renumber T := by
  cases q with
  | input port =>
    refine ⟨?_, rfl, rfl⟩
    simp only [Engine.perform]
    rw [Engine.literal_program h₁ hi.runs, Engine.literal_program h₂ hi.runs]
  | memoize | log | halt | dependencies => exact ⟨rfl, rfl, rfl⟩
  | situation =>
    refine ⟨?_, rfl, rfl⟩
    simp only [Engine.perform, r₁, r₂]
  | _ => cases hq

/-- An isolated question keeps an invocation and its scope isolated. -/
theorem Invocation.Isolated.perform {i : Invocation} (hi : i.Isolated p) {sc : Scope} (hc : sc.Local) {q : Query}
    (hq : q.isolated = true) (e : Engine) : (e.perform i sc q).invocation.Isolated p ∧
      (e.perform i sc q).scope.trigger = sc.trigger ∧ (e.perform i sc q).scope.Local := by
  cases q with
  | memoize port v => exact ⟨hi, rfl, hc⟩
  | halt => exact ⟨⟨hi.runs, hi.reads⟩, rfl, hc⟩
  | input | log | situation | dependencies => exact ⟨hi, rfl, hc⟩
  | _ => cases hq

theorem Engine.welcomes_perform_of_isolated {q : Query} (hq : q.isolated = true) (e : Engine) (i : Invocation)
    (sc : Scope) : e.Welcomes (e.perform i sc q).engine := by
  cases q with
  | input | memoize | log | halt | situation | dependencies => exact .of_eq rfl
  | _ => cases hq

/-- Whether a sleep may start depends on the delay alone. -/
theorem Scheduler.sleep_same {κ α : Type} (sch₁ sch₂ : Scheduler κ α) (seconds : Value)
    (elapsed₁ resume₁ elapsed₂ resume₂ : Nat → α) :
    (∃ f, sch₁.sleep seconds elapsed₁ resume₁ = .error f ∧ sch₂.sleep seconds elapsed₂ resume₂ = .error f) ∨
      ∃ sch₁' sch₂', sch₁.sleep seconds elapsed₁ resume₁ = .ok (sch₁.nextSleeper, sch₁') ∧
        sch₂.sleep seconds elapsed₂ resume₂ = .ok (sch₂.nextSleeper, sch₂') := by
  simp only [Scheduler.sleep, bind, Except.bind, pure, Except.pure]
  cases atLeast seconds 0.0 with
  | error f => exact .inl ⟨f, rfl, rfl⟩
  | ok delay =>
    dsimp only
    cases Loop.delayOf delay with
    | error f => exact .inl ⟨f, rfl, rfl⟩
    | ok x => exact .inr ⟨_, _, rfl, rfl⟩

theorem awaitFor_heirs (h₁ : e₁.program = p) (h₂ : e₂.program = p) (hs : Abreast p T₁ T₂ s₁ s₂) {i : Invocation}
    (hi : i.Isolated p) {w : Wait} {k₁ k₂ : Except Raised w.Reply → Script}
    (hk : ∀ r₁ r₂, AnswersLike T₁ T₂ r₁ r₂ → (k₁ r₁).Like T₁ T₂ (k₂ r₂)) :
    Heirs p T₁ T₂ e₁ e₂ (e₁.awaitFor s₁ i w k₁) (e₂.awaitFor s₂ i w k₂) := by
  have hpush : ∀ {j : Invocation}, j.Isolated p →
      Abreast p T₁ T₂ { s₁ with frames := .behavior j w k₁ :: s₁.frames }
        { s₂ with frames := .behavior j w k₂ :: s₂.frames } := fun hj => hs.push (.behavior hj hk hs.frames)
  cases w with
  | pull port => exact .go (hpush hi) (.input _ _) (.of_eq rfl) (.of_eq rfl)
  | advance port =>
    simp only [Engine.awaitFor]
    split
    · exact .go hs (.behave hi (hk _ _ (.error (.refl _)))) (.of_eq rfl) (.of_eq rfl)
    · rw [Engine.destinations_same h₁ h₂]
      have hj : Invocation.Isolated p { i with advanced := i.advanced ++ [port] } := ⟨hi.runs, hi.reads⟩
      exact .go (hpush hj) (.walk _) (.of_eq rfl) (.of_eq rfl)
  | checkpoint => exact .parkTurn (hpush hi) (.back trivial) (.of_eq rfl) (.of_eq rfl)
  | sleep seconds =>
    simp only [Engine.awaitFor]
    rcases Scheduler.sleep_same e₁.scheduler e₂.scheduler seconds .elapse (fun _ => .resume s₁.id) .elapse
      (fun _ => .resume s₂.id) with ⟨f, hf₁, hf₂⟩ | ⟨sch₁, sch₂, hx₁, hx₂⟩
    · rw [hf₁, hf₂]
      exact .go hs (.behave hi (hk _ _ (.error (.fault f)))) (.of_eq rfl) (.of_eq rfl)
    · rw [hx₁, hx₂]
      have hset : ∀ (e : Engine) sch, e.Welcomes { e with scheduler := sch } := fun _ _ => .of_eq rfl
      exact .sleep (hpush hi) (hset e₁ sch₁) (hset e₂ sch₂)

/-- What a node shows is not read by any trigger. -/
theorem Engine.strands_finishInvocation (e : Engine) (s : Strand) (i : Invocation) (v : Value) :
    e.Welcomes (e.finishInvocation s i v).engine := by
  refine .of_eq ?_
  unfold Engine.finishInvocation
  dsimp only
  split <;> rfl

theorem finishInvocation_heirs (hs : Abreast p T₁ T₂ s₁ s₂) {i : Invocation} (hi : i.Isolated p) (v : Value) :
    Heirs p T₁ T₂ e₁ e₂ (e₁.finishInvocation s₁ i v) (e₂.finishInvocation s₂ i v) := by
  have hcount : Abreast p T₁ T₂ { s₁ with scope := { s₁.scope with executed := s₁.scope.executed + 1 } }
      { s₂ with scope := { s₂.scope with executed := s₂.scope.executed + 1 } } := by
    rw [hs.scope]
    exact hs.rescope hs.trigger hs.cached
  exact .go hcount (.back hi) (e₁.strands_finishInvocation s₁ i v) (e₂.strands_finishInvocation s₂ i v)

theorem behave_heirs (hiso : p.Isolated) (h₁ : e₁.program = p) (h₂ : e₂.program = p) (r₁ : e₁.running = true)
    (r₂ : e₂.running = true) (hs : Abreast p T₁ T₂ s₁ s₂) {i : Invocation} (hi : i.Isolated p)
    {script₁ script₂ : Script} (h : script₁.Like T₁ T₂ script₂) :
    Heirs p T₁ T₂ e₁ e₂ (e₁.behave s₁ i script₁) (e₂.behave s₂ i script₂) := by
  cases h with
  | finish v => exact finishInvocation_heirs hs hi v
  | fail herr => exact failInvocation_heirs hs herr i (.of_eq rfl) (.of_eq rfl)
  | again state =>
    unfold Engine.behave
    cases hb : i.kind.behavior with
    | some b => exact .go hs (.behave hi (hiso.of_runs hi.runs hb _ _ _)) (.of_eq rfl) (.of_eq rfl)
    | none => exact failInvocation_heirs hs (.fault _) i (.of_eq rfl) (.of_eq rfl)
  | @ask q k₁ k₂ hq hk =>
    obtain ⟨hreply, hinvocation, hscope⟩ := Engine.perform_same h₁ h₂ r₁ r₂ hi hq s₁.scope T₂
    obtain ⟨hj, ht, hc⟩ := hi.perform hs.cached hq e₁
    show Heirs p T₁ T₂ e₁ e₂ ((e₁.perform i s₁.scope q).engine.go _ _) ((e₂.perform i s₂.scope q).engine.go _ _)
    rw [hs.scope, hreply, hinvocation, hscope]
    exact .go (hs.rescope (ht.trans hs.trigger) hc) (.behave hj (hk _))
      (e₁.welcomes_perform_of_isolated hq i _) (e₂.welcomes_perform_of_isolated hq i _)
  | @edit c k₁ k₂ hc hk =>
    have hanswer := hc e₁ e₂ (h₁.trans h₂.symm) r₁ r₂
    show Heirs p T₁ T₂ e₁ e₂ ((e₁.command c).2.go s₁ (.call (.behave i (k₁ (e₁.command c).1))))
      ((e₂.command c).2.go s₂ (.call (.behave i (k₂ (e₂.command c).1))))
    rw [← hanswer]
    exact .go hs (.behave hi (hk _)) (Engine.Tended.command e₁ c).strands (Engine.Tended.command e₂ c).strands
  | wait hk => exact awaitFor_heirs h₁ h₂ hs hi hk

/-! ## Control flow and data flow -/

theorem walk_heirs (h₁ : e₁.program = p) (h₂ : e₂.program = p) (r₁ : e₁.running = true) (r₂ : e₂.running = true)
    (hs : Abreast p T₁ T₂ s₁ s₂) (agenda : List String) :
    Heirs p T₁ T₂ e₁ e₂ (e₁.walk s₁ agenda) (e₂.walk s₂ agenda) := by
  cases agenda with
  | nil => exact .go hs (.back trivial) (.of_eq rfl) (.of_eq rfl)
  | cons node rest =>
    simp only [Engine.walk, r₁, r₂, Bool.not_true, Bool.false_eq_true, if_false]
    rcases Engine.nodeWithKind_same h₁ h₂ node with ⟨err, hn₁, hn₂⟩ | ⟨n₁, n₂, k, hn₁, hn₂, hbare⟩
    · rw [hn₁, hn₂]
      exact .go hs (.raise (.refl err)) (.of_eq rfl) (.of_eq rfl)
    · have hserial : n₂.serial = n₁.serial := (congrArg Node.serial hbare :)
      have hi : Invocation.Isolated p { serial := n₁.serial, node := node, kind := k, mode := .exec } :=
        ⟨Engine.runs_of_nodeWithKind h₁ hn₁ .exec, .nil⟩
      simp only [hn₁, hn₂, hserial]
      cases k.behavior with
      | some b => exact .go (hs.push (.walk rest hs.frames)) (.invoke hi) (.of_eq rfl) (.of_eq rfl)
      | none =>
        have htargets : e₂.execTargets node k none = e₁.execTargets node k none :=
          Engine.execTargets_same h₁ h₂ node k none
        have hcount : Abreast p T₁ T₂ { s₁ with scope := { s₁.scope with executed := s₁.scope.executed + 1 } }
            { s₂ with scope := { s₂.scope with executed := s₂.scope.executed + 1 } } := by
          rw [hs.scope]
          exact hs.rescope hs.trigger hs.cached
        refine .go hcount ?_ (.of_eq rfl) (.of_eq rfl)
        show Signal.Like p T₁ T₂ (.call (.walk (e₁.execTargets node k none ++ rest)))
          (.call (.walk (e₂.execTargets node k none ++ rest)))
        rw [htargets]
        exact .walk _

theorem Signal.Like.literalResult (port : Port) (v : Value) :
    (Engine.literalResult port v).Like p T₁ T₂ (Engine.literalResult port v) := by
  unfold Engine.literalResult
  split
  · exact .back .nil
  · exact .raise (.fault _)

theorem Signal.Like.outputResult (sc : Scope) (node port : String) {ds : Dependencies} (hds : ds.Local) :
    (Engine.outputResult sc node port ds).Like p T₁ T₂ (Engine.outputResult (sc.renumber T₂) node port ds) := by
  have hsame : Engine.outputResult (sc.renumber T₂) node port ds = Engine.outputResult sc node port ds := rfl
  rw [hsame]
  unfold Engine.outputResult
  split
  · exact .back hds
  · exact .raise (.refl _)

theorem pullInput_heirs (h₁ : e₁.program = p) (h₂ : e₂.program = p) (hs : Abreast p T₁ T₂ s₁ s₂)
    (node port : String) : Heirs p T₁ T₂ e₁ e₂ (e₁.pullInput s₁ node port) (e₂.pullInput s₂ node port) := by
  have hgo : ∀ {sig₁ sig₂ : Signal}, sig₁.Like p T₁ T₂ sig₂ →
      Heirs p T₁ T₂ e₁ e₂ (e₁.go s₁ sig₁) (e₂.go s₂ sig₂) := fun h => .go hs h (.of_eq rfl) (.of_eq rfl)
  have hprogram := h₂.trans h₁.symm
  have hconfig : e₂.config = e₁.config := congrArg Program.config hprogram
  have hedge : e₂.graph.incoming? node port = e₁.graph.incoming? node port :=
    congrArg (fun q => q.graph.incoming? node port) hprogram
  unfold Engine.pullInput
  rcases Engine.nodeWithKind_same h₁ h₂ node with ⟨err, hn₁, hn₂⟩ | ⟨n₁, n₂, k, hn₁, hn₂, hbare⟩
  · rw [hn₁, hn₂]
    exact hgo (.raise (.refl err))
  · have hliterals : n₂.literals = n₁.literals := (congrArg Node.literals hbare :)
    simp only [hn₁, hn₂, hedge, hliterals, hconfig]
    split
    · exact hgo (.raise (.refl _))
    · split
      · exact hgo (.output _ _)
      · split
        · exact hgo (.literalResult _ _)
        · exact hgo (.literalResult _ _)
        · split
          · exact hgo (.back .nil)
          · exact hgo (.raise (.refl _))

theorem runForOutput_heirs (hs : Abreast p T₁ T₂ s₁ s₂) {n₁ n₂ : Node} {k : Kind Behavior} (hbare : n₂.bare = n₁.bare)
    (hi : Invocation.Isolated p { serial := n₁.serial, node := n₁.id, kind := k, mode := .pull }) (port : String) :
    Heirs p T₁ T₂ e₁ e₂ (e₁.runForOutput s₁ n₁ k port) (e₂.runForOutput s₂ n₂ k port) := by
  have hserial : n₂.serial = n₁.serial := (congrArg Node.serial hbare :)
  have hid : n₂.id = n₁.id := (congrArg Node.id hbare :)
  have henter : Abreast p T₁ T₂ { s₁ with scope := (s₁.scope.resetNode n₁.id).enter n₁.id port }
      { s₂ with scope := (s₂.scope.resetNode n₁.id).enter n₁.id port } := by
    rw [hs.scope]
    exact hs.rescope hs.trigger (hs.cached.resetNode n₁.id)
  have hpath : ((s₂.scope.resetNode n₁.id).enter n₁.id port).path =
      ((s₁.scope.resetNode n₁.id).enter n₁.id port).path := by
    rw [hs.scope]
    rfl
  unfold Engine.runForOutput
  dsimp only
  rw [hserial, hid, hpath]
  have hframes := FramesLike.output n₁.id port n₁.serial hs.frames
  split
  · exact .parkTurn ((henter.push hframes).push (.hop hframes)) (.invoke hi) (.of_eq rfl) (.of_eq rfl)
  · exact .go (henter.push hframes) (.invoke hi) (.of_eq rfl) (.of_eq rfl)

theorem pullOutput_heirs (h₁ : e₁.program = p) (h₂ : e₂.program = p) (hs : Abreast p T₁ T₂ s₁ s₂)
    (node port : String) : Heirs p T₁ T₂ e₁ e₂ (e₁.pullOutput s₁ node port) (e₂.pullOutput s₂ node port) := by
  have hgo : ∀ {sig₁ sig₂ : Signal}, sig₁.Like p T₁ T₂ sig₂ →
      Heirs p T₁ T₂ e₁ e₂ (e₁.go s₁ sig₁) (e₂.go s₂ sig₂) := fun h => .go hs h (.of_eq rfl) (.of_eq rfl)
  have hconfig : e₂.config = e₁.config := congrArg Program.config (h₂.trans h₁.symm)
  have hpath : s₂.scope.path = s₁.scope.path := by rw [hs.scope]; rfl
  have houtputs : s₂.scope.outputsOf node = s₁.scope.outputsOf node := by rw [hs.scope]; rfl
  have hepoch : s₂.scope.epoch node (.str port) = s₁.scope.epoch node (.str port) := by rw [hs.scope]; rfl
  have hresolving : s₂.scope.isResolving node = s₁.scope.isResolving node := by rw [hs.scope]; rfl
  have hbound : e₂.atDepthBound s₂.scope = e₁.atDepthBound s₁.scope := by
    rw [Engine.atDepthBound, hpath, hconfig, Engine.atDepthBound]
  have hdeep : e₂.tooDeep node port = e₁.tooDeep node port := by
    rw [Engine.tooDeep, hconfig, Engine.tooDeep]
  have hcached : (s₂.scope.cached? node).filter (e₂.stillCurrent s₂.scope) =
      (s₁.scope.cached? node).filter (e₁.stillCurrent s₁.scope) := by
    rw [hs.scope]
    show (s₁.scope.cached? node).filter _ = _
    cases hc : s₁.scope.cached? node with
    | none => rfl
    | some ds => rw [Option.filter_some, Option.filter_some, (hs.cached.cached? hc).stillCurrent e₁ e₂]
  -- both strands read the same of their scopes, so each test of the pull comes out alike
  unfold Engine.pullOutput
  rcases Engine.nodeWithKind_same h₁ h₂ node with ⟨err, hn₁, hn₂⟩ | ⟨n₁, n₂, k, hn₁, hn₂, hbare⟩
  · rw [hn₁, hn₂]
    exact hgo (.raise (.refl err))
  · rw [hn₁, hn₂]
    dsimp only
    rw [hcached, hbound, hdeep, houtputs, hepoch, hresolving, hpath]
    split
    · exact hgo (.raise (.refl _))
    · split
      · split
        · next v _ => exact hgo (.back (r := .pulled v _) (.output _ _ _))
        · exact hgo (.raise (.refl _))
      · cases hfound : (s₁.scope.cached? node).filter (e₁.stillCurrent s₁.scope) with
        | some ds =>
          have hds : ds.Local := hs.cached.cached? (Option.filter_eq_some_iff.mp hfound).1
          rw [hs.scope]
          exact hgo (.outputResult _ _ _ hds)
        | none =>
          have hid : n₁.id = node := Engine.id_of_nodeWithKind hn₁
          have hi : Invocation.Isolated p { serial := n₁.serial, node := n₁.id, kind := k, mode := .pull } := by
            rw [hid]
            exact ⟨Engine.runs_of_nodeWithKind h₁ hn₁ .pull, .nil⟩
          dsimp only
          split
          · exact hgo (.raise (.refl _))
          · split
            · exact hgo (.raise (.refl _))
            · exact runForOutput_heirs hs hbare hi port

theorem finishOutput_heirs (hs : Abreast p T₁ T₂ s₁ s₂) {i : Invocation} (hi : i.Isolated p) (node port : String)
    (serial : Nat) (v : Value) :
    Heirs p T₁ T₂ e₁ e₂ (e₁.finishOutput s₁ node port serial v i) (e₂.finishOutput s₂ node port serial v i) := by
  unfold Engine.finishOutput
  dsimp only
  have hleft : ∀ outputs, ((s₁.scope.leave node).withOutputs node outputs).Local := fun _ => hs.cached
  rw [hs.scope]
  exact .go (hs.rescope hs.trigger ((hleft _).cache node hi.reads)) (.outputResult _ _ _ hi.reads) (.of_eq rfl)
    (.of_eq rfl)

/-- The result of an invocation that control flow had reached. -/
theorem continueFrom_heirs (h₁ : e₁.program = p) (h₂ : e₂.program = p) (hs : Abreast p T₁ T₂ s₁ s₂)
    (i : Invocation) (v : Value) (rest : List String) :
    Heirs p T₁ T₂ e₁ e₂ (e₁.continueFrom s₁ i v rest) (e₂.continueFrom s₂ i v rest) := by
  have ht₂ : s₂.scope.trigger = T₂ := by rw [hs.scope]; rfl
  have htargets : ∀ port, e₂.execTargets i.node i.kind port = e₁.execTargets i.node i.kind port :=
    Engine.execTargets_same h₁ h₂ i.node i.kind
  unfold Engine.continueFrom
  cases v with
  | str port =>
    cases hport : i.kind.execOutput port with
    | some q =>
      simp only [hport, htargets]
      exact .go hs (.walk _) (.of_eq rfl) (.of_eq rfl)
    | none =>
      simp only [hport]
      refine .go hs (.raise (.failure ⟨rfl, .inr ⟨?_, ?_⟩⟩)) (.of_eq rfl) (.of_eq rfl)
      · exact congrArg (fun t => some (TriggerId.serial t)) hs.trigger
      · exact congrArg (fun t => some (TriggerId.serial t)) ht₂
  | dict es =>
    simp only [htargets]
    rw [hs.scope, Scope.publishAll_renumber]
    exact .go (hs.rescope ((Scope.Extends.publishAll i.node es s₁.scope).trigger.trans hs.trigger)
      (hs.cached.publishAll i.node es)) (.walk _) (.of_eq rfl) (.of_eq rfl)
  | _ =>
    simp only [htargets]
    exact .go hs (.walk _) (.of_eq rfl) (.of_eq rfl)

/-! ## Frames -/

theorem resumeBehavior_heirs (r₁ : e₁.running = true) (r₂ : e₂.running = true) (hs : Abreast p T₁ T₂ s₁ s₂)
    {i : Invocation} (hi : i.Isolated p) {w : Wait} {k₁ k₂ : Except Raised w.Reply → Script}
    (hk : ∀ r₁ r₂, AnswersLike T₁ T₂ r₁ r₂ → (k₁ r₁).Like T₁ T₂ (k₂ r₂)) {r : Result} (hr : r.Isolated p) :
    Heirs p T₁ T₂ e₁ e₂ (e₁.resumeBehavior s₁ i w k₁ r) (e₂.resumeBehavior s₂ i w k₂ r) := by
  have hgo : ∀ {j : Invocation}, j.Isolated p → ∀ a : w.Reply,
      Heirs p T₁ T₂ e₁ e₂ (e₁.go s₁ (.call (.behave j (k₁ (.ok a))))) (e₂.go s₂ (.call (.behave j (k₂ (.ok a))))) :=
    fun hj a => .go hs (.behave hj (hk _ _ (.ok a))) (.of_eq rfl) (.of_eq rfl)
  cases w with
  | pull port =>
    cases r with
    | pulled v ds =>
      have hj : Invocation.Isolated p { i with dependencies := i.dependencies.merge ds } :=
        ⟨hi.runs, hi.reads.merge hr⟩
      exact hgo hj v
    | _ => exact hgo hi _
  | advance port => exact hgo hi ()
  | checkpoint =>
    show Heirs p T₁ T₂ e₁ e₂ (e₁.go s₁ (.call (.behave i (k₁ (.ok e₁.running)))))
      (e₂.go s₂ (.call (.behave i (k₂ (.ok e₂.running)))))
    rw [r₁, r₂]
    exact hgo hi true
  | sleep seconds =>
    cases r with
    | flag elapsed =>
      show Heirs p T₁ T₂ e₁ e₂ (e₁.go s₁ (.call (.behave i (k₁ (.ok (elapsed && e₁.running))))))
        (e₂.go s₂ (.call (.behave i (k₂ (.ok (elapsed && e₂.running))))))
      rw [r₁, r₂]
      exact hgo hi _
    | _ => exact hgo hi _

/-- A strand whose trigger has ended is outside triggers. -/
theorem endTrigger_finds (e : Engine) {s : Strand} (hout : ∀ f ∈ s.frames, f.Outer) (node : String)
    (origin : Origin) (error : Option Failure) :
    e.Finds (fun x => ∀ f ∈ x.1.frames, f.Outer) (e.endTrigger s node origin error) := by
  obtain ⟨e', hstrands, heq⟩ := e.endTrigger_eq s node origin error
  rw [heq]
  exact .go (.of_eq hstrands) hout

theorem back_heirs (h₁ : e₁.program = p) (h₂ : e₂.program = p) (r₁ : e₁.running = true) (r₂ : e₂.running = true)
    (hs : Abreast p T₁ T₂ s₁ s₂) {r : Result} (hr : r.Isolated p) :
    Heirs p T₁ T₂ e₁ e₂ (e₁.turn s₁ (.back r)) (e₂.turn s₂ (.back r)) := by
  obtain ⟨id₁, sc₁, fs₁⟩ := s₁
  obtain ⟨id₂, sc₂, fs₂⟩ := s₂
  obtain ⟨ht, hscope, hc, hf⟩ := hs
  cases hf with
  | @trigger node origin fs₁ fs₂ hout₁ hout₂ =>
    exact .outside (endTrigger_finds e₁ (s := ⟨id₁, sc₁, fs₁⟩) hout₁ node origin none)
      (endTrigger_finds e₂ (s := ⟨id₂, sc₂, fs₂⟩) hout₂ node origin none)
  | @behavior i w k₁ k₂ fs₁ fs₂ hi hk hf =>
    have hbelow : Abreast p T₁ T₂ ⟨id₁, sc₁, fs₁⟩ ⟨id₂, sc₂, fs₂⟩ := ⟨ht, hscope, hc, hf⟩
    exact resumeBehavior_heirs r₁ r₂ hbelow hi hk hr
  | @walk agenda fs₁ fs₂ hf =>
    have hbelow : Abreast p T₁ T₂ ⟨id₁, sc₁, fs₁⟩ ⟨id₂, sc₂, fs₂⟩ := ⟨ht, hscope, hc, hf⟩
    cases r with
    | invoked v i => exact continueFrom_heirs h₁ h₂ hbelow i v agenda
    | _ => exact .go hbelow (.walk _) (.of_eq rfl) (.of_eq rfl)
  | @output node port serial fs₁ fs₂ hf =>
    have hbelow : Abreast p T₁ T₂ ⟨id₁, sc₁, fs₁⟩ ⟨id₂, sc₂, fs₂⟩ := ⟨ht, hscope, hc, hf⟩
    cases r with
    | invoked v i => exact finishOutput_heirs hbelow hr node port serial v
    | _ => exact .go hbelow (.back hr) (.of_eq rfl) (.of_eq rfl)
  | @hop fs₁ fs₂ hf =>
    have hbelow : Abreast p T₁ T₂ ⟨id₁, sc₁, fs₁⟩ ⟨id₂, sc₂, fs₂⟩ := ⟨ht, hscope, hc, hf⟩
    exact .parkTurn hbelow (.back hr) (.of_eq rfl) (.of_eq rfl)

theorem raise_heirs (hs : Abreast p T₁ T₂ s₁ s₂) {err₁ err₂ : Raised} (herr : err₁.Like T₁ T₂ err₂) :
    Heirs p T₁ T₂ e₁ e₂ (e₁.turn s₁ (.raise err₁)) (e₂.turn s₂ (.raise err₂)) := by
  obtain ⟨id₁, sc₁, fs₁⟩ := s₁
  obtain ⟨id₂, sc₂, fs₂⟩ := s₂
  obtain ⟨ht, hscope, hc, hf⟩ := hs
  cases hf with
  | @trigger node origin fs₁ fs₂ hout₁ hout₂ =>
    cases herr with
    | @failure f₁ f₂ _ =>
      exact .outside (endTrigger_finds e₁ (s := ⟨id₁, sc₁, fs₁⟩) hout₁ node origin (some f₁))
        (endTrigger_finds e₂ (s := ⟨id₂, sc₂, fs₂⟩) hout₂ node origin (some f₂))
    | fault f => exact .outside (.go (.of_eq rfl) hout₁) (.go (.of_eq rfl) hout₂)
    | mute f => exact .outside (.go (.of_eq rfl) hout₁) (.go (.of_eq rfl) hout₂)
  | @behavior i w k₁ k₂ fs₁ fs₂ hi hk hf =>
    have hbelow : Abreast p T₁ T₂ ⟨id₁, sc₁, fs₁⟩ ⟨id₂, sc₂, fs₂⟩ := ⟨ht, hscope, hc, hf⟩
    exact .go hbelow (.behave hi (hk _ _ (.error herr))) (.of_eq rfl) (.of_eq rfl)
  | @walk agenda fs₁ fs₂ hf =>
    have hbelow : Abreast p T₁ T₂ ⟨id₁, sc₁, fs₁⟩ ⟨id₂, sc₂, fs₂⟩ := ⟨ht, hscope, hc, hf⟩
    exact .go hbelow (.raise herr) (.of_eq rfl) (.of_eq rfl)
  | @output node port serial fs₁ fs₂ hf =>
    have hbelow : Abreast p T₁ T₂ ⟨id₁, sc₁.leave node, fs₁⟩ ⟨id₂, sc₂.leave node, fs₂⟩ := by
      have hleave : sc₂.leave node = (sc₁.leave node).renumber T₂ := congrArg (Scope.leave · node) hscope
      exact ⟨ht, hleave, hc, hf⟩
    exact .go hbelow (.raise herr) (.of_eq rfl) (.of_eq rfl)
  | @hop fs₁ fs₂ hf =>
    have hbelow : Abreast p T₁ T₂ ⟨id₁, sc₁, fs₁⟩ ⟨id₂, sc₂, fs₂⟩ := ⟨ht, hscope, hc, hf⟩
    exact .parkTurn hbelow (.raise herr) (.of_eq rfl) (.of_eq rfl)

/-- Alike strands have alike turns. -/
theorem Alike.turn (hiso : p.Isolated) (h₁ : e₁.program = p) (h₂ : e₂.program = p) (r₁ : e₁.running = true)
    (r₂ : e₂.running = true) (h : Alike p T₁ T₂ s₁ sig₁ s₂ sig₂) :
    Heirs p T₁ T₂ e₁ e₂ (e₁.turn s₁ sig₁) (e₂.turn s₂ sig₂) := by
  obtain ⟨hs, hsig⟩ := h
  cases hsig with
  | walk agenda => exact walk_heirs h₁ h₂ r₁ r₂ hs agenda
  | invoke hi => exact invoke_heirs hiso hs hi
  | behave hi hscript => exact behave_heirs hiso h₁ h₂ r₁ r₂ hs hi hscript
  | input node port => exact pullInput_heirs h₁ h₂ hs node port
  | output node port => exact pullOutput_heirs h₁ h₂ hs node port
  | back hr => exact back_heirs h₁ h₂ r₁ r₂ hs hr
  | raise herr => exact raise_heirs hs herr

/-! ## What alike strands tell -/

/-- The notice that another trigger would have given. -/
def Notice.renumber (T : Nat) : Notice → Notice
  | .triggerStarted _ node origin => .triggerStarted T node origin
  | .triggerFinished _ node status executed origin => .triggerFinished T node status executed origin
  | .nodeStarted _ node kind mode => .nodeStarted T node kind mode
  | .nodeFinished _ node kind outputs => .nodeFinished T node kind outputs
  | .nodeErrored _ node error message => .nodeErrored T node error message
  | .log _ node level message => .log T node level message
  | n => n

/-- Alike strands raise alike errors in the same invocation, or none. -/
theorem Alike.raising (h : Alike p T₁ T₂ s₁ sig₁ s₂ sig₂) :
    (s₁.raising? sig₁ = none ∧ s₂.raising? sig₂ = none) ∨ ∃ i err₁ err₂, s₁.raising? sig₁ = some (i, err₁) ∧
      s₂.raising? sig₂ = some (i, err₂) ∧ err₁.Like T₁ T₂ err₂ := by
  obtain ⟨id₁, sc₁, fs₁⟩ := s₁
  obtain ⟨id₂, sc₂, fs₂⟩ := s₂
  obtain ⟨⟨-, -, -, hf⟩, hsig⟩ := h
  cases hsig with
  | walk | input | output | raise => exact .inl ⟨rfl, rfl⟩
  | @invoke i hi =>
    cases hb : i.kind.behavior with
    | some b => exact .inl (by simp [Strand.raising?, hb])
    | none => exact .inr ⟨i, _, _, by simp [Strand.raising?, hb], by simp [Strand.raising?, hb], .fault .type⟩
  | @behave i script₁ script₂ hi hscript =>
    cases hscript with
    | fail herr => exact .inr ⟨i, _, _, rfl, rfl, herr⟩
    | again state =>
      cases hb : i.kind.behavior with
      | some b => exact .inl (by simp [Strand.raising?, hb])
      | none => exact .inr ⟨i, _, _, by simp [Strand.raising?, hb], by simp [Strand.raising?, hb], .fault .type⟩
    | _ => exact .inl ⟨rfl, rfl⟩
  | @back r hr =>
    cases hf with
    | walk =>
      show (r.astray? = none ∧ r.astray? = none) ∨ ∃ i err₁ err₂, r.astray? = some (i, err₁) ∧
        r.astray? = some (i, err₂) ∧ err₁.Like T₁ T₂ err₂
      cases r.astray? with
      | none => exact .inl ⟨rfl, rfl⟩
      | some x => exact .inr ⟨x.1, x.2, x.2, rfl, rfl, .refl _⟩
    | _ => exact .inl ⟨rfl, rfl⟩

/-- Errors apart, alike strands tell the same. -/
theorem Alike.progress (h₁ : e₁.program = p) (h₂ : e₂.program = p) (r₁ : e₁.running = true)
    (r₂ : e₂.running = true) (h : Alike p T₁ T₂ s₁ sig₁ s₂ sig₂) :
    e₂.progress s₂ sig₂ = (e₁.progress s₁ sig₁).map (Notice.renumber T₂) := by
  obtain ⟨id₁, sc₁, fs₁⟩ := s₁
  obtain ⟨id₂, sc₂, fs₂⟩ := s₂
  obtain ⟨⟨-, hscope, -, hf⟩, hsig⟩ := h
  obtain rfl : sc₂ = sc₁.renumber T₂ := hscope
  cases hsig with
  | walk agenda =>
    cases agenda with
    | nil => rfl
    | cons node rest =>
      simp only [Engine.progress, r₁, r₂, if_true]
      rcases Engine.nodeWithKind_same h₁ h₂ node with ⟨err, hn₁, hn₂⟩ | ⟨n₁, n₂, k, hn₁, hn₂, -⟩
      · rw [hn₁, hn₂]
        rfl
      · simp only [hn₁, hn₂]
        split <;> rfl
  | invoke => rfl
  | behave hi hscript =>
    cases hscript with
    | @ask q k₁ k₂ hq hk => cases q <;> rfl
    | _ => rfl
  | input | output => rfl
  | back hr =>
    cases hf with
    | trigger =>
      simp only [Engine.progress, r₁, r₂]
      rfl
    | _ => rfl
  | raise herr =>
    cases hf with
    | trigger => cases herr <;> rfl
    | _ => rfl

/-- Alike strands tell the same. -/
theorem Alike.told (h₁ : e₁.program = p) (h₂ : e₂.program = p) (r₁ : e₁.running = true) (r₂ : e₂.running = true)
    (h : Alike p T₁ T₂ s₁ sig₁ s₂ sig₂) :
    e₂.told s₂ sig₂ = (e₁.told s₁ sig₁).map (Notice.renumber T₂) := by
  have ht₁ := h.place.trigger
  have ht₂ : s₂.scope.trigger = T₂ := by rw [h.place.scope]; rfl
  rw [Engine.told, Engine.told, List.map_append, h.progress h₁ h₂ r₁ r₂]
  refine congrArg _ ?_
  rcases h.raising with ⟨hr₁, hr₂⟩ | ⟨i, err₁, err₂, hr₁, hr₂, herr⟩
  · rw [Strand.reports?, Strand.reports?, hr₁, hr₂]
    rfl
  · have hat := herr.atInvocation i
    rw [Strand.reports?, Strand.reports?, hr₁, hr₂, ht₁, ht₂, Option.filter_some, Option.filter_some, herr.silent]
    split
    · simp only [Option.map_some, Option.toList_some, List.map_cons, List.map_nil, hat.family, hat.message,
        Notice.renumber]
    · rfl

/-- Whether two triggers have ended with the same, but for their numbers. -/
structure TriggerResult.Like (T₁ T₂ : Nat) (R₁ R₂ : TriggerResult) : Prop where
  first : R₁.trigger = T₁
  second : R₂.trigger = T₂
  origin : R₂.origin = R₁.origin
  status : R₂.status = R₁.status
  executed : R₂.executed = R₁.executed
  error : Option.Rel (Failure.Like T₁ T₂) R₁.error R₂.error

/-- Alike strands end their triggers together, with alike results. -/
theorem Alike.ends {lo : Nat → Dependency → Nat} {L : Ledger} {t₁ t₂ : Engine.Turn} (hL : Orderly lo L t₁)
    (r₁ : t₁.engine.running = true) (r₂ : t₂.engine.running = true) (hn₁ : t₁.next = some (s₁, sig₁))
    (hn₂ : t₂.next = some (s₂, sig₂)) (h : Alike p T₁ T₂ s₁ sig₁ s₂ sig₂) {R₁ : TriggerResult}
    (hends : t₁.Ends R₁) : ∃ R₂, t₂.Ends R₂ ∧ R₁.Like T₁ T₂ R₂ := by
  have ht₁ := h.place.trigger
  have hexecuted : s₂.scope.executed = s₁.scope.executed := by rw [h.place.scope]; rfl
  have ht₂ : s₂.scope.trigger = T₂ := by rw [h.place.scope]; rfl
  rcases hends.cases hL with ⟨s, node, origin, port, seeds, hn, hrun, -⟩ |
    ⟨s, sig, node, origin, fs, error, hn, hf, rfl, hsig⟩
  · rw [r₁] at hrun
    cases hrun
  · obtain ⟨rfl, rfl⟩ := Prod.mk.inj (Option.some.inj (hn₁.symm.trans hn))
    have hframes := h.place.frames
    rw [hf] at hframes
    generalize hf₂ : s₂.frames = fs' at hframes
    cases hframes with
    | trigger =>
    have hsignal := h.signal
    rcases hsig with ⟨⟨r, rfl⟩, rfl⟩ | ⟨f, rfl, rfl⟩
    · cases hsignal
      refine ⟨_, .of_trigger hn₂ hf₂ (.inl ⟨⟨r, rfl⟩, rfl⟩), ht₁, ht₂, rfl, ?_, hexecuted, .none⟩
      simp only [Engine.resultOf, r₁, r₂]
    · cases hsignal with
      | raise herr =>
      cases herr with
      | @failure _ f₂ hlike =>
      refine ⟨_, .of_trigger hn₂ hf₂ (.inr ⟨f₂, rfl, rfl⟩), ht₁, ht₂, rfl, rfl, hexecuted, .some ?_⟩
      rw [ht₁, ht₂]
      exact hlike.inTrigger

end Turns

end Patchbay
