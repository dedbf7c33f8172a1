import Mathlib.Tactic.IntervalCases
import Patchbay.Proofs.Lookup
import Patchbay.Proofs.Scripts

/-!
# Nodes that evaluate their own text

A node of this kind pulls its text, takes the expression that it has kept for it or a new one, reads the
variables unless the expression names none, pulls `x` and evaluates. An expression is what its source is
compiled to, so a kept one is as good as a new one. The variables that are not read matter all the same when
one of them bears the name of a constant or of a function that the text mentions: a caller's names come first
in an evaluation, and they are not counted among the free names of an expression.

Contents:
* `Library.plainly`: a text is compiled and evaluated with all variables and `x`.
* `Engine.Turn.Answers`, `Engine.Turn.Yields`: the node is told an input, and what it yields.
* `Library.Eclipsed`: the variables are not read although one of them would be looked up.

Results:
* `evaluations_plain`: what every evaluation yields, which is what plain evaluation does unless the
  variables are eclipsed.
-/

namespace Patchbay

namespace Library

open Patchbay.Action

/-! ## The script -/

/-- How the node ends. -/
def concluding (r : Except Raised Value) : Script :=
  match r with
  | .ok v => .finish (outputs [("value", v)])
  | .error err => .fail err

/-- The node pulls `x` and evaluates an expression. -/
def evaluating (e : Expr.Expression) (names : Named) : Script :=
  .wait (.pull "x") fun r => ofExcept r fun x => concluding (e.evaluate (names.set "x" x))

/-- Whether an expression names a variable. -/
def namesVariable (e : Expr.Expression) : Bool := e.names.any fun n => n != "x"

/-- The variables that an expression is evaluated with. -/
def visible (e : Expr.Expression) (values : Named) : Named := if namesVariable e then values else []

/-- The node reads the variables if it has to. -/
def reading (e : Expr.Expression) : Script :=
  if namesVariable e then .ask .readVariables fun r => ofExcept r (evaluating e) else evaluating e []

/-- The node keeps an expression. -/
def keeping (e : Expr.Expression) : Script :=
  .ask (.keep expressionKey (.expression e)) fun r => ofExcept r fun _ => reading e

/-- The node compiles a text. -/
def compiling (source : Value) : Script :=
  match Expr.Expression.compile source with
  | .ok e => keeping e
  | .error c => .fail (.cause c)

/-- The node takes the expression that it has kept, if that is of a text. -/
def choosing (source : Value) : Option Cell → Script
  | some (.expression e) => if madeFrom e source then reading e else compiling source
  | _ => compiling source

/-- The node looks for the expression that it has kept. -/
def finding (source : Value) : Script := .ask (.kept expressionKey) fun r => ofExcept r (choosing source)

/-- The node pulls its text. -/
def asking : Script := .wait (.pull "code") fun r => ofExcept r finding

theorem concluding_eq (r : Except Raised Value) :
    (ofExcept r fun v => .finish (outputs [("value", v)])) = concluding r := by
  cases r <;> rfl

theorem compiling_eq (source : Value) : (ofExcept (match Expr.Expression.compile source with
    | .ok e => .ok e
    | .error c => .error (.cause c)) keeping) = compiling source := by
  unfold compiling
  split <;> rfl

theorem evaluating_eq (e : Expr.Expression) (names : Named) : (pull "x" fun x => ofExcept
    (e.evaluate (names.set "x" x)) fun v => .finish (outputs [("value", v)])) = evaluating e names := by
  simp only [concluding_eq]
  rfl

theorem expressionFor_reading (source : Value) : expressionFor source reading = finding source := by
  refine congrArg (Script.ask (.kept expressionKey)) (funext fun r => ?_)
  cases r with
  | error err => rfl
  | ok kept =>
    cases kept with
    | none => exact compiling_eq source
    | some cell =>
      cases cell with
      | expression e =>
        show (if madeFrom e source then _ else _ : Action Expr.Expression) reading =
          if madeFrom e source then reading e else compiling source
        split
        · rfl
        · exact compiling_eq source
      | _ => exact compiling_eq source

/-- What the node does, step by step. -/
theorem code_behavior : code.behavior = some fun _ => asking := by
  refine congrArg some (funext fun _ => ?_)
  show (pull "code" fun c => expressionFor c _) = _
  refine congrArg (pull "code") (funext fun c => ?_)
  rw [← expressionFor_reading]
  refine congrArg (expressionFor c) (funext fun e => ?_)
  show (if namesVariable e then _ else _ : Action Value) .finish = if namesVariable e then _ else _
  split
  · exact congrArg (ask .readVariables) (funext fun names => evaluating_eq e names)
  · exact evaluating_eq e []

/-- A kept expression that is chosen is what the text is compiled to. -/
theorem choosing_cases (c : Value) (kept : Option Cell) :
    choosing c kept = compiling c ∨
      ∃ e, Expr.Expression.compile c = .ok e ∧ choosing c kept = reading e := by
  cases kept with
  | none => exact .inl rfl
  | some cell =>
    cases cell with
    | expression e =>
      cases hmade : madeFrom e c with
      | true =>
        refine .inr ⟨e, ?_, by simp [choosing, hmade]⟩
        rw [Value.same_str_iff.mp hmade]
        exact e.compile_source
      | false => exact .inl (by simp [choosing, hmade])
    | _ => exact .inl rfl

/-! ## Variables that are not read -/

/-- A text is compiled and evaluated with all variables and `x`. -/
def plainly (source : Value) (values : Named) (x : Value) : Except Raised Value :=
  match Expr.Expression.compile source with
  | .ok e => e.evaluate (values.set "x" x)
  | .error c => .error (.cause c)

/-- Whether the variables are not read although one of them is looked up, by the name of a constant or of a
function. -/
def Eclipsed (e : Expr.Expression) (values : Named) : Prop :=
  namesVariable e = false ∧ ∃ id ∈ e.tree.lookups, Expr.isTabled id = true ∧ (values.get? id).isSome = true

theorem evaluate_visible {e : Expr.Expression} {values : Named} (h : ¬Eclipsed e values) (x : Value) :
    e.evaluate ((visible e values).set "x" x) = e.evaluate (values.set "x" x) := by
  unfold visible
  split
  · rfl
  · next hnames =>
    refine e.evaluate_congr (fun id hid => ?_) fun id hid htabled => ?_
    · have hx : id = "x" := by
        have hany := List.any_eq_false.mp (Bool.not_eq_true _ ▸ hnames) id hid
        simpa using hany
      rw [hx, Named.get?_set_self, Named.get?_set_self]
    · by_cases hx : id = "x"
      · rw [hx, Named.get?_set_self, Named.get?_set_self]
      · rw [Named.get?_set_of_ne hx, Named.get?_set_of_ne hx]
        have hunbound : ¬(values.get? id).isSome = true :=
          fun hsome => h ⟨Bool.not_eq_true _ ▸ hnames, id, hid, htabled, hsome⟩
        rw [Option.not_isSome_iff_eq_none.mp hunbound]
        rfl

end Library

/-! ## Evaluations in a run -/

/-- Whether a node that evaluates its own text is about to be told the value of an input, in a trigger and
above some frames. -/
def Engine.Turn.Answers (t : Engine.Turn) (T : Nat) (fs : List Frame) (node port : String) (v : Value) : Prop :=
  ∃ s i ds k, t.next = some (s, .back (.pulled v ds)) ∧ s.scope.trigger = T ∧
    s.frames = .behavior i (.pull port) k :: fs ∧ i.node = node ∧ i.kind.behavior = Library.code.behavior

/-- Whether what was begun above some frames in a trigger ends with a value or an error. A fault becomes an
error of the behaviour, or goes on as another fault where it has no text. -/
def Engine.Turn.Yields (t : Engine.Turn) (T : Nat) (fs : List Frame) (r : Except Raised Value) : Prop :=
  ∃ s sig, t.next = some (s, sig) ∧ s.scope.trigger = T ∧ s.frames = fs ∧ match r with
    | .ok v => ∃ i, sig = .back (.invoked (Action.outputs [("value", v)]) i)
    | .error (.failure g) => ∃ f, sig = .raise (.failure f) ∧ f.cause = g.cause
    | .error (.fault g) => ∃ f, sig = .raise (.failure f) ∧ f.cause.fault? = some g
    | .error (.mute _) => sig = .raise (.fault .value)

/-- Whether a node begins to pull an input, in a trigger and above some frames. -/
def Engine.Turn.Pulls (t : Engine.Turn) (T : Nat) (fs : List Frame) (node port : String) : Prop :=
  ∃ s i c, t.next = some (s, .call (.input node port)) ∧ s.scope.trigger = T ∧
    s.frames = .behavior i (.pull port) c :: fs

section Stages

variable (run : Nat → Engine.Turn) (T : Nat)

/-- Whether a node was told its text last when the variables had some values, in the invocation above some
frames that is in progress at a step. -/
def Told (k : Nat) (node : String) (fs : List Frame) (c : Value) (values : Named) : Prop :=
  ∃ j < k, (run j).Answers T fs node "code" c ∧ (run j).engine.store.values = values ∧
    ∀ m, j < m → m < k → ∀ node' c', ¬(run m).Answers T fs node' "code" c'

/-- Whether the next turn is of a script, in a trigger and above some frames. -/
def Active (k : Nat) (i : Invocation) (script : Script) (fs : List Frame) : Prop :=
  ∃ s, (run k).next = some (s, .call (.behave i script)) ∧ s.scope.trigger = T ∧ s.frames = fs

/-- How far a node that evaluates its own text is. -/
inductive Stage (k : Nat) (i : Invocation) (fs : List Frame) : Script → Prop
  | asking : Stage k i fs Library.asking
  | finding {c : Value} (hactive : Active run T k i (Library.finding c) fs)
      (htold : Told run T k i.node fs c (run k).engine.store.values) : Stage k i fs (Library.finding c)
  | keeping {c : Value} {e : Expr.Expression} (hcompile : Expr.Expression.compile c = .ok e)
      (hactive : Active run T k i (Library.keeping e) fs)
      (htold : Told run T k i.node fs c (run k).engine.store.values) : Stage k i fs (Library.keeping e)
  | reading {c : Value} {e : Expr.Expression} (hcompile : Expr.Expression.compile c = .ok e)
      (hnames : Library.namesVariable e = true) (hactive : Active run T k i (Library.reading e) fs)
      (htold : Told run T k i.node fs c (run k).engine.store.values) : Stage k i fs (Library.reading e)
  | evaluating {c : Value} {e : Expr.Expression} {values : Named} (hcompile : Expr.Expression.compile c = .ok e)
      (htold : Told run T k i.node fs c values) :
      Stage k i fs (Library.evaluating e (Library.visible e values))
  | finished (v : Value) : Stage k i fs (.finish v)
  | failed (err : Raised) : Stage k i fs (.fail err)

variable {run T} {k : Nat} {i : Invocation} {fs : List Frame}

/-- A step at which the node is not told a text. -/
theorem Told.succ {node : String} {c : Value} {values : Named} (h : Told run T k node fs c values)
    (hquiet : ∀ node' c', ¬(run k).Answers T fs node' "code" c') : Told run T (k + 1) node fs c values := by
  obtain ⟨j, hj, hanswers, hvalues, hlast⟩ := h
  refine ⟨j, Nat.lt_succ_of_lt hj, hanswers, hvalues, fun m hjm hm => ?_⟩
  rcases Nat.lt_succ_iff_lt_or_eq.mp hm with hm | rfl
  · exact hlast m hjm hm
  · exact hquiet

/-- A turn in which a strand begins something tells no node anything. -/
theorem not_answers_of_call {s : Strand} {c : Call} (hn : (run k).next = some (s, .call c)) (node : String)
    (v : Value) : ¬(run k).Answers T fs node "code" v := by
  rintro ⟨s', -, ds, -, hn', -⟩
  cases hn.symm.trans hn'

/-- An expression that was found is read with the variables, or evaluated without them. -/
theorem Stage.of_reading {c : Value} {e : Expr.Expression} (hcompile : Expr.Expression.compile c = .ok e)
    (hactive : Active run T k i (Library.reading e) fs)
    (htold : Told run T k i.node fs c (run k).engine.store.values) : Stage run T k i fs (Library.reading e) := by
  cases hnames : Library.namesVariable e with
  | true => exact .reading hcompile hnames hactive htold
  | false =>
    have hscript : Library.reading e = Library.evaluating e (Library.visible e (run k).engine.store.values) := by
      simp [Library.reading, Library.visible, hnames]
    rw [hscript]
    exact .evaluating hcompile htold

/-- A node that waits is told its text next, or `x`. -/
theorem Stage.of_wait {w : Wait} {c : Except Raised w.Reply → Script} (h : Stage run T k i fs (.wait w c)) :
    Script.wait w c = Library.asking ∨ ∃ code e values, Expr.Expression.compile code = .ok e ∧
      Told run T k i.node fs code values ∧ Script.wait w c = Library.evaluating e (Library.visible e values) := by
  generalize hscript : Script.wait w c = script at h
  cases h with
  | asking => exact .inl rfl
  | evaluating hcompile htold => exact .inr ⟨_, _, _, hcompile, htold, rfl⟩
  | reading hcompile hnames hactive htold =>
    rw [Library.reading, if_pos hnames] at hscript
    cases hscript
  | finding | keeping | finished | failed => cases hscript

/-- What a node that evaluates its own text has in progress. -/
def Evaluates (run : Nat → Engine.Turn) (T k : Nat) (i : Invocation) (script : Script) (fs : List Frame) : Prop :=
  i.kind.behavior = Library.code.behavior → Stage run T k i fs script

theorem asking_of_behavior {b : Behavior} (hi : i.kind.behavior = Library.code.behavior)
    (hb : i.kind.behavior = some b) (state : Value) : b state = Library.asking :=
  congrFun (Option.some.inj (hb.symm.trans (hi.trans Library.code_behavior))) state

/-- The node has a kept expression of its text, or compiles one. -/
theorem Stage.of_choosing {source : Value} {kept : Option Cell}
    (hactive : Active run T k i (Library.choosing source kept) fs)
    (htold : Told run T k i.node fs source (run k).engine.store.values) :
    Stage run T k i fs (Library.choosing source kept) := by
  rcases Library.choosing_cases source kept with heq | ⟨e, hcompile, heq⟩
  · rw [heq] at hactive ⊢
    unfold Library.compiling at hactive ⊢
    split at hactive
    · next hcompile => exact .keeping hcompile hactive htold
    · exact .failed _
  · rw [heq] at hactive ⊢
    exact .of_reading hcompile hactive htold

/-- The answer to what the node asks takes it one step further. -/
theorem Stage.ask {q : Query} {c : Except Raised q.Reply → Script} {s : Strand}
    (h : Stage run T k i s.frames (.ask q c)) (hn : (run k).next = some (s, .call (.behave i (.ask q c))))
    (hsT : s.scope.trigger = T) (hplay : Play (run k) (run (k + 1))) :
    Stage run T (k + 1) ((run k).engine.perform i s.scope q).invocation s.frames
      (c ((run k).engine.perform i s.scope q).reply) := by
  have hrun := hplay.eq_turn hn
  have hnext : (run (k + 1)).next = some ({ s with scope := ((run k).engine.perform i s.scope q).scope },
      .call (.behave ((run k).engine.perform i s.scope q).invocation
        (c ((run k).engine.perform i s.scope q).reply))) := by
    rw [hrun]
    rfl
  have htold {node : String} {source : Value} (h : Told run T k node s.frames source (run k).engine.store.values)
      (hstore : ((run k).engine.turn s (.call (.behave i (.ask q c)))).engine.store = (run k).engine.store) :
      Told run T (k + 1) node s.frames source (run (k + 1)).engine.store.values := by
    rw [hrun, hstore]
    exact h.succ (not_answers_of_call hn)
  generalize hscript : Script.ask q c = script at h
  cases h with
  | asking | evaluating | finished | failed => cases hscript
  | finding _ h =>
    cases hscript
    exact .of_choosing ⟨_, hnext, hsT, rfl⟩ (htold h rfl)
  | keeping hcompile _ h =>
    cases hscript
    exact .of_reading hcompile ⟨_, hnext, hsT, rfl⟩ (htold h rfl)
  | @reading source e hcompile hnames _ h =>
    rw [Library.reading, if_pos hnames] at hscript
    cases hscript
    have hvisible : Library.visible e (run k).engine.store.values = (run k).engine.store.values := if_pos hnames
    have hstage := Stage.evaluating (i := ((run k).engine.perform i s.scope .readVariables).invocation) hcompile
      (h.succ (not_answers_of_call hn))
    rw [hvisible] at hstage
    exact hstage

/-- A node that is told what it waits for goes on. -/
theorem Stage.pulled {port : String} {c : Except Raised Value → Script} {s : Strand} {v : Value} {ds : Dependencies}
    (h : Stage run T k i fs (.wait (.pull port) c)) (hi : i.kind.behavior = Library.code.behavior)
    (hn : (run k).next = some (s, .back (.pulled v ds))) (hsT : s.scope.trigger = T)
    (hf : s.frames = .behavior i (.pull port) c :: fs) (hplay : Play (run k) (run (k + 1))) :
    Stage run T (k + 1) { i with dependencies := i.dependencies.merge ds } fs (c (.ok v)) := by
  obtain ⟨id, sc, frames⟩ := s
  obtain rfl := hf
  have hrun := hplay.eq_turn hn
  rcases h.of_wait with heq | ⟨code, e, values, -, -, heq⟩
  · cases heq
    have hnext : (run (k + 1)).next = some (⟨id, sc, fs⟩, .call (.behave
        { i with dependencies := i.dependencies.merge ds } (Library.finding v))) := by
      rw [hrun]
      rfl
    refine .finding ⟨_, hnext, hsT, rfl⟩ ⟨k, Nat.lt_succ_self k, ⟨_, _, _, _, hn, hsT, rfl, rfl, hi⟩, ?_, ?_⟩
    · rw [hrun]
      rfl
    · exact fun m hkm hm => absurd hm (Nat.not_lt.mpr hkm)
  · cases heq
    show Stage run T (k + 1) _ fs (Library.concluding _)
    unfold Library.concluding
    split
    · exact .finished _
    · exact .failed _

/-- An error ends the node. -/
theorem Stage.error {w : Wait} {c : Except Raised w.Reply → Script} (h : Stage run T k i fs (.wait w c))
    (err : Raised) (m : Nat) (j : Invocation) : Stage run T m j fs (c (.error err)) := by
  rcases h.of_wait with heq | ⟨code, e, values, -, -, heq⟩ <;> cases heq <;> exact .failed err

/-- A node that waits is as far as before. -/
theorem Stage.wait {w : Wait} {c : Except Raised w.Reply → Script} (h : Stage run T k i fs (.wait w c))
    (hquiet : ∀ node' c', (∃ port, w = .pull port ∧ port ≠ "code") → ¬(run k).Answers T fs node' "code" c')
    (j : Invocation) (hj : j.node = i.node) :
    Stage run T (k + 1) j fs (.wait w c) := by
  rcases h.of_wait with heq | ⟨code, e, values, hcompile, htold, heq⟩
  · rw [heq]
    exact .asking
  · cases heq
    refine .evaluating hcompile (hj ▸ htold.succ fun node' c' => hquiet node' c' ⟨_, rfl, by decide⟩)

/-- A turn of the trigger keeps what is known of the nodes that evaluate. -/
theorem evaluates_carries {s : Strand} {sig : Signal} (hn : (run k).next = some (s, sig)) (hsT : s.scope.trigger = T)
    (hplay : Play (run k) (run (k + 1))) :
    Carries (run k).engine s sig (Evaluates run T k) (Evaluates run T (k + 1)) where
  stays i w c fs hfs h hi := by
    refine (h hi).wait (fun node' c' hport hanswers => ?_) i rfl
    obtain ⟨port, rfl, hport⟩ := hport
    obtain ⟨s', i', ds, c'', hn', -, hf, -⟩ := hanswers
    obtain ⟨rfl, -⟩ := Prod.mk.inj (Option.some.inj (hn.symm.trans hn'))
    rw [hf] at hfs
    cases List.IsSuffix.eq_of_length hfs rfl
    exact hport rfl
  invoke i b _ hb hi := by
    rw [asking_of_behavior hi hb]
    exact .asking
  again i b state _ hb _ hi := by
    rw [asking_of_behavior hi hb]
    exact .asking
  ask i q c hsig h hi := by
    subst hsig
    refine (h ?_).ask hn hsT hplay
    rwa [perform_kind] at hi
  edit i c script hsig h hi := by
    generalize hscript : Script.edit c script = x at h
    cases h hi with
    | reading _ hnames =>
      rw [Library.reading, if_pos hnames] at hscript
      cases hscript
    | _ => cases hscript
  wait i w c advanced hsig h hi := by
    subst hsig
    exact (h hi).wait (fun node' c' _ => not_answers_of_call hn node' c') _ rfl
  refused i w c err _ h hi := (h hi).error err _ _
  pulled i port c fs v ds hsig hf h hi := by
    subst hsig
    exact (h hi).pulled hi hn hsT hf hplay
  woken i w c fs r a _ _ hw h hi := by
    rcases (h hi).of_wait with heq | ⟨code, e, values, -, -, heq⟩ <;> cases heq <;> exact (hw _ rfl).elim
  raised i w c fs err _ _ h hi := (h hi).error err _ _

/-- All along a run, nodes that evaluate their own text are at some stage. -/
theorem evaluates_run {n : Nat} (hopens : Opens (run 0)) (hplays : ∀ k < n, Play (run k) (run (k + 1))) (hT : T ≠ 0)
    (hk : k ≤ n) : During T (InProgress (Evaluates run T k)) (run k) := by
  refine inProgress_run (Q := Evaluates run T) hopens hplays hT ?_ ?_ hk
  · exact fun k hk s sig hn hsT => evaluates_carries hn hsT (hplays k hk)
  · intro k hk hothers i script fs h hi
    have hidle {script : Script} : ¬Active run T k i script fs := fun ⟨s, hn, hsT, _⟩ => hothers s _ hn hsT
    cases h hi with
    | asking => exact .asking
    | finding hactive | keeping _ hactive | reading _ _ hactive => exact (hidle hactive).elim
    | evaluating hcompile htold =>
      refine .evaluating hcompile (htold.succ ?_)
      rintro node' c' ⟨s, _, ds, _, hn, hsT, _⟩
      exact hothers s _ hn hsT
    | finished v => exact .finished v
    | failed err => exact .failed err

end Stages

/-! ## What evaluations yield -/

section Results

variable {run : Nat → Engine.Turn} {n T k : Nat} {i : Invocation} {fs : List Frame} {node : String}

/-- What is told to a node that waits is told to it at its stage. -/
theorem Engine.Turn.Answers.stage {port : String} {v : Value} (h : (run k).Answers T fs node port v)
    (hopens : Opens (run 0)) (hplays : ∀ k < n, Play (run k) (run (k + 1))) (hk : k ≤ n) :
    ∃ s i ds c, (run k).next = some (s, .back (.pulled v ds)) ∧ s.scope.trigger = T ∧
      s.frames = .behavior i (.pull port) c :: fs ∧ i.node = node ∧ i.kind.behavior = Library.code.behavior ∧
      Stage run T k i fs (.wait (.pull port) c) := by
  obtain ⟨s, i, ds, c, hn, hsT, hf, hnode, hi⟩ := h
  have hmem := Engine.Turn.mem_population_of_next hn
  have hT : T ≠ 0 := by
    obtain ⟨L, hL⟩ := orderly_run hopens hplays hk
    exact fun hzero => not_outer_of_top hf id ((hL.placed _ hmem).sits.named (hsT.trans hzero))
  have hprogress := (evaluates_run hopens hplays hT hk).of_top hn hsT hf id
  exact ⟨s, i, ds, c, hn, hsT, hf, hnode, hi, hprogress.frames i _ c fs (hf ▸ List.suffix_rfl) hi⟩

/-- How the node ends. -/
theorem Active.yields {r : Except Raised Value} (h : Active run T k i (Library.concluding r) fs)
    (hplay : Play (run k) (run (k + 1))) : (run (k + 1)).Yields T fs r := by
  obtain ⟨s, hn, hsT, hfs⟩ := h
  rw [hplay.eq_turn hn]
  cases r with
  | ok v => exact ⟨_, _, rfl, hsT, hfs, _, rfl⟩
  | error err =>
    show ((run k).engine.failInvocation s i err).Yields T fs _
    rw [Engine.failInvocation_eq]
    cases err with
    | failure g =>
      split
      · exact ⟨_, _, rfl, hsT, hfs, _, rfl, rfl⟩
      · exact ⟨_, _, rfl, hsT, hfs, _, rfl, (Failure.cause_inTrigger _ _).trans (g.cause_atNode _)⟩
    | fault g => exact ⟨_, _, rfl, hsT, hfs, _, rfl, rfl⟩
    | mute g => exact ⟨_, _, rfl, hsT, hfs, rfl⟩

/-- The node reads the variables if it has to, and pulls `x`. -/
theorem Active.pulls {e : Expr.Expression} (h : Active run T k i (Library.reading e) fs)
    (hplays : ∀ m < k + 2, Play (run m) (run (m + 1))) :
    ∃ m, k < m ∧ m ≤ k + 2 ∧ (run m).Pulls T fs i.node "x" := by
  have hpull {k : Nat} {i : Invocation} {names : Named} (h : Active run T k i (Library.evaluating e names) fs)
      (hplay : Play (run k) (run (k + 1))) : (run (k + 1)).Pulls T fs i.node "x" := by
    obtain ⟨s, hn, hsT, rfl⟩ := h
    rw [hplay.eq_turn hn]
    exact ⟨_, _, _, rfl, hsT, rfl⟩
  unfold Library.reading at h
  split at h
  · obtain ⟨s, hn, hsT, rfl⟩ := h
    have hread : Active run T (k + 1) ((run k).engine.perform i s.scope .readVariables).invocation
        (Library.evaluating e (run k).engine.store.values) s.frames := by
      refine ⟨s, ?_, hsT, rfl⟩
      rw [(hplays k (by omega)).eq_turn hn]
      rfl
    have hpulls := hpull hread (hplays (k + 1) (by omega))
    exact ⟨k + 2, by omega, le_rfl, hpulls⟩
  · exact ⟨k + 1, by omega, by omega, hpull h (hplays k (by omega))⟩

/-- After its text the node has its kept expression to choose, or compiles the text. -/
theorem Engine.Turn.Answers.choosing {c : Value} (h : (run k).Answers T fs node "code" c) (hopens : Opens (run 0))
    (hplays : ∀ k < n, Play (run k) (run (k + 1))) (hk : k + 2 ≤ n) :
    ∃ i kept, i.node = node ∧ Active run T (k + 2) i (Library.choosing c kept) fs := by
  obtain ⟨⟨id, sc, frames⟩, i, ds, k', hn, hsT, hf, hnode, hi, hstage⟩ := h.stage hopens hplays (by omega)
  obtain rfl := hf
  rcases hstage.of_wait with heq | ⟨_, _, _, -, -, heq⟩
  · cases heq
    have hfinding : (run (k + 1)).next = some (⟨id, sc, fs⟩, .call (.behave
        { i with dependencies := i.dependencies.merge ds } (Library.finding c))) := by
      rw [(hplays k (by omega)).eq_turn hn]
      rfl
    refine ⟨{ i with dependencies := i.dependencies.merge ds },
      ((run (k + 1)).engine.nodeBySerial? i.serial).bind fun m => m.cell? Library.expressionKey, hnode, ⟨id, sc, fs⟩, ?_,
      hsT, rfl⟩
    rw [(hplays (k + 1) (by omega)).eq_turn hfinding]
    rfl
  · exact absurd (Wait.pull.inj (Script.wait.inj heq).1) (by decide)

/-- Evaluations in a run. A node that is told its text fails with what is wrong with it, or pulls `x`. Told
`x`, it yields the value of the text that it was told last, with the variables of that time: all of them, or
none if the text names none. That is what plain evaluation yields, unless a variable that was not read bears
the name of a constant or of a function that is looked up. -/
theorem evaluations_plain (hopens : Opens (run 0)) (hplays : ∀ k < n, Play (run k) (run (k + 1))) :
    (∀ k T fs node c, k + 5 ≤ n → (run k).Answers T fs node "code" c → match Expr.Expression.compile c with
      | .error _ => ∀ values x, (run (k + 3)).Yields T fs (Library.plainly c values x)
      | .ok _ => ∃ m, k < m ∧ m ≤ k + 5 ∧ (run m).Pulls T fs node "x") ∧
    ∀ k T fs node x, k + 2 ≤ n → (run k).Answers T fs node "x" x →
      ∃ j < k, ∃ c e, (run j).Answers T fs node "code" c ∧
        (∀ m, j < m → m < k → ∀ node' c', ¬(run m).Answers T fs node' "code" c') ∧
        Expr.Expression.compile c = .ok e ∧
        (run (k + 2)).Yields T fs (e.evaluate ((Library.visible e (run j).engine.store.values).set "x" x)) ∧
        (¬Library.Eclipsed e (run j).engine.store.values →
          (run (k + 2)).Yields T fs (Library.plainly c (run j).engine.store.values x)) := by
  refine ⟨fun k T fs node c hk hanswers => ?_, fun k T fs node x hk hanswers => ?_⟩
  · obtain ⟨i, kept, rfl, hactive⟩ := hanswers.choosing hopens hplays (by omega)
    cases hcompile : Expr.Expression.compile c with
    | error cause =>
      rcases Library.choosing_cases c kept with heq | ⟨e, hok, -⟩
      · intro values x
        have hplainly : Library.plainly c values x = .error (.cause cause) := by
          simp only [Library.plainly, hcompile]
        rw [heq, Library.compiling, hcompile] at hactive
        rw [hplainly]
        exact Active.yields (r := .error (.cause cause)) hactive (hplays (k + 2) (by omega))
      · cases hok.symm.trans hcompile
    | ok e =>
      rcases Library.choosing_cases c kept with heq | ⟨e', -, heq⟩
      · rw [heq, Library.compiling, hcompile] at hactive
        obtain ⟨s, hn, hsT, rfl⟩ := hactive
        have hreading : Active run T (k + 3) i (Library.reading e) s.frames := by
          refine ⟨s, ?_, hsT, rfl⟩
          rw [(hplays (k + 2) (by omega)).eq_turn hn]
          rfl
        obtain ⟨m, hm, hle, hpulls⟩ := hreading.pulls fun m hm => hplays m (by omega)
        exact ⟨m, by omega, by omega, hpulls⟩
      · rw [heq] at hactive
        obtain ⟨m, hm, hle, hpulls⟩ := hactive.pulls fun m hm => hplays m (by omega)
        exact ⟨m, by omega, by omega, hpulls⟩
  · obtain ⟨⟨id, sc, frames⟩, i, ds, k', hn, hsT, hf, rfl, hi, hstage⟩ := hanswers.stage hopens hplays (by omega)
    obtain rfl := hf
    rcases hstage.of_wait with heq | ⟨c, e, _, hcompile, ⟨j, hj, htold, rfl, hlast⟩, heq⟩
    · exact absurd (Wait.pull.inj (Script.wait.inj heq).1) (by decide)
    · cases heq
      have hactive : Active run T (k + 1) { i with dependencies := i.dependencies.merge ds } (Library.concluding
          (e.evaluate ((Library.visible e (run j).engine.store.values).set "x" x))) fs := by
        refine ⟨⟨id, sc, fs⟩, ?_, hsT, rfl⟩
        rw [(hplays k (by omega)).eq_turn hn]
        rfl
      have hyields := hactive.yields (hplays (k + 1) (by omega))
      refine ⟨j, hj, c, e, htold, hlast, hcompile, hyields, fun hclear => ?_⟩
      have hplainly : Library.plainly c (run j).engine.store.values x =
          e.evaluate ((run j).engine.store.values.set "x" x) := by
        simp only [Library.plainly, hcompile]
      rwa [hplainly, ← Library.evaluate_visible hclear]

end Results

/-! ## A variable that an expression names, and one that it does not -/

/-- A variable is set to 3, and a node with a text and 2 for `x` is pulled. -/
def scriptSession (text name : String) : Engine.Turn :=
  opening (.initial {}
    { kinds := [.sketch "script" .expression [Library.given "code" .string (.str "x"), Library.given "x" .any (.int 0)]
          [Library.yields "value" .any] Library.code.behavior,
        .sketch "sink" .statement [{ id := "in" }] [] none] }
    { nodes := [{ serial := 0, id := "n", kind := "script", literals := [("code", .str text), ("x", .int 2)] },
        { serial := 1, id := "s", kind := "sink" }]
      edges := [⟨"n", "value", "s", "in"⟩]
      nextSerial := 2 } 0.01)
    [.command (.setVariable name (.int 3)), .pull "s" "in"]

/-- The state after a number of steps of that session. -/
def scripted (text name : String) (n : Nat) : Engine.Turn := (follow n (scriptSession text name, fun _ => {})).1

/-- Whether something that was pulled is about to be told. -/
def Engine.Turn.tellsValue (t : Engine.Turn) : Bool :=
  match t.next with
  | some (_, .back (.pulled _ _)) => true
  | _ => false

theorem Engine.Turn.Answers.tellsValue {t : Engine.Turn} {T : Nat} {fs : List Frame} {node port : String} {v : Value}
    (h : t.Answers T fs node port v) : t.tellsValue = true := by
  obtain ⟨s, i, ds, k, hn, -⟩ := h
  simp only [Engine.Turn.tellsValue, hn]

/-- A text that names a variable is evaluated as plainly. -/
theorem evaluations_plain_sum : ∃ fs, (scripted "x + y" "y" 14).Answers 1 fs "n" "x" (.int 2) ∧
    (scripted "x + y" "y" 16).Yields 1 fs (Library.plainly (.str "x + y") [("y", .int 3)] (.int 2)) ∧
    Library.plainly (.str "x + y") [("y", .int 3)] (.int 2) = .ok (.int 5) := by
  have hopens : Opens (scripted "x + y" "y" 0) := by
    show Opens (scriptSession "x + y" "y")
    refine ⟨_, _, _, _, _, ?_, rfl⟩
    exact ⟨by decide, by decide⟩
  have hgoes : ∀ k < 16, (Engine.advance (scripted "x + y" "y" k)).isSome = true := by decide +kernel
  have hplays : ∀ k < 16, Play (scripted "x + y" "y" k) (scripted "x + y" "y" (k + 1)) :=
    fun k hk => .of_advance (advance_follow (hgoes k hk))
  obtain ⟨fs, hcode, hx⟩ : ∃ fs, (scripted "x + y" "y" 8).Answers 1 fs "n" "code" (.str "x + y") ∧
      (scripted "x + y" "y" 14).Answers 1 fs "n" "x" (.int 2) := by
    with_unfolding_all exact ⟨_, ⟨_, _, _, _, rfl, rfl, rfl, rfl, rfl⟩, _, _, _, _, rfl, rfl, rfl, rfl, rfl⟩
  obtain ⟨-, hyields⟩ := evaluations_plain hopens hplays
  obtain ⟨j, hj, c, e, htold, hlast, hcompile, -, hplain⟩ := hyields 14 1 fs "n" (.int 2) le_rfl hx
  -- the text was told at the eighth step and not since
  have hquiet : ∀ j < 14, 8 < j → (scripted "x + y" "y" j).tellsValue = false := by decide +kernel
  have height : j = 8 := by
    rcases Nat.lt_trichotomy j 8 with hlt | heq | hgt
    · exact absurd hcode (hlast 8 hlt (by decide) _ _)
    · exact heq
    · cases htold.tellsValue.symm.trans (hquiet j hj hgt)
  subst height
  obtain ⟨_, _, _, _, hn, -⟩ := hcode
  obtain ⟨_, _, _, _, hn', -⟩ := htold
  obtain ⟨-, hsig⟩ := Prod.mk.inj (Option.some.inj (hn.symm.trans hn'))
  obtain ⟨rfl, -⟩ := Result.pulled.inj (Signal.back.inj hsig)
  obtain ⟨e', hcompile', hnames⟩ : ∃ e, Expr.Expression.compile (.str "x + y") = .ok e ∧
      Library.namesVariable e = true := by
    with_unfolding_all exact ⟨_, rfl, rfl⟩
  obtain rfl := Except.ok.inj (hcompile.symm.trans hcompile')
  have hvalues : (scripted "x + y" "y" 8).engine.store.values = [("y", .int 3)] := by with_unfolding_all rfl
  rw [hvalues] at hplain
  refine ⟨fs, hx, hplain fun hclipsed => ?_, by with_unfolding_all rfl⟩
  cases hnames.symm.trans hclipsed.1

/-- A variable with the name of a constant: the text yields the constant, and plainly it is the variable. -/
theorem evaluation_eclipsed : ∃ fs x, (scripted "pi" "pi" 8).Answers 1 fs "n" "code" (.str "pi") ∧
    (scripted "pi" "pi" 13).Answers 1 fs "n" "x" (.int 2) ∧
    (∀ k, 8 ≤ k → k ≤ 13 → (scripted "pi" "pi" k).engine.store.values = [("pi", .int 3)]) ∧
    (scripted "pi" "pi" 15).Yields 1 fs (.ok (.float x)) ∧
    Library.plainly (.str "pi") [("pi", .int 3)] (.int 2) = .ok (.int 3) := by
  obtain ⟨fs, x, hcode, hx, hyields⟩ : ∃ fs x, (scripted "pi" "pi" 8).Answers 1 fs "n" "code" (.str "pi") ∧
      (scripted "pi" "pi" 13).Answers 1 fs "n" "x" (.int 2) ∧ (scripted "pi" "pi" 15).Yields 1 fs (.ok (.float x)) := by
    with_unfolding_all exact ⟨_, _, ⟨_, _, _, _, rfl, rfl, rfl, rfl, rfl⟩, ⟨_, _, _, _, rfl, rfl, rfl, rfl, rfl⟩,
      _, _, rfl, rfl, rfl, _, rfl⟩
  refine ⟨fs, x, hcode, hx, fun k hk hk' => ?_, hyields, by with_unfolding_all rfl⟩
  interval_cases k <;> with_unfolding_all rfl

end Patchbay
