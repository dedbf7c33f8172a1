import Patchbay.Library
import Patchbay.Proofs.Declarations
import Patchbay.Proofs.Validity

/-!
# What the kinds of the library ask for

An interval and a listener register something for their node, once, and keep the registration in the state of the
node under a key of their own. The other kinds of the library register nothing, cancel nothing, change no graph, and
keep nothing under that key.

Contents:
* `Query.isModest`, `Script.Modest`: what these other kinds ask for.
* `Library.IsEntry`: the two kinds.
* `Script.Pledges`, `Script.Asks`, `Script.Answers`, `Script.Opens`: what intervals and listeners do, from the end.

Results:
* `Library.modest_of_mem`: the other kinds.
* `Library.opens_of_mem`: intervals and listeners.
-/

namespace Patchbay

/-! ## Modest behaviours -/

/-- Whether a question registers and cancels nothing, and keeps nothing in the place of a registration. -/
def Query.isModest : Query → Bool
  | .every _ _ | .fireLater _ _ | .listen _ _ | .cancelOwn => false
  | .keep key _ => key != Library.registrationKey
  | _ => true

/-- A script that registers and cancels nothing, keeps nothing in the place of a registration, and carries out no
commands. -/
inductive Script.Modest : Script → Prop
  | finish (v : Value) : Modest (.finish v)
  | fail (err : Raised) : Modest (.fail err)
  | again (state : Value) : Modest (.again state)
  | ask {q : Query} {k : Except Raised q.Reply → Script} (hq : q.isModest = true) (h : ∀ r, Modest (k r)) :
      Modest (.ask q k)
  | wait {w : Wait} {k : Except Raised w.Reply → Script} (h : ∀ r, Modest (k r)) : Modest (.wait w k)

/-- Whether all scripts of a kind are such. -/
def Kind.Modest (k : Kind Behavior) : Prop := ∀ b, k.behavior = some b → ∀ state, (b state).Modest

/-- An action after which any such script may follow. -/
def Action.Modest {α : Type} (a : Action α) : Prop := ∀ k : α → Script, (∀ x, (k x).Modest) → (a k).Modest

namespace Action.Modest

variable {α β : Type}

theorem pure (x : α) : Modest (Pure.pure x : Action α) := fun _ h => h x

theorem bind {a : Action α} {f : α → Action β} (ha : a.Modest) (hf : ∀ x, (f x).Modest) : (a >>= f).Modest :=
  fun k h => ha _ fun x => hf x k h

theorem fail (err : Raised) : (Action.fail err : Action α).Modest := fun _ _ => .fail err

theorem again (state : Value) : (Action.again state : Action α).Modest := fun _ _ => .again state

theorem ofExcept (r : Except Raised α) : (Action.ofExcept r).Modest := by
  intro k h
  cases r with
  | ok x => exact h x
  | error err => exact .fail err

theorem primitive (r : Except Fault α) : (Action.primitive r).Modest := ofExcept _

theorem ask {q : Query} (hq : q.isModest = true) : (Action.ask q).Modest :=
  fun k h => .ask hq fun r => ofExcept r k h

theorem wait (w : Wait) : (Action.wait w).Modest := fun k h => .wait fun r => ofExcept r k h

theorem pull (port : String) : (Action.pull port).Modest := wait (.pull port)

theorem advance (port : String) : (Action.advance port).Modest := wait (.advance port)

theorem checkpoint : Action.checkpoint.Modest := wait .checkpoint

theorem sleep (seconds : Value) : (Action.sleep seconds).Modest := wait (.sleep seconds)

theorem pullAs (t : ValueType) (port : String) : (Action.pullAs t port).Modest :=
  bind (pull port) fun _ => primitive _

theorem pullText (port : String) : (Action.pullText port).Modest := by
  refine bind (pullAs _ port) fun v => ?_
  split
  · exact pure _
  · exact fail _

theorem pullTruth (port : String) : (Action.pullTruth port).Modest := bind (pullAs _ port) fun _ => pure _

theorem pullNumber (port : String) : (Action.pullNumber port).Modest := by
  refine bind (pullAs _ port) fun v => ?_
  split
  · exact pure _
  · exact pure _
  · exact bind (primitive _) fun _ => fail _

theorem pullItems (port : String) : (Action.pullItems port).Modest := by
  refine bind (pullAs _ port) fun v => ?_
  split
  · exact pure _
  · exact pure _
  · exact bind (primitive _) fun _ => fail _

theorem toScript {a : Action Value} (h : a.Modest) : a.toScript.Modest := h _ .finish

end Action.Modest

namespace Library

open Patchbay.Action

/-- The kinds that register something. -/
def IsEntry (kind : String) : Prop := kind = interval.kind ∨ kind = listener.kind

instance : DecidablePred IsEntry := fun _ => inferInstanceAs (Decidable (_ ∨ _))

/-- The behaviour of a declaration is modest. -/
def Mild (d : Declaration Behavior) : Prop := ∀ b, d.behavior = some b → ∀ state, (b state).Modest

theorem mild_entry (kind name category : String) (shape : Shape) (inputs outputs : List Port) (about : Option String)
    {a : Value → Action Value} (h : ∀ state, (a state).Modest) :
    Mild (entry kind name category shape inputs outputs about fun state => (a state).toScript) := by
  rintro b hb state
  obtain rfl := Option.some.inj hb
  exact (h state).toScript

theorem mild_numberEntry (kind name : String) (inputs : List Port) (about : Option String) {a : Action Value}
    (h : a.Modest) : Mild (numberEntry kind name inputs about a) :=
  mild_entry kind name _ _ inputs _ about fun _ => .bind h fun _ => .pure _

theorem mild_binaryEntry (kind name : String) (literal : Int) (about : Option String)
    (f : Value → Value → Except Fault Value) : Mild (binaryEntry kind name literal about f) :=
  mild_numberEntry kind name _ about
    (.bind (.pullNumber "a") fun _ => .bind (.pullNumber "b") fun _ => .primitive _)

theorem mild_textEntry (kind name : String) (inputs : List Port) (yielded : ValueType) (about : Option String)
    {a : Action Value} (h : a.Modest) : Mild (textEntry kind name inputs yielded about a) :=
  mild_entry kind name _ _ inputs _ about fun _ => .bind h fun _ => .pure _

theorem mild_truthEntry (kind name : String) (inputs : List Port) {a : Action Value} (h : a.Modest) :
    Mild (truthEntry kind name inputs a) :=
  mild_entry kind name _ _ inputs _ none fun _ => .bind h fun _ => .pure _

/-! ## Control flow -/

theorem mild_choice : Mild choice :=
  mild_entry _ _ _ _ _ _ _ fun _ => .bind (.pullTruth "condition") fun _ => .pure _

theorem mild_whileLoop : Mild whileLoop := by
  refine mild_entry _ _ _ _ _ _ _ fun _ => .bind .checkpoint fun runs => ?_
  have hexit : (do advance "exit"; pure .null : Action Value).Modest := .bind (.advance "exit") fun _ => .pure _
  cases runs with
  | false => exact hexit
  | true =>
    refine .bind (.pullTruth "condition") fun holds => ?_
    cases holds with
    | false => exact hexit
    | true => exact .bind (.advance "loop") fun _ => .bind (.again _) fun _ => hexit

theorem modest_countingPass (index bound : Int) : (countingPass index bound).Modest := by
  have hdone : countingDone.Modest := .bind (.advance "done") fun _ => .pure _
  unfold countingPass
  split
  · refine .bind .checkpoint fun runs => ?_
    cases runs with
    | false => exact hdone
    | true =>
      exact .bind (.ask (q := .memoize "index" (.int index)) rfl) fun _ => .bind (.advance "loop") fun _ => .again _
  · exact hdone

theorem modest_pullInteger (port : String) : (pullInteger port).Modest := by
  refine .bind (.pull port) fun v => .bind (.primitive _) fun n => ?_
  split
  · exact .pure _
  · exact .fail _

theorem mild_countingLoop : Mild countingLoop := by
  refine mild_entry _ _ _ _ _ _ _ fun state => ?_
  split
  · exact modest_countingPass _ _
  · exact .bind (modest_pullInteger "from") fun _ => .bind (modest_pullInteger "to") fun _ => modest_countingPass _ _

theorem modest_secondsOf (ms : Value) : (secondsOf ms).Modest := .bind (.primitive _) fun _ => .pure _

theorem mild_pause : Mild pause := by
  refine mild_entry _ _ _ _ _ _ _ fun _ => .bind (.pull "ms") fun ms => .bind (modest_secondsOf ms) fun seconds => ?_
  refine .bind (.sleep seconds) fun elapsed => ?_
  cases elapsed with
  | false => exact .bind (.ask (q := .halt) rfl) fun _ => .pure _
  | true => exact .pure _

/-! ## Data -/

theorem mild_setVariable : Mild setVariable :=
  mild_entry _ _ _ _ _ _ _ fun _ => .bind (.pullText "name") fun name => .bind (.pull "value") fun v =>
    .bind (.ask (q := .setVariable name v) rfl) fun _ => .pure _

theorem mild_getVariable : Mild getVariable :=
  mild_entry _ _ _ _ _ _ _ fun _ => .bind (.pullText "name") fun name =>
    .bind (.ask (q := .readVariable name) rfl) fun _ => .pure _

theorem mild_jsonParse : Mild jsonParse := by
  refine mild_entry _ _ _ _ _ _ _ fun _ => .bind (.pull "json") fun v => ?_
  split
  · exact .bind (.primitive _) fun _ => .pure _
  · exact .pure _

theorem mild_arrayPop : Mild arrayPop :=
  mild_entry _ _ _ _ _ _ _ fun _ => .bind (.pullItems "array") fun _ => .pure _

theorem mild_arrayPush : Mild arrayPush :=
  mild_entry _ _ _ _ _ _ _ fun _ => .bind (.pullItems "array") fun _ => .bind (.pull "item") fun _ => .pure _

theorem mild_timestamp : Mild timestamp :=
  mild_entry _ _ _ _ _ _ _ fun _ => .bind (.ask (q := .clock) rfl) fun _ => .pure _

theorem mild_log : Mild log :=
  mild_entry _ _ _ _ _ _ _ fun _ => .bind (.pull "message") fun message => .bind (.pull "level") fun level =>
    .bind (.ask (q := .log level message) rfl) fun _ => .pure _

/-- Keeping the expression that a node has compiled. -/
theorem modest_keepExpression (compiled : Except Raised Expr.Expression) : (do
    let e ← ofExcept compiled
    ask (.keep expressionKey (.expression e))
    pure e : Action Expr.Expression).Modest :=
  .bind (.ofExcept _) fun e => .bind (.ask (q := .keep expressionKey (.expression e)) rfl) fun _ => .pure _

theorem modest_expressionFor (source : Value) : (expressionFor source).Modest := by
  refine .bind (.ask (q := .kept expressionKey) rfl) fun kept => ?_
  split
  · split
    · exact .pure _
    · exact modest_keepExpression _
  · exact modest_keepExpression _

theorem mild_code : Mild code := by
  rintro b hb state
  obtain rfl := Option.some.inj hb
  refine Action.Modest.toScript (.bind (.pull "code") fun source => .bind (modest_expressionFor source) fun e => ?_)
  have hrest (names : Named) : (do
      let x ← pull "x"
      let v ← ofExcept (e.evaluate (names.set "x" x))
      pure (outputs [("value", v)]) : Action Value).Modest :=
    .bind (.pull "x") fun _ => .bind (.ofExcept _) fun _ => .pure _
  split
  · exact .bind (.ask (q := .readVariables) rfl) hrest
  · exact .bind (.pure _) hrest

/-! ## Numbers, texts and truth -/

theorem mild_clamp : Mild clamp :=
  mild_numberEntry _ _ _ _
    (.bind (.pullNumber "val") fun _ => .bind (.pullNumber "min") fun _ => .bind (.pullNumber "max") fun _ => .pure _)

theorem mild_template : Mild template := by
  refine mild_textEntry _ _ _ _ _ (.bind (.ask (q := .readVariables) rfl) fun globals =>
    .bind (.primitive _) fun names =>
    .bind (.pull "values") fun own => ?_)
  split
  · exact .bind (.primitive _) fun _ => .bind (.pure _) fun _ => .bind (.pullText "tpl") fun _ => .pure _
  · exact .bind (.pure _) fun _ => .bind (.pullText "tpl") fun _ => .pure _

theorem mild_both : Mild both := by
  refine mild_truthEntry _ _ _ (.bind (.pullTruth "a") fun a => ?_)
  cases a with
  | false => exact .pure _
  | true => exact .bind (.pullTruth "b") fun _ => .pure _

theorem mild_either : Mild either := by
  refine mild_truthEntry _ _ _ (.bind (.pullTruth "a") fun a => ?_)
  cases a with
  | false => exact .bind (.pullTruth "b") fun _ => .pure _
  | true => exact .pure _

theorem modest_comparisonOf (op : Value) : (comparisonOf op).Modest := by
  have hunknown : (comparisonOf.unknown op).Modest := .bind (.primitive _) fun _ => .fail _
  unfold comparisonOf
  split
  · split
    · exact .pure _
    · exact hunknown
  · split
    · exact hunknown
    · exact .fail _

theorem mild_comparison : Mild comparison :=
  mild_truthEntry _ _ _ (.bind (.pull "op") fun op => .bind (modest_comparisonOf op) fun _ => .bind (.pull "a") fun _ =>
    .bind (.pull "b") fun _ => .bind (.primitive _) fun _ => .pure _)

/-- The declarations of the other kinds. -/
theorem mild_of_mem {d : Declaration Behavior} (h : d ∈ declarations) (hd : ¬IsEntry d.kind) : Mild d := by
  have hentry : IsEntry interval.kind ∧ IsEntry listener.kind := ⟨.inl rfl, .inr rfl⟩
  simp only [declarations, List.mem_cons, List.not_mem_nil, or_false] at h
  rcases h with rfl | rfl | h
  · exact absurd hentry.1 hd
  · exact absurd hentry.2 hd
  rcases h with rfl | rfl | rfl | rfl | rfl | rfl | rfl | rfl | rfl | rfl | rfl | rfl | rfl | rfl | rfl | rfl | rfl |
    rfl | rfl | rfl | rfl | rfl | rfl | rfl | rfl | rfl | rfl | rfl
  · exact mild_choice
  · exact mild_whileLoop
  · exact mild_countingLoop
  · exact mild_pause
  · exact mild_both
  · exact mild_either
  · exact mild_truthEntry _ _ _ (.bind (.pullTruth "val") fun _ => .pure _)
  · exact mild_comparison
  · exact mild_binaryEntry _ _ _ _ _
  · exact mild_binaryEntry _ _ _ _ _
  · exact mild_binaryEntry _ _ _ _ _
  · exact mild_binaryEntry _ _ _ _ _
  · exact mild_numberEntry _ _ _ _
      (.bind (.pullNumber "min") fun _ => .bind (.pullNumber "max") fun _ => .primitive _)
  · exact mild_clamp
  · exact mild_numberEntry _ _ _ _ (.bind (.pullNumber "deg") fun _ => .primitive _)
  · exact mild_textEntry _ _ _ _ _ (.bind (.pullText "a") fun _ => .bind (.pullText "b") fun _ => .pure _)
  · exact mild_textEntry _ _ _ _ _ (.bind (.pullText "text") fun _ => .pure _)
  · exact mild_textEntry _ _ _ _ _ (.bind (.pullText "text") fun _ => .pure _)
  · exact mild_template
  · exact mild_setVariable
  · exact mild_getVariable
  · exact mild_jsonParse
  · exact mild_arrayPop
  · exact mild_arrayPush
  · exact mild_timestamp
  · exact mild_log
  · exact mild_code
  · intro b hb
    cases hb

/-! ## The kinds of the registry -/

theorem mem_kinds_of_foldl {k : Kind Behavior} {ds : List (Declaration Behavior)} {r : Registry Behavior}
    (h : k ∈ (ds.foldl (fun r d => match d.build with
      | .ok k => r.register k
      | .error _ => r) r).kinds) : k ∈ r.kinds ∨ ∃ d ∈ ds, d.build = .ok k := by
  induction ds generalizing r with
  | nil => exact .inl h
  | cons d ds ih =>
    rcases ih h with h | ⟨d', hd', hbuild⟩
    · dsimp only at h
      split at h
      · next k' hbuild =>
        rcases Registry.mem_put h with rfl | h
        · exact .inr ⟨d, List.mem_cons_self, hbuild⟩
        · exact .inl h
      · exact .inl h
    · exact .inr ⟨d', List.mem_cons_of_mem d hd', hbuild⟩

/-- Every kind of the library is that of one of its declarations. -/
theorem exists_declaration {k : Kind Behavior} (h : k ∈ registry.kinds) : ∃ d ∈ declarations, d.build = .ok k := by
  rcases mem_kinds_of_foldl h with h | h
  · cases h
  · exact h

theorem mem_of_find? {kind : String} {k : Kind Behavior} (h : registry.find? kind = some k) :
    k ∈ registry.kinds ∧ k.id = kind :=
  ⟨List.mem_of_find?_eq_some h, by simpa using List.find?_some h⟩

/-- The other kinds are modest. -/
theorem modest_of_mem {k : Kind Behavior} (h : k ∈ registry.kinds) (hk : ¬IsEntry k.id) : k.Modest := by
  obtain ⟨d, hd, hbuild⟩ := exists_declaration h
  obtain ⟨shape, inputs, outputs, -, -, -, -, rfl⟩ := Declaration.build_eq_ok_iff.mp hbuild
  exact mild_of_mem hd hk

/-- The names of control flow outputs. -/
def flowPorts : List String := [execPort, "then", "else", "loop", "exit", "done"]

/-- An output of a kind of the library carries control flow exactly when it has such a name. -/
theorem isExec_iff {k : Kind Behavior} (hk : k ∈ registry.kinds) {p : Port} (hp : p ∈ k.outputs) :
    p.isExec = true ↔ p.id ∈ flowPorts := by
  have hall : ∀ k ∈ registry.kinds, ∀ p ∈ k.outputs, p.isExec = decide (p.id ∈ flowPorts) := by decide +kernel
  rw [hall k hk p hp, decide_eq_true_eq]

/-- What intervals and listeners have in common. -/
theorem traits_of_entry {k : Kind Behavior} (hk : k ∈ registry.kinds) (he : IsEntry k.id) :
    k.shape = .event ∧ k.autoContinue = false ∧ k.teardown = some (.forget registrationKey) := by
  have hall : ∀ k ∈ registry.kinds, IsEntry k.id →
      k.shape = .event ∧ k.autoContinue = false ∧ k.teardown = some (.forget registrationKey) := by decide +kernel
  exact hall k hk he

/-- The others forget no registration when they are torn down. -/
theorem teardown_of_modest {k : Kind Behavior} (hk : k ∈ registry.kinds) (he : ¬IsEntry k.id) :
    k.teardown = none ∨ k.teardown = some (.forget expressionKey) := by
  have hall : ∀ k ∈ registry.kinds, ¬IsEntry k.id →
      k.teardown = none ∨ k.teardown = some (.forget expressionKey) := by decide +kernel
  exact hall k hk he

/-- Control flow leads to no interval and no listener. -/
theorem not_isExec_of_entry {k : Kind Behavior} (hk : k ∈ registry.kinds) (he : IsEntry k.id) {p : Port}
    (hp : p ∈ k.inputs) : p.isExec = false := by
  obtain ⟨d, -, hbuild⟩ := exists_declaration hk
  exact ((Declaration.proper_of_build hbuild).event (traits_of_entry hk he).1).1 p hp

end Library

/-! ## Intervals and listeners -/

/-- A script that keeps a registration for its node, and is then done. -/
def Script.Pledges (r : Nat) (script : Script) : Prop :=
  ∃ k, script = .ask (.keep Library.registrationKey (.registration r)) k ∧ k (.ok ()) = .finish .null

theorem Script.Modest.not_pledges {r : Nat} {script : Script} (h : script.Modest) : ¬script.Pledges r := by
  rintro ⟨k, rfl, -⟩
  cases h with
  | ask hq => simp [Query.isModest] at hq

/-- A script that registers an interval or a listener for its node, and keeps the registration. -/
inductive Script.Asks : Script → Prop
  | every {seconds : Value} {k : Except Raised Nat → Script} (herr : ∀ err, ∃ err', k (.error err) = .fail err')
      (h : ∀ r, (k (.ok r)).Pledges r) : Asks (.ask (.every seconds execPort) k)
  | listen {event : Value} {k : Except Raised Nat → Script} (herr : ∀ err, ∃ err', k (.error err) = .fail err')
      (h : ∀ r, (k (.ok r)).Pledges r) : Asks (.ask (.listen event execPort) k)

/-- What an interval or a listener does with the value of its input: it registers something, or fails, or is a
listener for an empty name, and done. -/
inductive Script.Answers (kind port : String) (v : Value) : Script → Prop
  | ticks {script : Script} (hkind : kind = Library.interval.kind) (h : script.Asks) : Answers kind port v script
  | hears {script : Script} (hkind : kind = Library.listener.kind) (hport : port = "name") (hv : v.truthy = true)
      (h : script.Asks) : Answers kind port v script
  | ignores (hkind : kind = Library.listener.kind) (hport : port = "name") (hv : v.truthy = false) :
      Answers kind port v (.finish .null)
  | fails (err : Raised) : Answers kind port v (.fail err)

/-- A script that waits for the value of an input, and then does what intervals and listeners do. -/
def Script.Opens (kind : String) (script : Script) : Prop :=
  ∃ port k, script = .wait (.pull port) k ∧ (∀ err, ∃ err', k (.error err) = .fail err') ∧
    ∀ v, (k (.ok v)).Answers kind port v

namespace Library

theorem opens_interval {b : Behavior} (h : interval.behavior = some b) (state : Value) :
    (b state).Opens interval.kind := by
  obtain rfl := Option.some.inj h
  refine ⟨"ms", _, rfl, fun err => ⟨err, rfl⟩, fun v => ?_⟩
  simp only [Action.ofExcept, bind, secondsOf, Action.primitive]
  cases Fault.lift (Expr.toFloat v) with
  | error err => exact .fails err
  | ok x => exact .ticks rfl (.every (fun err => ⟨err, rfl⟩) fun r => ⟨_, rfl, rfl⟩)

theorem opens_listener {b : Behavior} (h : listener.behavior = some b) (state : Value) :
    (b state).Opens listener.kind := by
  obtain rfl := Option.some.inj h
  refine ⟨"name", _, rfl, fun err => ⟨err, rfl⟩, fun v => ?_⟩
  simp only [Action.ofExcept, bind, pure]
  cases hv : v.truthy with
  | false => exact .ignores rfl rfl hv
  | true => exact .hears rfl rfl hv (.listen (fun err => ⟨err, rfl⟩) fun r => ⟨_, rfl, rfl⟩)

/-- What the behaviour of an interval or a listener does. -/
theorem opens_of_mem {k : Kind Behavior} (hk : k ∈ registry.kinds) (he : IsEntry k.id) {b : Behavior}
    (hb : k.behavior = some b) (state : Value) : (b state).Opens k.id := by
  obtain ⟨d, hd, hbuild⟩ := exists_declaration hk
  obtain ⟨shape, inputs, outputs, -, -, -, -, rfl⟩ := Declaration.build_eq_ok_iff.mp hbuild
  have hcases : d = interval ∨ d = listener := by
    have hall : ∀ d ∈ declarations.drop 2, ¬IsEntry d.kind := by decide +kernel
    have hsplit : d ∈ interval :: listener :: declarations.drop 2 := hd
    rcases List.mem_cons.mp hsplit with rfl | hsplit
    · exact .inl rfl
    rcases List.mem_cons.mp hsplit with rfl | hsplit
    · exact .inr rfl
    · exact absurd he (hall d hsplit)
  rcases hcases with rfl | rfl
  · exact opens_interval hb state
  · exact opens_listener hb state

end Library

end Patchbay
