import Patchbay.Proofs.Coercions
import Patchbay.Proofs.Modesty

/-!
# Literals and wires

A literal is coerced to the type of its input before a behaviour sees it; the value of a wire arrives as it is. Most
behaviours of the library coerce what they pull once more, and always to the type that the input declares. Since a
coerced value is left as it is by the same coercion, they cannot tell a literal from the same value on a wire.

Contents:
* `Script.Indifferent`: a script to which a value and what coercion makes of it are the same.
* `Library.asTheyCome`: the inputs of the library that are used without a coercion.

Results:
* `coerce_coerce`: coercion is idempotent, and lands in the type unless it changes nothing.
* `Library.indifferent_of_mem`: the kinds of the library.
* `coercion_settles`: both, and what the second coercion does.
-/

namespace Patchbay

/-- Coercing once more changes nothing. What has changed is of the type, and what is coerced to text is text. -/
theorem coerce_coerce {v w : Value} {t : ValueType} (h : coerce v t = .ok w) :
    coerce w t = .ok w ∧ (w = v ∨ w.Represents t) ∧ (t = .string → w.Represents .string) := by
  rcases becomes_of_coerce h with ⟨-, hrep, -⟩ | ⟨hnot, rfl⟩
  · exact ⟨coerce_of_represents hrep, .inr hrep, fun ht => ht ▸ hrep⟩
  · refine ⟨h, .inl rfl, fun ht => absurd ?_ hnot⟩
    by_contra hconv
    obtain ⟨f, hf, -⟩ := (failsWhen_coerce w t).exists_error ⟨ht, hconv⟩
    rw [h] at hf
    cases hf

/-! ## Indifferent scripts -/

/-- A script that, told the value of an input among some ports, goes on in the same way as when it is told what coercion
to the type of the port makes of the value. -/
inductive Script.Indifferent (ports : List Port) : Script → Prop
  | finish (v : Value) : Indifferent ports (.finish v)
  | fail (err : Raised) : Indifferent ports (.fail err)
  | again (state : Value) : Indifferent ports (.again state)
  | ask {q : Query} {k : Except Raised q.Reply → Script} (h : ∀ r, Indifferent ports (k r)) :
      Indifferent ports (.ask q k)
  | edit {c : Command} {k : Except Raised Answer → Script} (h : ∀ r, Indifferent ports (k r)) :
      Indifferent ports (.edit c k)
  | wait {w : Wait} {k : Except Raised w.Reply → Script} (hw : ∀ port, w ≠ .pull port)
      (h : ∀ r, Indifferent ports (k r)) : Indifferent ports (.wait w k)
  | pull {port : String} {k : Except Raised Value → Script} (h : ∀ r, Indifferent ports (k r))
      (hsame : ∀ p ∈ ports, p.id = port → ∀ v w, coerce v p.valueType = .ok w → k (.ok v) = k (.ok w)) :
      Indifferent ports (.wait (.pull port) k)

/-- Whether an input has a certain type, if it is among some ports. -/
def TypedAs (ports : List Port) (port : String) (t : ValueType) : Prop := ∀ p ∈ ports, p.id = port → p.valueType = t

instance (ports : List Port) (port : String) (t : ValueType) : Decidable (TypedAs ports port t) :=
  inferInstanceAs (Decidable (∀ p ∈ ports, _ → _))

/-- An action after which any such script may follow. -/
def Action.Indifferent {α : Type} (ports : List Port) (a : Action α) : Prop :=
  ∀ k : α → Script, (∀ x, (k x).Indifferent ports) → (a k).Indifferent ports

namespace Action.Indifferent

variable {α β : Type} {ports : List Port} {port : String}

theorem pure (x : α) : Indifferent ports (Pure.pure x : Action α) := fun _ h => h x

theorem bind {a : Action α} {f : α → Action β} (ha : a.Indifferent ports) (hf : ∀ x, (f x).Indifferent ports) :
    (a >>= f).Indifferent ports := fun k h => ha _ fun x => hf x k h

theorem fail (err : Raised) : (Action.fail err : Action α).Indifferent ports := fun _ _ => .fail err

theorem again (state : Value) : (Action.again state : Action α).Indifferent ports := fun _ _ => .again state

theorem ofExcept (r : Except Raised α) : (Action.ofExcept r).Indifferent ports := by
  intro k h
  cases r with
  | ok x => exact h x
  | error err => exact .fail err

theorem primitive (r : Except Fault α) : (Action.primitive r).Indifferent ports := ofExcept _

theorem ask (q : Query) : (Action.ask q).Indifferent ports := fun k h => .ask fun r => ofExcept r k h

theorem advance (port : String) : (Action.advance port).Indifferent ports :=
  fun k h => .wait nofun fun r => ofExcept r k h

theorem checkpoint : Action.checkpoint.Indifferent ports := fun k h => .wait nofun fun r => ofExcept r k h

theorem sleep (seconds : Value) : (Action.sleep seconds).Indifferent ports :=
  fun k h => .wait nofun fun r => ofExcept r k h

/-- A value that is used as it comes is of no certain type. -/
theorem pull (hport : TypedAs ports port .any) : (Action.pull port).Indifferent ports := by
  refine fun k h => .pull (fun r => ofExcept r k h) fun p hp hid v w hw => ?_
  rw [hport p hp hid] at hw
  cases hw
  rfl

/-- A value that is coerced to the type of its input may have been so before. -/
theorem pullAs {t : ValueType} (hport : TypedAs ports port t) : (Action.pullAs t port).Indifferent ports := by
  refine fun k h => .pull (fun r => ofExcept r _ fun v => primitive _ k h) fun p hp hid v w hw => ?_
  rw [hport p hp hid] at hw
  show Action.primitive (coerce v t) k = Action.primitive (coerce w t) k
  rw [hw, (coerce_coerce hw).1]

theorem pullText (hport : TypedAs ports port .string) : (Action.pullText port).Indifferent ports := by
  refine bind (pullAs hport) fun v => ?_
  split
  · exact pure _
  · exact fail _

theorem pullTruth (hport : TypedAs ports port .boolean) : (Action.pullTruth port).Indifferent ports :=
  bind (pullAs hport) fun _ => pure _

theorem pullNumber (hport : TypedAs ports port .number) : (Action.pullNumber port).Indifferent ports := by
  refine bind (pullAs hport) fun v => ?_
  split
  · exact pure _
  · exact pure _
  · exact bind (primitive _) fun _ => fail _

theorem pullItems (hport : TypedAs ports port .array) : (Action.pullItems port).Indifferent ports := by
  refine bind (pullAs hport) fun v => ?_
  split
  · exact pure _
  · exact pure _
  · exact bind (primitive _) fun _ => fail _

theorem toScript {a : Action Value} (h : a.Indifferent ports) : a.toScript.Indifferent ports := h _ .finish

end Action.Indifferent

/-! ## The kinds of the library -/

namespace Library

/-- The inputs with a type whose values are used as they come: a number that a primitive operation reads, an operator, a
level, a source, an event, a text that may be something else. -/
def asTheyCome : List (String × String) :=
  [("time.interval", "ms"), ("event.listen", "name"), ("logic.for", "from"), ("logic.for", "to"), ("logic.wait", "ms"),
    ("logic.compare", "op"), ("data.json_parse", "json"), ("debug.log", "level"), ("script.eval", "code"),
    ("str.template", "values")]

/-- The data inputs of a kind but these. -/
def coercedAmong (kind : String) (inputs : List Port) : List Port :=
  inputs.filter fun p => !p.isExec && !asTheyCome.contains (kind, p.id)

/-- The inputs of a kind whose values are coerced, or need not be. -/
def coercedInputs (k : Kind Behavior) : List Port := coercedAmong k.id k.inputs

theorem coercedAmong_withExecInput (kind : String) (shape : Shape) (inputs : List Port) :
    coercedAmong kind (Declaration.withExecInput shape inputs) = coercedAmong kind inputs := by
  unfold Declaration.withExecInput coercedAmong
  split
  · exact List.filter_cons_of_neg (by simp [Port.execIn, Port.isExec])
  · rfl

/-- The behaviour of a declaration is indifferent to the coercion of its inputs. -/
def Neutral (d : Declaration Behavior) : Prop :=
  ∀ inputs, portList .input d.inputs = .ok inputs → ∀ b, d.behavior = some b →
    ∀ state, (b state).Indifferent (coercedAmong d.kind inputs)

open Action.Indifferent

variable {kind name category : String} {inputs outputs : List Port} {about : Option String}

/-- The same of inputs as they are declared. -/
def asInputs (kind : String) (inputs : List Port) : List Port :=
  coercedAmong kind (inputs.map fun p => { p with direction := .input })

theorem neutral_entry {shape : Shape} {a : Value → Action Value}
    (h : ∀ state, (a state).Indifferent (asInputs kind inputs)) :
    Neutral (entry kind name category shape inputs outputs about fun state => (a state).toScript) := by
  rintro inputs hin b hb state
  obtain rfl := Except.ok.inj hin
  obtain rfl := Option.some.inj hb
  exact (h state).toScript

theorem neutral_numberEntry {a : Action Value} (h : a.Indifferent (asInputs kind inputs)) :
    Neutral (numberEntry kind name inputs about a) :=
  neutral_entry fun _ => bind h fun _ => pure _

theorem neutral_textEntry {yielded : ValueType} {a : Action Value} (h : a.Indifferent (asInputs kind inputs)) :
    Neutral (textEntry kind name inputs yielded about a) :=
  neutral_entry fun _ => bind h fun _ => pure _

theorem neutral_truthEntry {a : Action Value} (h : a.Indifferent (asInputs kind inputs)) :
    Neutral (truthEntry kind name inputs a) :=
  neutral_entry fun _ => bind h fun _ => pure _

theorem neutral_binaryEntry {literal : Int} {f : Value → Value → Except Fault Value} :
    Neutral (binaryEntry kind name literal about f) := by
  have hnumber (port : String) : TypedAs (asInputs kind [number "a" literal, number "b" literal]) port .number := by
    intro p hp _
    obtain ⟨q, hq, rfl⟩ := List.mem_map.mp (List.mem_of_mem_filter hp)
    simp only [List.mem_cons, List.not_mem_nil, or_false] at hq
    rcases hq with rfl | rfl <;> rfl
  exact neutral_numberEntry (bind (pullNumber (hnumber "a")) fun _ => bind (pullNumber (hnumber "b")) fun _ =>
    primitive _)

theorem indifferent_secondsOf {ports : List Port} (ms : Value) : (secondsOf ms).Indifferent ports :=
  bind (primitive _) fun _ => pure _

theorem neutral_interval : Neutral interval := by
  rintro inputs hin b hb state
  obtain rfl := Except.ok.inj hin
  obtain rfl := Option.some.inj hb
  exact toScript (bind (pull (by decide)) fun ms => bind (indifferent_secondsOf ms) fun _ =>
    bind (ask _) fun _ => bind (ask _) fun _ => pure _)

theorem neutral_listener : Neutral listener := by
  rintro inputs hin b hb state
  obtain rfl := Except.ok.inj hin
  obtain rfl := Option.some.inj hb
  refine toScript (bind (pull (by decide)) fun name => ?_)
  split
  · exact bind (ask _) fun _ => bind (ask _) fun _ => pure _
  · exact pure _

/-! ### Control flow -/

theorem neutral_choice : Neutral choice :=
  neutral_entry fun _ => bind (pullTruth (by decide)) fun _ => pure _

theorem neutral_whileLoop : Neutral whileLoop := by
  refine neutral_entry fun _ => bind checkpoint fun runs => ?_
  have hexit {ports : List Port} : (do Action.advance "exit"; Pure.pure .null : Action Value).Indifferent ports :=
    bind (advance "exit") fun _ => pure _
  cases runs with
  | false => exact hexit
  | true =>
    refine bind (pullTruth (by decide)) fun holds => ?_
    cases holds with
    | false => exact hexit
    | true => exact bind (advance "loop") fun _ => bind (again _) fun _ => hexit

theorem indifferent_countingPass {ports : List Port} (index bound : Int) :
    (countingPass index bound).Indifferent ports := by
  have hdone : countingDone.Indifferent ports := bind (advance "done") fun _ => pure _
  unfold countingPass
  split
  · refine bind checkpoint fun runs => ?_
    cases runs with
    | false => exact hdone
    | true => exact bind (ask _) fun _ => bind (advance "loop") fun _ => again _
  · exact hdone

theorem indifferent_pullInteger {ports : List Port} {port : String} (hport : TypedAs ports port .any) :
    (pullInteger port).Indifferent ports := by
  refine bind (pull hport) fun v => bind (primitive _) fun n => ?_
  split
  · exact pure _
  · exact fail _

theorem neutral_countingLoop : Neutral countingLoop := by
  refine neutral_entry fun state => ?_
  split
  · exact indifferent_countingPass _ _
  · exact bind (indifferent_pullInteger (by decide)) fun _ =>
      bind (indifferent_pullInteger (by decide)) fun _ => indifferent_countingPass _ _

theorem neutral_pause : Neutral pause := by
  refine neutral_entry fun _ => bind (pull (by decide)) fun ms => bind (indifferent_secondsOf ms) fun seconds =>
    bind (sleep seconds) fun elapsed => ?_
  cases elapsed with
  | false => exact bind (ask _) fun _ => pure _
  | true => exact pure _

/-! ### Data -/

theorem neutral_setVariable : Neutral setVariable :=
  neutral_entry fun _ => bind (pullText (by decide)) fun _ => bind (pull (by decide)) fun _ =>
    bind (ask _) fun _ => pure _

theorem neutral_getVariable : Neutral getVariable :=
  neutral_entry fun _ => bind (pullText (by decide)) fun _ => bind (ask _) fun _ => pure _

theorem neutral_jsonParse : Neutral jsonParse := by
  refine neutral_entry fun _ => bind (pull (by decide)) fun v => ?_
  split
  · exact bind (primitive _) fun _ => pure _
  · exact pure _

theorem neutral_arrayPop : Neutral arrayPop :=
  neutral_entry fun _ => bind (pullItems (by decide)) fun _ => pure _

theorem neutral_arrayPush : Neutral arrayPush :=
  neutral_entry fun _ => bind (pullItems (by decide)) fun _ => bind (pull (by decide)) fun _ => pure _

theorem neutral_timestamp : Neutral timestamp :=
  neutral_entry fun _ => bind (ask _) fun _ => pure _

theorem neutral_log : Neutral log :=
  neutral_entry fun _ => bind (pull (by decide)) fun _ => bind (pull (by decide)) fun _ =>
    bind (ask _) fun _ => pure _

theorem indifferent_keepExpression {ports : List Port} (compiled : Except Raised Expr.Expression) : (do
    let e ← Action.ofExcept compiled
    Action.ask (.keep expressionKey (.expression e))
    Pure.pure e : Action Expr.Expression).Indifferent ports :=
  bind (ofExcept _) fun _ => bind (ask _) fun _ => pure _

theorem indifferent_expressionFor {ports : List Port} (source : Value) : (expressionFor source).Indifferent ports := by
  refine bind (ask (.kept expressionKey)) fun kept => ?_
  split
  · split
    · exact pure _
    · exact indifferent_keepExpression _
  · exact indifferent_keepExpression _

theorem neutral_code : Neutral code := by
  rintro inputs hin b hb state
  obtain rfl := Except.ok.inj hin
  obtain rfl := Option.some.inj hb
  refine toScript (bind (pull (by decide)) fun source => bind (indifferent_expressionFor source) fun e => ?_)
  have hrest (names : Named) : (do
      let x ← Action.pull "x"
      let v ← Action.ofExcept (e.evaluate (names.set "x" x))
      Pure.pure (Action.outputs [("value", v)]) : Action Value).Indifferent (asInputs code.kind
        [given "code" .string (.str "x"), given "x" .any (.int 0)]) :=
    bind (pull (by decide)) fun _ => bind (ofExcept _) fun _ => pure _
  split
  · exact bind (ask _) hrest
  · exact bind (pure _) hrest

/-! ### Numbers, texts and truth -/

theorem neutral_someNumber : Neutral someNumber :=
  neutral_numberEntry (bind (pullNumber (by decide)) fun _ => bind (pullNumber (by decide)) fun _ =>
    primitive _)

theorem neutral_clamp : Neutral clamp :=
  neutral_numberEntry (bind (pullNumber (by decide)) fun _ => bind (pullNumber (by decide)) fun _ =>
    bind (pullNumber (by decide)) fun _ => pure _)

theorem neutral_sine : Neutral sine :=
  neutral_numberEntry (bind (pullNumber (by decide)) fun _ => primitive _)

theorem neutral_concatenation : Neutral concatenation :=
  neutral_textEntry (bind (pullText (by decide)) fun _ => bind (pullText (by decide)) fun _ => pure _)

theorem neutral_textLength : Neutral textLength :=
  neutral_textEntry (bind (pullText (by decide)) fun _ => pure _)

theorem neutral_upperCase : Neutral upperCase :=
  neutral_textEntry (bind (pullText (by decide)) fun _ => pure _)

theorem neutral_template : Neutral template := by
  refine neutral_textEntry (bind (ask _) fun globals => bind (primitive _) fun names =>
    bind (pull (by decide)) fun own => ?_)
  split
  · exact bind (primitive _) fun _ => bind (pure _) fun _ => bind (pullText (by decide)) fun _ => pure _
  · exact bind (pure _) fun _ => bind (pullText (by decide)) fun _ => pure _

theorem neutral_both : Neutral both := by
  refine neutral_truthEntry (bind (pullTruth (by decide)) fun a => ?_)
  cases a with
  | false => exact pure _
  | true => exact bind (pullTruth (by decide)) fun _ => pure _

theorem neutral_either : Neutral either := by
  refine neutral_truthEntry (bind (pullTruth (by decide)) fun a => ?_)
  cases a with
  | false => exact bind (pullTruth (by decide)) fun _ => pure _
  | true => exact pure _

theorem neutral_negation : Neutral negation :=
  neutral_truthEntry (bind (pullTruth (by decide)) fun _ => pure _)

theorem indifferent_comparisonOf {ports : List Port} (op : Value) : (comparisonOf op).Indifferent ports := by
  have hunknown : (comparisonOf.unknown op).Indifferent ports := bind (primitive _) fun _ => fail _
  unfold comparisonOf
  split
  · split
    · exact pure _
    · exact hunknown
  · split
    · exact hunknown
    · exact fail _

theorem neutral_comparison : Neutral comparison :=
  neutral_truthEntry (bind (pull (by decide)) fun op => bind (indifferent_comparisonOf op) fun _ =>
    bind (pull (by decide)) fun _ => bind (pull (by decide)) fun _ => bind (primitive _) fun _ => pure _)

theorem neutral_of_mem {d : Declaration Behavior} (h : d ∈ declarations) : Neutral d := by
  simp only [declarations, List.mem_cons, List.not_mem_nil, or_false] at h
  rcases h with rfl | rfl | rfl | rfl | rfl | rfl | rfl | rfl | rfl | rfl | rfl | rfl | rfl | rfl | rfl | rfl | rfl |
    rfl | rfl | rfl | rfl | rfl | rfl | rfl | rfl | rfl | rfl | rfl | rfl | rfl
  · exact neutral_interval
  · exact neutral_listener
  · exact neutral_choice
  · exact neutral_whileLoop
  · exact neutral_countingLoop
  · exact neutral_pause
  · exact neutral_both
  · exact neutral_either
  · exact neutral_negation
  · exact neutral_comparison
  · exact neutral_binaryEntry
  · exact neutral_binaryEntry
  · exact neutral_binaryEntry
  · exact neutral_binaryEntry
  · exact neutral_someNumber
  · exact neutral_clamp
  · exact neutral_sine
  · exact neutral_concatenation
  · exact neutral_textLength
  · exact neutral_upperCase
  · exact neutral_template
  · exact neutral_setVariable
  · exact neutral_getVariable
  · exact neutral_jsonParse
  · exact neutral_arrayPop
  · exact neutral_arrayPush
  · exact neutral_timestamp
  · exact neutral_log
  · exact neutral_code
  · rintro _ _ _ ⟨⟩

/-- The behaviours of the library cannot tell a value from what coercion to the type of the input makes of it. -/
theorem indifferent_of_mem {k : Kind Behavior} (h : k ∈ registry.kinds) {b : Behavior} (hb : k.behavior = some b)
    (state : Value) : (b state).Indifferent (coercedInputs k) := by
  obtain ⟨d, hd, hbuild⟩ := exists_declaration h
  obtain ⟨shape, inputs, outputs, -, hin, -, -, rfl⟩ := Declaration.build_eq_ok_iff.mp hbuild
  have hneutral := neutral_of_mem hd inputs hin b hb state
  rwa [coercedInputs, Declaration.toKind, coercedAmong_withExecInput]

end Library

/-! ## The second coercion -/

/-- Coercing once more changes nothing, and what has changed is of the type. So an input that is read under its own type
yields a coerced literal as it is, and the behaviours of the library go on with a literal just as with the same value on
a wire. -/
theorem coercion_settles :
    (∀ v w t, coerce v t = .ok w →
      coerce w t = .ok w ∧ (w = v ∨ w.Represents t) ∧ (t = .string → w.Represents .string)) ∧
    (∀ v w t port (k : Value → Script), coerce v t = .ok w →
      ∃ c, Action.pullAs t port k = .wait (.pull port) c ∧ c (.ok w) = k w ∧ c (.ok v) = k w) ∧
    ∀ k ∈ Library.registry.kinds, ∀ b, k.behavior = some b →
      ∀ state, (b state).Indifferent (Library.coercedInputs k) := by
  refine ⟨fun v w t h => coerce_coerce h, fun v w t port k h => ?_, fun k hk b hb state =>
    Library.indifferent_of_mem hk hb state⟩
  have hprimitive {u : Value} (hu : coerce u t = .ok w) : Action.primitive (coerce u t) k = k w := by
    rw [hu]
    rfl
  exact ⟨_, rfl, hprimitive (coerce_coerce h).1, hprimitive h⟩

/-- A numeral with blanks and a low line is the number 1000, once and for all; and a sum is indifferent to the coercion
of its inputs. -/
theorem coercion_settles_of_numeral :
    coerce (.int 1000) .number = .ok (.int 1000) ∧
      (∃ c, Action.pullAs .number "a" .finish = .wait (.pull "a") c ∧ c (.ok (.int 1000)) = .finish (.int 1000) ∧
        c (.ok (.str " 1_000 ")) = .finish (.int 1000)) ∧
      ∃ k ∈ Library.registry.kinds, (Library.coercedInputs k).map Port.id = ["a", "b"] ∧
        ∃ b, k.behavior = some b ∧ (b .null).Indifferent (Library.coercedInputs k) := by
  have hnumeral : coerce (.str " 1_000 ") .number = .ok (.int 1000) := by
    have hint : Decimal.intOfText? 10 (Text.strip " 1_000 ") = some 1000 := by decide +kernel
    rw [coerce, coerceNumber, hint]
  refine ⟨(coercion_settles.1 _ _ _ hnumeral).1, coercion_settles.2.1 _ _ _ "a" .finish hnumeral, ?_⟩
  have hsum : ∃ k ∈ Library.registry.kinds, (Library.coercedInputs k).map Port.id = ["a", "b"] ∧
      k.behavior.isSome = true := by decide +kernel
  obtain ⟨k, hk, hids, hsome⟩ := hsum
  obtain ⟨b, hb⟩ := Option.isSome_iff_exists.mp hsome
  exact ⟨k, hk, hids, b, hb, coercion_settles.2.2 k hk b hb .null⟩

end Patchbay
