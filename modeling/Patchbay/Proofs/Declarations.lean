import Patchbay.Behavior.Script
import Patchbay.Registry

/-!
# Kinds that are declared again

A declaration is checked before the control flow ports that its shape asks for are put in front of the declared
ones, and the ports with these are not checked again. A declared data port that has the id of such a port is
accepted then, and comes behind it in the kind; declared again by its own ports the kind is refused. For every
other declaration the kind has distinct ids and is the kind of its own declaration.

Contents:
* `Kind.Proper`: directions, and the control flow ports that a shape asks for.
* `Declaration.Collides`: a data port has the id of a control flow port that the shape adds.

Results:
* `build_eq_ok_iff`: what a declaration is made into.
* `proper_of_build`, `nodup_iff_of_build`: what kinds are like.
* `rebuild_of_build`, `refused_of_build`: kinds that are declared again.
* `declared_kind_iff`: the three ways to register a kind.
-/

namespace Patchbay

/-! ## Ids -/

/-- No id is repeated when ids are distinct and none has been seen. -/
theorem repeatedPort?_eq_none_iff {seen : List String} {ps : List Port} :
    repeatedPort? seen ps = none ↔ (ps.map Port.id).Nodup ∧ ∀ p ∈ ps, p.id ∉ seen := by
  induction ps generalizing seen with
  | nil => simp [repeatedPort?]
  | cons p ps ih =>
    by_cases hp : p.id ∈ seen
    · simp [repeatedPort?, hp]
    · simp only [repeatedPort?, List.contains_eq_mem, hp, decide_false, Bool.false_eq_true, ↓reduceIte, ih,
        List.map_cons, List.nodup_cons, List.mem_map, List.mem_cons, forall_eq_or_imp]
      grind

/-- The id that is repeated when there is only one. -/
theorem repeatedPort?_eq_some {seen : List String} {ps : List Port} {id : String}
    (hnodup : (ps.map Port.id).Nodup) (hmem : id ∈ ps.map Port.id) (hseen : ∀ p ∈ ps, p.id ∈ seen ↔ p.id = id) :
    repeatedPort? seen ps = some id := by
  induction ps generalizing seen with
  | nil => cases hmem
  | cons p ps ih =>
    obtain ⟨hp, hrest⟩ := List.forall_mem_cons.mp hseen
    obtain ⟨hfresh, hnodup⟩ := List.nodup_cons.mp hnodup
    by_cases hid : p.id = id
    · rw [repeatedPort?, if_pos (by simpa using hp.mpr hid), hid]
    · have hnew : p.id ∉ seen := fun h => hid (hp.mp h)
      simp only [repeatedPort?, List.contains_eq_mem, hnew, decide_false, Bool.false_eq_true, ↓reduceIte]
      refine ih hnodup ((List.mem_cons.mp hmem).resolve_left (Ne.symm hid)) fun q hq => ?_
      have hother : q.id ≠ p.id := fun h => hfresh (h ▸ List.mem_map_of_mem hq)
      rw [List.mem_cons, or_iff_right hother, hrest q hq]

/-- Whether a data port has the id that a control flow port would be given. -/
def Taken (ports : List Port) : Prop := (∀ p ∈ ports, p.isExec = false) ∧ execPort ∈ ports.map Port.id

instance (ports : List Port) : Decidable (Taken ports) := inferInstanceAs (Decidable (_ ∧ _))

/-- Ids of ports with a control flow port in front, where one is needed. -/
theorem nodup_in_front_iff {ports : List Port} {front : Port} (needed : Bool) (hfront : front.id = execPort)
    (hnodup : (ports.map Port.id).Nodup) :
    ((if needed && !ports.any Port.isExec then front :: ports else ports).map Port.id).Nodup ↔
      ¬(needed = true ∧ Taken ports) := by
  have hnone : (!ports.any Port.isExec) = true ↔ ∀ p ∈ ports, p.isExec = false := by simp
  split
  · next h =>
    obtain ⟨hneeded, hno⟩ := (Bool.and_eq_true _ _).mp h
    simp only [List.map_cons, List.nodup_cons, hfront, hnodup, and_true, hneeded, true_and, Taken, not_and]
    exact ⟨fun h _ => h, fun h => h (hnone.mp hno)⟩
  · next h =>
    refine ⟨fun _ ⟨hneeded, htaken⟩ => h ?_, fun _ => hnodup⟩
    rw [hneeded, Bool.true_and]
    exact hnone.mpr htaken.1

/-! ## Declarations that are accepted -/

variable {β : Type}

/-- A shape is found by its name. -/
@[simp] theorem Shape.ofName?_name (shape : Shape) : Shape.ofName? shape.name = some shape := by
  cases shape <;> decide

/-- A text in the place of an empty one stays there. -/
theorem nonEmpty?_getD (s : Option String) (t : String) :
    (nonEmpty? (some ((nonEmpty? s).getD t))).getD t = (nonEmpty? s).getD t := by
  cases h : nonEmpty? s with
  | none => by_cases ht : t = "" <;> simp [nonEmpty?, Option.filter_some, ht]
  | some u =>
    have hkept : (!u.isEmpty) = true := (Option.filter_eq_some_iff.mp h).2
    rw [Option.getD_some, nonEmpty?, Option.filter_some, if_pos hkept, Option.getD_some]

/-- What holds of everything that a function gives holds of a list that it was applied to throughout. -/
theorem forall_of_mapM_eq_ok {α ε γ : Type} {f : α → Except ε γ} {P : γ → Prop} (hf : ∀ a c, f a = .ok c → P c)
    {l : List α} {cs : List γ} (h : l.mapM f = .ok cs) : ∀ c ∈ cs, P c := by
  induction l generalizing cs with
  | nil =>
    obtain rfl := Except.ok.inj h
    exact List.forall_mem_nil P
  | cons a rest ih =>
    rw [List.mapM_cons] at h
    cases ha : f a with
    | error err => simp [ha, bind, Except.bind] at h
    | ok c =>
      cases hrest : rest.mapM f with
      | error err => simp [ha, hrest, bind, Except.bind] at h
      | ok ds =>
        simp only [ha, hrest, bind, Except.bind, pure, Except.pure, Except.ok.injEq] at h
        subst h
        exact List.forall_mem_cons.mpr ⟨hf a c ha, ih hrest⟩

/-- The ports of a declaration all have its direction. -/
theorem direction_of_portList {dir : Direction} {ds : PortDeclarations} {ports : List Port}
    (h : portList dir ds = .ok ports) : ∀ p ∈ ports, p.direction = dir := by
  cases ds with
  | listed ps =>
    obtain rfl := Except.ok.inj h
    intro p hp
    obtain ⟨q, -, rfl⟩ := List.mem_map.mp hp
    rfl
  | keyed entries =>
    refine forall_of_mapM_eq_ok (fun x p hp => ?_) h
    cases hx : portOfEntry dir x.1 x.2 with
    | error f => simp [hx, bind, Except.bind] at hp
    | ok q =>
      simp only [hx, bind, Except.bind, pure, Except.pure, Except.ok.injEq] at hp
      rw [← hp]

namespace Declaration

/-- Which ports pass the check. -/
theorem checkPorts_eq_ok_iff {kind : String} {shape : Shape} {inputs outputs : List Port} :
    checkPorts kind shape inputs outputs = .ok () ↔
      (inputs.map Port.id).Nodup ∧ (outputs.map Port.id).Nodup ∧
      (shape = .expression → ∀ p ∈ inputs ++ outputs, p.isExec = false) ∧
      (shape = .event → ∀ p ∈ inputs, p.isExec = false) := by
  have hnodup (ps : List Port) : (ps.map Port.id).Nodup ↔ repeatedPort? [] ps = none := by
    simp [repeatedPort?_eq_none_iff]
  rw [hnodup, hnodup]
  simp only [checkPorts, bind, Except.bind, pure, Except.pure, throw, throwThe, MonadExceptOf.throw]
  cases repeatedPort? [] inputs with
  | some id => simp
  | none =>
    cases repeatedPort? [] outputs with
    | some id => simp
    | none =>
      cases shape with
      | statement => simp
      | expression => cases h : (inputs ++ outputs).any Port.isExec <;> grind
      | event => cases h : inputs.any Port.isExec <;> grind

/-- The kind of a declaration with a shape and ports. -/
def toKind (d : Declaration β) (shape : Shape) (inputs outputs : List Port) : Kind β where
  id := d.kind
  displayName := (nonEmpty? d.displayName).getD d.kind
  category := d.category
  inputs := withExecInput shape inputs
  outputs := withExecOutput shape outputs
  behavior := d.behavior
  shape := shape
  autoContinue := d.autoContinue
  teardown := d.teardown
  description := d.description

/-- What a declaration is made into once its shape and ports are known. -/
theorem build_of_parts {d : Declaration β} {shape : Shape} {inputs outputs : List Port}
    (hshape : Shape.ofName? d.shape = some shape) (hin : portList .input d.inputs = .ok inputs)
    (hout : portList .output d.outputs = .ok outputs) :
    d.build = (checkPorts d.kind shape inputs outputs).map fun _ => d.toKind shape inputs outputs := by
  simp only [build, hshape, hin, hout, bind, Except.bind, pure, Except.pure]
  cases checkPorts d.kind shape inputs outputs <;> rfl

/-- A declaration is made into a kind exactly when its shape and ports are known and fit together. -/
theorem build_eq_ok_iff {d : Declaration β} {k : Kind β} :
    d.build = .ok k ↔ ∃ shape inputs outputs, Shape.ofName? d.shape = some shape ∧
      portList .input d.inputs = .ok inputs ∧ portList .output d.outputs = .ok outputs ∧
      checkPorts d.kind shape inputs outputs = .ok () ∧ k = d.toKind shape inputs outputs := by
  constructor
  · intro h
    cases hshape : Shape.ofName? d.shape with
    | none => simp [build, hshape] at h
    | some shape =>
      cases hin : portList .input d.inputs with
      | error f => simp [build, hshape, hin, bind, Except.bind] at h
      | ok inputs =>
        cases hout : portList .output d.outputs with
        | error f => simp [build, hshape, hin, hout, bind, Except.bind] at h
        | ok outputs =>
          rw [build_of_parts hshape hin hout] at h
          cases hcheck : checkPorts d.kind shape inputs outputs with
          | error f => simp [hcheck, Except.map] at h
          | ok u =>
            rw [hcheck] at h
            exact ⟨shape, inputs, outputs, rfl, rfl, rfl, hcheck, (Except.ok.inj h).symm⟩
  · rintro ⟨shape, inputs, outputs, hshape, hin, hout, hcheck, rfl⟩
    rw [build_of_parts hshape hin hout, hcheck]
    rfl

/-- Whether a declared data port has the id of a control flow port that the shape adds. -/
def Collides (d : Declaration β) : Prop :=
  match Shape.ofName? d.shape, portList .input d.inputs, portList .output d.outputs with
  | some shape, .ok inputs, .ok outputs =>
    shape = .statement ∧ Taken inputs ∨ shape ≠ .expression ∧ Taken outputs
  | _, _, _ => False

instance (d : Declaration β) : Decidable d.Collides := by
  unfold Collides
  split <;> infer_instance

theorem collides_of_parts {d : Declaration β} {shape : Shape} {inputs outputs : List Port}
    (hshape : Shape.ofName? d.shape = some shape) (hin : portList .input d.inputs = .ok inputs)
    (hout : portList .output d.outputs = .ok outputs) :
    d.Collides ↔ shape = .statement ∧ Taken inputs ∨ shape ≠ .expression ∧ Taken outputs := by
  simp only [Collides, hshape, hin, hout]

/-! ## Control flow ports -/

theorem withExecInput_nodup_iff {shape : Shape} {inputs : List Port} (h : (inputs.map Port.id).Nodup) :
    ((withExecInput shape inputs).map Port.id).Nodup ↔ ¬(shape = .statement ∧ Taken inputs) := by
  refine (nodup_in_front_iff (shape == .statement) (rfl : Port.execIn.id = execPort) h).trans ?_
  rw [beq_iff_eq]

theorem withExecOutput_nodup_iff {shape : Shape} {outputs : List Port} (h : (outputs.map Port.id).Nodup) :
    ((withExecOutput shape outputs).map Port.id).Nodup ↔ ¬(shape ≠ .expression ∧ Taken outputs) := by
  refine (nodup_in_front_iff (shape != .expression) (rfl : Port.execOut.id = execPort) h).trans ?_
  rw [bne_iff_ne]

theorem exec_withExecInput (inputs : List Port) : ∃ p ∈ withExecInput .statement inputs, p.isExec = true := by
  by_cases h : inputs.any Port.isExec = true
  · rw [withExecInput, h]
    exact List.any_eq_true.mp h
  · exact ⟨.execIn, by simp [withExecInput, h], rfl⟩

theorem exec_withExecOutput {shape : Shape} (hshape : shape ≠ .expression) (outputs : List Port) :
    ∃ p ∈ withExecOutput shape outputs, p.isExec = true := by
  by_cases h : outputs.any Port.isExec = true
  · rw [withExecOutput, h, Bool.not_true, Bool.and_false]
    exact List.any_eq_true.mp h
  · exact ⟨.execOut, by simp [withExecOutput, h, hshape], rfl⟩

theorem withExecInput_of_ne {shape : Shape} (hshape : shape ≠ .statement) (inputs : List Port) :
    withExecInput shape inputs = inputs := by simp [withExecInput, hshape]

/-- Ports that have the control flow input get no other one. -/
theorem withExecInput_withExecInput (shape : Shape) (inputs : List Port) :
    withExecInput shape (withExecInput shape inputs) = withExecInput shape inputs := by
  by_cases hshape : shape = .statement
  · subst hshape
    have hexec : (withExecInput .statement inputs).any Port.isExec = true :=
      List.any_eq_true.mpr (exec_withExecInput inputs)
    rw [withExecInput.eq_def _ (withExecInput .statement inputs), hexec]
    rfl
  · rw [withExecInput_of_ne hshape, withExecInput_of_ne hshape]

/-- Ports that have the control flow output get no other one. -/
theorem withExecOutput_withExecOutput (shape : Shape) (outputs : List Port) :
    withExecOutput shape (withExecOutput shape outputs) = withExecOutput shape outputs := by
  by_cases hshape : shape = .expression
  · subst hshape
    rfl
  · have hexec : (withExecOutput shape outputs).any Port.isExec = true :=
      List.any_eq_true.mpr (exec_withExecOutput hshape outputs)
    rw [withExecOutput.eq_def _ (withExecOutput shape outputs), hexec]
    simp

theorem direction_withExecInput {shape : Shape} {inputs : List Port}
    (h : ∀ p ∈ inputs, p.direction = .input) : ∀ p ∈ withExecInput shape inputs, p.direction = .input := by
  unfold withExecInput
  split
  · exact List.forall_mem_cons.mpr ⟨rfl, h⟩
  · exact h

theorem direction_withExecOutput {shape : Shape} {outputs : List Port}
    (h : ∀ p ∈ outputs, p.direction = .output) : ∀ p ∈ withExecOutput shape outputs, p.direction = .output := by
  unfold withExecOutput
  split
  · exact List.forall_mem_cons.mpr ⟨rfl, h⟩
  · exact h

end Declaration

/-! ## Kinds -/

/-- Directions are right and the control flow ports are those that the shape asks for. -/
structure Kind.Proper (k : Kind β) : Prop where
  inputs : ∀ p ∈ k.inputs, p.direction = .input
  outputs : ∀ p ∈ k.outputs, p.direction = .output
  statement : k.shape = .statement → (∃ p ∈ k.inputs, p.isExec = true) ∧ ∃ p ∈ k.outputs, p.isExec = true
  event : k.shape = .event → (∀ p ∈ k.inputs, p.isExec = false) ∧ ∃ p ∈ k.outputs, p.isExec = true
  expression : k.shape = .expression → ∀ p ∈ k.inputs ++ k.outputs, p.isExec = false

/-- Whether no two inputs and no two outputs have one id. -/
def Kind.Distinct (k : Kind β) : Prop := (k.inputs.map Port.id).Nodup ∧ (k.outputs.map Port.id).Nodup

instance Kind.decidableDistinct (k : Kind β) : Decidable k.Distinct := inferInstanceAs (Decidable (_ ∧ _))

/-- The refusal of a kind that has two control flow ports under the id they are given. -/
def Declaration.refusal (d : Declaration β) : Fault :=
  .valueSaying s!"Duplicate port '{execPort}' on node kind '{d.kind}'"

namespace Declaration

variable {d : Declaration β} {k : Kind β}

theorem proper_of_build (h : d.build = .ok k) : k.Proper := by
  obtain ⟨shape, inputs, outputs, -, hin, hout, hcheck, rfl⟩ := build_eq_ok_iff.mp h
  obtain ⟨-, -, hexpression, hevent⟩ := checkPorts_eq_ok_iff.mp hcheck
  constructor
  case inputs => exact direction_withExecInput (direction_of_portList hin)
  case outputs => exact direction_withExecOutput (direction_of_portList hout)
  case statement =>
    rintro rfl
    exact ⟨exec_withExecInput inputs, exec_withExecOutput (by decide) outputs⟩
  case event =>
    rintro rfl
    exact ⟨hevent rfl, exec_withExecOutput (by decide) outputs⟩
  case expression =>
    rintro rfl
    exact hexpression rfl

/-- A kind has distinct ids exactly when no declared port is in the place of one that was added. -/
theorem nodup_iff_of_build (h : d.build = .ok k) : k.Distinct ↔ ¬d.Collides := by
  obtain ⟨shape, inputs, outputs, hshape, hin, hout, hcheck, rfl⟩ := build_eq_ok_iff.mp h
  obtain ⟨hinputs, houtputs, -, -⟩ := checkPorts_eq_ok_iff.mp hcheck
  rw [collides_of_parts hshape hin hout, not_or]
  exact and_congr (withExecInput_nodup_iff hinputs) (withExecOutput_nodup_iff houtputs)

theorem map_direction_eq {dir : Direction} {ports : List Port} (h : ∀ p ∈ ports, p.direction = dir) :
    (ports.map fun p => { p with direction := dir }) = ports := by
  refine (List.map_congr_left fun p hp => ?_).trans ports.map_id
  obtain ⟨id, direction, valueType, default, description⟩ := p
  cases h _ hp
  rfl

/-- A kind that is declared again by its own ports: only the check can refuse it. -/
theorem build_declaration (h : d.build = .ok k) :
    k.declaration.build = (checkPorts k.id k.shape k.inputs k.outputs).map fun _ => k := by
  have hproper := proper_of_build h
  obtain ⟨shape, inputs, outputs, -, -, -, -, rfl⟩ := build_eq_ok_iff.mp h
  rw [build_of_parts (show Shape.ofName? (d.toKind shape inputs outputs).declaration.shape = some shape from
    Shape.ofName?_name shape)
    (congrArg Except.ok (map_direction_eq hproper.inputs)) (congrArg Except.ok (map_direction_eq hproper.outputs))]
  have hkind : (d.toKind shape inputs outputs).declaration.toKind shape (withExecInput shape inputs)
      (withExecOutput shape outputs) = d.toKind shape inputs outputs := by
    simp only [toKind, Kind.declaration, withExecInput_withExecInput, withExecOutput_withExecOutput, Kind.mk.injEq,
      and_true, true_and]
    exact nonEmpty?_getD d.displayName d.kind
  exact congrArg (fun l => Except.map (fun _ => l) _) hkind

/-- A kind without ports under one id is the kind of its own declaration. -/
theorem rebuild_of_build (h : d.build = .ok k) (hd : ¬d.Collides) : k.declaration.build = .ok k := by
  obtain ⟨hinputs, houtputs⟩ := (nodup_iff_of_build h).mpr hd
  have hproper := proper_of_build h
  rw [build_declaration h, checkPorts_eq_ok_iff.mpr ⟨hinputs, houtputs, hproper.expression,
    fun hs => (hproper.event hs).1⟩]
  rfl

/-- Ports with a control flow port in front of a data port with its id repeat the id. -/
theorem repeatedPort?_in_front {ports : List Port} {front : Port} (hfront : front.id = execPort)
    (hnodup : (ports.map Port.id).Nodup) (htaken : Taken ports) :
    repeatedPort? [] (front :: ports) = some execPort := by
  have hrest : repeatedPort? [execPort] ports = some execPort :=
    repeatedPort?_eq_some hnodup htaken.2 fun p _ => List.mem_singleton
  simpa [repeatedPort?, hfront] using hrest

/-- A kind with a data port in the place of a control flow port is refused when it is declared again. -/
theorem refused_of_build (h : d.build = .ok k) (hd : d.Collides) : k.declaration.build = .error d.refusal := by
  rw [build_declaration h]
  obtain ⟨shape, inputs, outputs, hshape, hin, hout, hcheck, rfl⟩ := build_eq_ok_iff.mp h
  obtain ⟨hinputs, houtputs, -, -⟩ := checkPorts_eq_ok_iff.mp hcheck
  suffices checkPorts d.kind shape (withExecInput shape inputs) (withExecOutput shape outputs) =
      .error d.refusal from congrArg (Except.map _) this
  simp only [checkPorts, bind, Except.bind, throw, throwThe, MonadExceptOf.throw]
  have hnone {ports : List Port} (ht : Taken ports) : ports.any Port.isExec = false := by simpa using ht.1
  by_cases htaken : shape = .statement ∧ Taken inputs
  · obtain ⟨rfl, htaken⟩ := htaken
    have hrepeat : repeatedPort? [] (withExecInput .statement inputs) = some execPort := by
      simpa [withExecInput, hnone htaken] using
        repeatedPort?_in_front (rfl : Port.execIn.id = execPort) hinputs htaken
    simp only [hrepeat]
    rfl
  · have hfree : repeatedPort? [] (withExecInput shape inputs) = none :=
      repeatedPort?_eq_none_iff.mpr ⟨(withExecInput_nodup_iff hinputs).mpr htaken, by simp⟩
    obtain ⟨hne, ht⟩ := ((collides_of_parts hshape hin hout).mp hd).resolve_left htaken
    have hrepeat : repeatedPort? [] (withExecOutput shape outputs) = some execPort := by
      simpa [withExecOutput, hnone ht, hne] using
        repeatedPort?_in_front (rfl : Port.execOut.id = execPort) houtputs ht
    simp only [hfree, hrepeat]
    rfl

end Declaration

/-! ## Registries -/

namespace Registry

theorem find?_put (k : Kind β) (ks : List (Kind β)) : (put k ks).find? (fun x => x.id == k.id) = some k := by
  induction ks with
  | nil => simp [put]
  | cons x xs ih => by_cases hx : x.id = k.id <;> simp [put, hx, ih]

/-- What was registered last is found. -/
theorem find?_register (r : Registry β) (k : Kind β) : (r.register k).find? k.id = some k := find?_put k r.kinds

end Registry

namespace Declaration

/-- What a behaviour carries that was decorated with a declaration that is accepted. -/
theorem adopt_of_build {d : Declaration β} {k : Kind β} (r : Registry β) (h : d.build = .ok k) :
    r.adopt d = if d.behavior.isNone then .error .missingAttribute else k.declaration.build.map r.register := by
  have hbehavior : k.behavior = d.behavior := by
    obtain ⟨shape, inputs, outputs, -, -, -, -, rfl⟩ := build_eq_ok_iff.mp h
    rfl
  simp only [Registry.adopt, Declaration.decorated, h, hbehavior, bind, Except.bind, pure, Except.pure]
  cases d.behavior with
  | none => rfl
  | some _ =>
    simp only [Option.isNone_some, Bool.false_eq_true, if_false, Registry.declare, bind, Except.bind, pure, Except.pure]
    cases k.declaration.build <;> rfl

/-- What a declaration that is accepted is made into: directions and control flow ports are right, and every registry
stores it. Ids are distinct, and the kind can be declared again by its own ports and is the same then, exactly when no
data port has the id of a control flow port that the shape adds. A behaviour that is decorated with the declaration can
be registered, and stores the same, exactly then; where there is no behaviour to decorate, this is what fails. -/
theorem declared_kind_iff (d : Declaration β) (k : Kind β) (r : Registry β) (h : d.build = .ok k) :
    k.Proper ∧ r.declare d = .ok (r.register k) ∧ (r.register k).find? d.kind = some k ∧
      (k.Distinct ↔ ¬d.Collides) ∧
      (k.declaration.build = .ok k ↔ ¬d.Collides) ∧
      (d.Collides → k.declaration.build = .error d.refusal) ∧
      (d.behavior.isSome → (r.adopt d = .ok (r.register k) ↔ ¬d.Collides) ∧
        (d.Collides → r.adopt d = .error d.refusal)) ∧
      (d.behavior.isNone → r.adopt d = .error .missingAttribute) := by
  have hadopt := adopt_of_build r h
  have hid : k.id = d.kind := by
    obtain ⟨shape, inputs, outputs, -, -, -, -, rfl⟩ := build_eq_ok_iff.mp h
    rfl
  have hagain : k.declaration.build = .ok k ↔ ¬d.Collides := by
    refine ⟨fun hok hd => ?_, rebuild_of_build h⟩
    rw [refused_of_build h hd] at hok
    cases hok
  refine ⟨proper_of_build h, ?_, hid ▸ r.find?_register k, nodup_iff_of_build h, hagain, refused_of_build h, ?_, ?_⟩
  · simp only [Registry.declare, h, bind, Except.bind, pure, Except.pure]
  · intro hsome
    have hcarried : r.adopt d = k.declaration.build.map r.register := by
      rw [hadopt, if_neg (by simpa [← Option.isSome_iff_ne_none] using hsome)]
    have hrefused : d.Collides → r.adopt d = .error d.refusal := fun hd => by
      rw [hcarried, refused_of_build h hd]
      rfl
    refine ⟨⟨fun hok hd => ?_, fun hd => by rw [hcarried, rebuild_of_build h hd]; rfl⟩, hrefused⟩
    rw [hrefused hd] at hok
    cases hok
  · intro hnone
    rw [hadopt, if_pos hnone]

/-- A statement that declares a data input `value`: nothing is in the way of its control flow ports. -/
theorem declared_kind_of_value :
    let d : Declaration Behavior :=
      { kind := "gate", inputs := .listed [{ id := "value", valueType := .number }],
        behavior := some fun _ => .finish .null }
    let k : Kind Behavior := d.toKind .statement [{ id := "value", valueType := .number }] []
    d.build = .ok k ∧ k.Proper ∧ k.Distinct ∧ k.declaration.build = .ok k ∧
      Registry.adopt {} d = .ok (Registry.register {} k) := by
  intro d k
  have hbuild : d.build = .ok k := rfl
  have hfree : ¬d.Collides := by decide
  obtain ⟨hproper, -, -, hdistinct, hagain, -, hadopt, -⟩ := declared_kind_iff d k {} hbuild
  exact ⟨hbuild, hproper, hdistinct.mpr hfree, hagain.mpr hfree, (hadopt rfl).1.mpr hfree⟩

/-- A statement that declares a data input `exec` is accepted with two inputs under this id. Its own ports and shape
are refused, and so is a behaviour that is decorated with the declaration. -/
theorem repeated_id_of_exec :
    let d : Declaration Behavior :=
      { kind := "gate", inputs := .listed [{ id := "exec", valueType := .number }],
        behavior := some fun _ => .finish .null }
    ∃ k, d.build = .ok k ∧ k.inputs.map Port.id = ["exec", "exec"] ∧ ¬(k.inputs.map Port.id).Nodup ∧
      Registry.declare {} d = .ok (Registry.register {} k) ∧
      k.declaration.build = .error (.valueSaying "Duplicate port 'exec' on node kind 'gate'") ∧
      Registry.adopt {} d = .error (.valueSaying "Duplicate port 'exec' on node kind 'gate'") :=
  ⟨_, rfl, rfl, by decide, rfl, rfl, rfl⟩

end Declaration

end Patchbay
