import Mathlib.Data.List.Nodup
import Mathlib.Data.List.Perm.Subperm
import Mathlib.Data.Nat.Find
import Patchbay.Engine.Resolution
import Patchbay.Proofs.Scopes

/-!
# Plain evaluation

The value of a data input or output by the rules of data flow alone: nothing is remembered, and a
data-only node runs anew whenever one of its outputs is needed. Only behaviours that read are evaluated
here; such a behaviour pulls inputs and reads variables, and hands on the errors of its pulls.

`plainOutput` follows the path of outputs being evaluated, as an engine does, and refuses one that is
on the path already. `freeOutput` does not look for cycles; it gives up at a depth. The two are
compared here, for use where a value was computed on one path and is used again on another.

Results:
* `Program.input_unique`: free evaluation yields one value, whatever its depth.
* `Program.plainOutput_of_free`: what free evaluation yields, plain evaluation yields on every path of
  nodes that wait for the output.
-/

namespace Patchbay

/-! ## Programs and what they read -/

/-- What stays the same while triggers run: settings, kinds, and the graph without what its nodes
remember of their executions. -/
structure Program where
  config : Config
  registry : Registry Behavior
  graph : Graph

/-- A node without what it remembers of its executions. -/
def Node.bare (n : Node) : Node := { n with state := [], lastOutputs := [], error := none }

/-- The program that an engine runs. -/
def Engine.program (e : Engine) : Program :=
  ⟨e.config, e.registry, { e.graph with nodes := e.graph.nodes.map Node.bare }⟩

/-- What an evaluation may read: the variables, and the published outputs by node and port. -/
structure World where
  values : Named
  published : String → String → Option Value

namespace Program

/-- The node with an id, and its kind. -/
def nodeWithKind (p : Program) (id : String) : Except Raised (Node × Kind Behavior) := do
  let n ← p.graph.requireNode id
  let k ← p.registry.lookup n.kind
  return (n, k)

/-- Whether a node only carries data. -/
def dataOnly (p : Program) (node : String) : Bool :=
  match p.nodeWithKind node with
  | .ok (_, k) => k.dataOnly
  | .error _ => false

/-- What an evaluation may read in a trigger: of the outputs that the scope holds, those of nodes that
do not only carry data. -/
def world (p : Program) (st : Variables) (sc : Scope) : World where
  values := st.values
  published node port := if p.dataOnly node then none else (sc.outputsOf node).get? (.str port)

end Program

/-! ## Behaviours that read -/

/-- A script of a behaviour whose outcome depends only on what it reads: it pulls one input after another and reads
variables, comes to an end whatever it is told, and ends with the error of a pull that fails. It may write to the log
and let others run meanwhile, and does not ask then whether execution goes on. -/
inductive Script.Reads (b : Behavior) : Script → Prop
  | finish (v : Value) : Reads b (.finish v)
  | fail (err : Raised) : Reads b (.fail err)
  | again (state : Value) (h : Reads b (b state)) : Reads b (.again state)
  | readVariable (name : String) (k : Except Raised (Option Value) → Script)
      (h : ∀ v, Reads b (k (.ok v))) : Reads b (.ask (.readVariable name) k)
  | readVariables (k : Except Raised Named → Script) (h : ∀ vs, Reads b (k (.ok vs))) :
      Reads b (.ask .readVariables k)
  | pull (port : String) (k : Except Raised Value → Script) (h : ∀ v, Reads b (k (.ok v)))
      (handsOn : ∀ err, k (.error err) = .fail err) : Reads b (.wait (.pull port) k)
  | log (level message : Value) (k : Except Raised Unit → Script) (h : Reads b (k (.ok ()))) :
      Reads b (.ask (.log level message) k)
  | checkpoint (k : Except Raised Bool → Script) (h : Reads b (k (.ok true)))
      (hsame : k (.ok false) = k (.ok true)) : Reads b (.wait .checkpoint k)

/-- What a script of a behaviour ends with, where `pull` gives the data inputs. There is no outcome
when the script does anything that its outcome may depend on but read, or does not end. -/
def Script.outcome (b : Behavior) (values : Named) (pull : String → Option (Except Raised Value))
    (s : Script) : Option (Except Raised Value) :=
  match s with
  | .finish v => some (.ok v)
  | .fail err => some (.error err)
  | .again state => b state |>.outcome b values pull
  | .ask (.readVariable name) k => k (.ok (values.get? name)) |>.outcome b values pull
  | .ask .readVariables k => k (.ok values) |>.outcome b values pull
  | .wait (.pull port) k => do k (← pull port) |>.outcome b values pull
  | .ask (.log _ _) k => k (.ok ()) |>.outcome b values pull
  | .wait .checkpoint k => k (.ok true) |>.outcome b values pull
  | _ => none
partial_fixpoint

/-- A pull that fails ends a script that reads. -/
theorem Script.outcome_handsOn (b : Behavior) (values : Named)
    (pull : String → Option (Except Raised Value)) {k : Except Raised Value → Script}
    (handsOn : ∀ err, k (.error err) = .fail err) (err : Raised) :
    (k (.error err)).outcome b values pull = some (.error err) := by
  rw [handsOn, Script.outcome]

namespace Program

/-- Every data-only kind has a behaviour that reads, or none. -/
def Reading (p : Program) : Prop :=
  ∀ k ∈ p.registry.kinds, k.dataOnly = true → ∀ b, k.behavior = some b → (b .null).Reads b

/-! ## Evaluation -/

/-- The value of a data input, where `output` gives the outputs. -/
def input (p : Program) (output : String → String → Option (Except Raised Value)) (node port : String) :
    Option (Except Raised Value) :=
  match p.nodeWithKind node with
  | .error err => some (.error err)
  | .ok (n, k) => match k.dataInput port with
    | none => some (.error (.cause (.kindHasNoDataInput k.id port)))
    | some i => match p.graph.incoming? node port with
      | some x => output x.source x.sourcePort
      | none => match n.literals.get? port, i.default with
        | some v, _ => some (Fault.lift (coerce v i.valueType))
        | none, some v => some (Fault.lift (coerce v i.valueType))
        | none, none =>
          if p.config.missingLiteralPolicy.same (.str "none") then some (.ok .null)
          else some (.error (.cause (.missingLiteral port node)))

/-- An error that ended a behaviour, as those see it that wait for its node. The error for a fault shows its text; where
there is none, they see the fault of writing it. -/
def raisedBy (node : String) (k : Kind Behavior) : Raised → Raised
  | .failure f => .failure f
  | .fault f => .cause (.behaviorFailed node k.id f)
  | .mute _ => .fault .value

/-- The outputs of a node that runs once, where `pull` gives its data inputs. -/
def run (w : World) (pull : String → Option (Except Raised Value)) (node : String) (k : Kind Behavior) :
    Option (Except Raised Dict) :=
  match k.behavior with
  | none => some (.error (raisedBy node k (.fault .type)))
  | some b => ((b .null).outcome b w.values pull).map fun r => match r with
    | .ok v => .ok (Engine.mergedOutputs k [] v)
    | .error err => .error (raisedBy node k err)

/-- One of the outputs that a node has after a run. -/
def pick (node port : String) : Except Raised Dict → Except Raised Value
  | .error err => .error err
  | .ok os => match os.get? (.str port) with
    | some v => .ok v
    | none => .error (.cause (.notProduced node port))

/-- The value of an output, where `compute` gives the outputs of a node of a data-only kind. -/
def output (p : Program) (w : World) (compute : Kind Behavior → Option (Except Raised Dict))
    (node port : String) : Option (Except Raised Value) :=
  match p.nodeWithKind node with
  | .error err => some (.error err)
  | .ok (_, k) =>
    if (k.outputPort port).isNone then some (.error (.cause (.nodeHasNoOutput node k.id port)))
    else if !k.dataOnly then match w.published node port with
      | some v => some (.ok v)
      | none => some (.error (.cause (.notProducedYet port node)))
    else (compute k).map (pick node port)

/-- The error of an evaluation that is nested too deep. -/
def tooDeep (p : Program) (node port : String) : Raised :=
  match p.config.maxPullDepth.toText with
  | .ok bound => .cause (.tooDeep bound node port)
  | .error f => .fault f

/-- The value of an output by plain evaluation: without a cache, every data-only node running anew. The
path holds the outputs being evaluated, and at most `depth` more may be nested in them. -/
def plainOutput (p : Program) (w : World) :
    Nat → List (String × String) → String → String → Option (Except Raised Value)
  | 0, path, node, port => p.output w (fun _ =>
      if path.any fun x => x.1 == node then some (.error (.cause (.cyclic (path ++ [(node, port)]))))
      else some (.error (p.tooDeep node port))) node port
  | depth + 1, path, node, port => p.output w (fun k =>
      if path.any fun x => x.1 == node then some (.error (.cause (.cyclic (path ++ [(node, port)]))))
      else run w (p.input (plainOutput p w depth (path ++ [(node, port)])) node) node k) node port

/-- The value of a data input by plain evaluation. -/
def plainInput (p : Program) (w : World) (depth : Nat) (path : List (String × String))
    (node port : String) : Option (Except Raised Value) :=
  p.input (p.plainOutput w depth path) node port

/-- The outputs of a data-only node, with at most `n` runs nested in each other. -/
def free (p : Program) (w : World) : Nat → String → Kind Behavior → Option (Except Raised Dict)
  | 0, _, _ => none
  | n + 1, node, k => run w (p.input (fun m port => p.output w (free p w n m) m port) node) node k

/-- The value of an output, with at most `n` runs nested in each other. -/
def freeOutput (p : Program) (w : World) (n : Nat) (node port : String) : Option (Except Raised Value) :=
  p.output w (p.free w n node) node port

/-! ## Looking up -/

theorem mem_kinds {p : Program} {node : String} {n : Node} {k : Kind Behavior}
    (h : p.nodeWithKind node = .ok (n, k)) : k ∈ p.registry.kinds := by
  simp only [nodeWithKind, bind, Except.bind, pure, Except.pure] at h
  cases hn : p.graph.requireNode node with
  | error err => simp [hn] at h
  | ok m =>
    simp only [hn, Registry.lookup, Registry.find?] at h
    split at h
    · simp at h
    · next hk =>
      split at hk
      · next hf =>
        simp only [Except.ok.injEq, Prod.mk.injEq] at h hk
        rw [← h.2, ← hk]
        exact List.mem_of_find?_eq_some hf
      · simp at hk

theorem hasNode_of_nodeWithKind {p : Program} {node : String} {n : Node} {k : Kind Behavior}
    (h : p.nodeWithKind node = .ok (n, k)) : ∃ m ∈ p.graph.nodes, m.id = node := by
  simp only [nodeWithKind, bind, Except.bind, Graph.requireNode, Graph.node?] at h
  split at h
  · simp at h
  · next hn =>
    split at hn
    · next hf => exact ⟨_, List.mem_of_find?_eq_some hf, by simpa using List.find?_some hf⟩
    · simp at hn

/-- The value of an output of a node that only carries data. -/
theorem output_of_dataOnly {p : Program} {w : World} {node port : String} {n : Node} {k : Kind Behavior}
    (h : p.nodeWithKind node = .ok (n, k)) (hp : (k.outputPort port).isNone = false)
    (hd : k.dataOnly = true) (f : Kind Behavior → Option (Except Raised Dict)) :
    p.output w f node port = (f k).map (pick node port) := by
  simp [output, h, hp, hd]

theorem pick_eq_ok {node port : String} {r : Except Raised Dict} {v : Value}
    (h : pick node port r = .ok v) : ∃ os, r = .ok os := by
  cases r with
  | error err => simp [pick] at h
  | ok os => exact ⟨os, rfl⟩

/-- A value of an output: it does not depend on how data-only nodes are computed, or the outputs of its
node were computed. -/
theorem output_eq_ok {p : Program} {w : World} {f : Kind Behavior → Option (Except Raised Dict)}
    {node port : String} {v : Value} (h : p.output w f node port = some (.ok v)) :
    (∀ g, p.output w g node port = some (.ok v)) ∨
      ∃ n k os, p.nodeWithKind node = .ok (n, k) ∧ k.dataOnly = true ∧
        (k.outputPort port).isNone = false ∧ f k = some (.ok os) ∧ pick node port (.ok os) = .ok v := by
  cases hn : p.nodeWithKind node with
  | error err => simp [output, hn] at h
  | ok nk =>
    obtain ⟨n, k⟩ := nk
    cases hp : (k.outputPort port).isNone with
    | true => simp [output, hn, hp] at h
    | false =>
      cases hd : k.dataOnly with
      | false => exact .inl fun g => by simpa [output, hn, hp, hd] using h
      | true =>
        rw [output_of_dataOnly hn hp hd, Option.map_eq_some_iff] at h
        obtain ⟨r, hf, hv⟩ := h
        obtain ⟨os, rfl⟩ := pick_eq_ok hv
        exact .inr ⟨n, k, os, rfl, hd, hp, hf, hv⟩

end Program

/-! ## Success carries over

Evaluations are compared by what they succeed with: every value that the one yields, the other yields.
Errors are handed on, so a behaviour that succeeds has met none. -/

theorem Script.Reads.outcome_ok {b : Behavior} {s : Script} (h : s.Reads b) {values : Named}
    {f g : String → Option (Except Raised Value)} {v : Value}
    (hfg : ∀ port u, f port = some (.ok u) → g port = some (.ok u))
    (ho : s.outcome b values f = some (.ok v)) : s.outcome b values g = some (.ok v) := by
  induction h with
  | finish u => rw [outcome] at ho ⊢; exact ho
  | fail err => rw [outcome] at ho; simp at ho
  | again state _ ih => rw [outcome] at ho ⊢; exact ih ho
  | readVariable name k _ ih => rw [outcome] at ho ⊢; exact ih _ ho
  | readVariables k _ ih => rw [outcome] at ho ⊢; exact ih _ ho
  | log _ _ k _ ih => rw [outcome] at ho ⊢; exact ih ho
  | checkpoint k _ _ ih => rw [outcome] at ho ⊢; exact ih ho
  | pull port k _ handsOn ih =>
    rw [outcome, Option.bind_eq_bind, Option.bind_eq_some_iff] at ho
    obtain ⟨r, hr, ho⟩ := ho
    cases r with
    | error err => rw [outcome_handsOn b values f handsOn] at ho; simp at ho
    | ok u =>
      rw [outcome, hfg port u hr]
      exact ih u ho

namespace Program

theorem input_ok {p : Program} {f g : String → String → Option (Except Raised Value)} {node port : String}
    {v : Value} (hfg : ∀ m q u, f m q = some (.ok u) → g m q = some (.ok u))
    (h : p.input f node port = some (.ok v)) : p.input g node port = some (.ok v) := by
  simp only [input] at h ⊢
  split at h
  · simp at h
  · split at h
    · simp at h
    · split at h
      · exact hfg _ _ _ h
      · exact h

theorem run_ok {p : Program} (hr : p.Reading) {w : World} {k : Kind Behavior} (hk : k ∈ p.registry.kinds)
    (hd : k.dataOnly = true) {f g : String → Option (Except Raised Value)} {node : String} {os : Dict}
    (hfg : ∀ port u, f port = some (.ok u) → g port = some (.ok u))
    (h : run w f node k = some (.ok os)) : run w g node k = some (.ok os) := by
  cases hb : k.behavior with
  | none => simp [run, hb] at h
  | some b =>
    simp only [run, hb, Option.map_eq_some_iff] at h ⊢
    obtain ⟨r, ho, hv⟩ := h
    cases r with
    | error err => simp at hv
    | ok v => exact ⟨.ok v, (hr k hk hd b hb).outcome_ok hfg ho, hv⟩

/-! ## Free evaluation -/

section Free

variable {p : Program} (hr : p.Reading) {w : World}

include hr

theorem free_succ : ∀ (n : Nat) {node : String} {m : Node} {k : Kind Behavior} {os : Dict},
    p.nodeWithKind node = .ok (m, k) → k.dataOnly = true → p.free w n node k = some (.ok os) →
      p.free w (n + 1) node k = some (.ok os) := by
  intro n
  induction n with
  | zero => intro node m k os _ _ h; simp [free] at h
  | succ n ih =>
    intro node m k os hn hd h
    rw [free] at h ⊢
    refine run_ok hr (mem_kinds hn) hd (fun port u hu => input_ok (fun a q u hu => ?_) hu) h
    rcases output_eq_ok hu with hu | ⟨m', k', os', hn', hd', hp', hf, hv⟩
    · exact hu _
    · rw [output_of_dataOnly hn' hp' hd', ih hn' hd' hf, Option.map_some, hv]

theorem free_mono {n n' : Nat} (hle : n ≤ n') {node : String} {m : Node} {k : Kind Behavior} {os : Dict}
    (hn : p.nodeWithKind node = .ok (m, k)) (hd : k.dataOnly = true)
    (h : p.free w n node k = some (.ok os)) : p.free w n' node k = some (.ok os) := by
  induction hle with
  | refl => exact h
  | step _ ih => exact free_succ hr _ hn hd ih

theorem freeOutput_mono {n n' : Nat} (hle : n ≤ n') {node port : String} {v : Value}
    (h : p.freeOutput w n node port = some (.ok v)) : p.freeOutput w n' node port = some (.ok v) := by
  rcases output_eq_ok h with h | ⟨m, k, os, hn, hd, hp, hf, hv⟩
  · exact h _
  · rw [freeOutput, output_of_dataOnly hn hp hd, free_mono hr hle hn hd hf, Option.map_some, hv]

theorem input_mono {n n' : Nat} (hle : n ≤ n') {node port : String} {v : Value}
    (h : p.input (p.freeOutput w n) node port = some (.ok v)) :
    p.input (p.freeOutput w n') node port = some (.ok v) :=
  input_ok (fun _ _ _ => freeOutput_mono hr hle) h

/-- Free evaluation yields one value, whatever its depth. -/
theorem input_unique {n n' : Nat} {node port : String} {v v' : Value}
    (h : p.input (p.freeOutput w n) node port = some (.ok v))
    (h' : p.input (p.freeOutput w n') node port = some (.ok v')) : v = v' := by
  have h₁ := input_mono hr (le_max_left n n') h
  have h₂ := input_mono hr (le_max_right n n') h'
  simpa [h₁] using h₂

end Free

/-! ## Plain evaluation -/

/-- Whether a data-only node can be run, with at most `n` runs nested in each other. -/
def Finite (p : Program) (w : World) (n : Nat) (node : String) : Prop :=
  ∃ m k os, p.nodeWithKind node = .ok (m, k) ∧ k.dataOnly = true ∧ p.free w n node k = some (.ok os)

/-- Whether the nodes of a path wait for something that `f` yields at a depth: one that can be run takes
a depth more. -/
def Awaited (p : Program) (w : World) (path : List (String × String))
    (f : Nat → Option (Except Raised Value)) : Prop :=
  ∀ x ∈ path, ∀ n, p.Finite w (n + 1) x.1 → ∃ u, f n = some (.ok u)

/-- How many nodes of the graph are not on a path. -/
def unvisited (p : Program) (path : List (String × String)) : Nat :=
  p.graph.nodes.countP fun n => !path.any fun x => x.1 == n.id

theorem unvisited_append_lt {p : Program} {path : List (String × String)} {node : String} (port : String)
    (hn : ∃ m ∈ p.graph.nodes, m.id = node) (hp : (path.any fun x => x.1 == node) = false) :
    p.unvisited (path ++ [(node, port)]) < p.unvisited path := by
  obtain ⟨m, hm, rfl⟩ := hn
  obtain ⟨before, rest, hnodes⟩ := List.append_of_mem hm
  have hle : ∀ l : List Node,
      l.countP (fun n => !(path ++ [(m.id, port)]).any fun x => x.1 == n.id) ≤
        l.countP fun n => !path.any fun x => x.1 == n.id := by
    intro l
    refine List.countP_mono_left fun n _ h => ?_
    rw [List.any_append, Bool.not_or, Bool.and_eq_true] at h
    exact h.1
  have h₁ := hle before
  have h₂ := hle rest
  simp only [unvisited, hnodes, List.countP_append, List.countP_cons, hp]
  simp only [List.any_append, List.any_cons, beq_self_eq_true, Bool.true_or, Bool.or_true] at h₁ h₂ ⊢
  simp only [Bool.not_true, Bool.not_false, Bool.false_eq_true, if_true, if_false]
  omega

/-- The nodes of a path without repetition are all visited. -/
theorem unvisited_add_length_le {p : Program} {path : List (String × String)}
    (hnodup : (path.map Prod.fst).Nodup) (hin : ∀ x ∈ path, ∃ m ∈ p.graph.nodes, m.id = x.1) :
    p.unvisited path + path.length ≤ p.graph.nodes.length := by
  have hsub : path.map Prod.fst ⊆
      (p.graph.nodes.filter fun n => path.any fun x => x.1 == n.id).map Node.id := by
    intro id hid
    obtain ⟨x, hx, rfl⟩ := List.mem_map.mp hid
    obtain ⟨m, hm, hmx⟩ := hin x hx
    exact List.mem_map.mpr ⟨m, List.mem_filter.mpr ⟨hm, List.any_eq_true.mpr ⟨x, hx, by simp [hmx]⟩⟩, hmx⟩
  have hle := (List.subperm_of_subset hnodup hsub).length_le
  rw [List.length_map, List.length_map, ← List.countP_eq_length_filter] at hle
  have hsum := List.length_eq_countP_add_countP (fun n : Node => path.any fun x => x.1 == n.id)
    (l := p.graph.nodes)
  have hrest : p.unvisited path =
      p.graph.nodes.countP fun n => decide ¬(path.any fun x => x.1 == n.id) = true := by
    simp only [unvisited, Bool.not_eq_true, Bool.decide_eq_false]
  omega

/-- A value that does not depend on how data-only nodes are computed is a value by plain evaluation. -/
theorem plainOutput_of_forall {p : Program} {w : World} {node port : String} {v : Value}
    (h : ∀ f, p.output w f node port = some (.ok v)) (d : Nat) (path : List (String × String)) :
    p.plainOutput w d path node port = some (.ok v) := by
  cases d with
  | zero => rw [plainOutput]; exact h _
  | succ d => rw [plainOutput]; exact h _

/-- An output of a node on the path. -/
theorem plainOutput_cyclic {p : Program} (w : World) (d : Nat) {path : List (String × String)}
    {node port : String} {m : Node} {k : Kind Behavior} (hn : p.nodeWithKind node = .ok (m, k))
    (hp : (k.outputPort port).isNone = false) (hd : k.dataOnly = true)
    (hpath : (path.any fun x => x.1 == node) = true) :
    p.plainOutput w d path node port = some (.error (.cause (.cyclic (path ++ [(node, port)])))) := by
  cases d with
  | zero => rw [plainOutput, output_of_dataOnly hn hp hd, hpath, if_pos rfl]; rfl
  | succ d => rw [plainOutput, output_of_dataOnly hn hp hd, hpath, if_pos rfl]; rfl

/-- An output of a data-only node off the path. -/
theorem plainOutput_run {p : Program} (w : World) (d : Nat) {path : List (String × String)}
    {node port : String} {m : Node} {k : Kind Behavior} (hn : p.nodeWithKind node = .ok (m, k))
    (hp : (k.outputPort port).isNone = false) (hd : k.dataOnly = true)
    (hpath : (path.any fun x => x.1 == node) = false) :
    p.plainOutput w (d + 1) path node port =
      (run w (p.plainInput w d (path ++ [(node, port)]) node) node k).map (pick node port) := by
  rw [plainOutput, output_of_dataOnly hn hp hd, hpath, if_neg Bool.false_ne_true]
  rfl

/-- A value by free evaluation of a data-only node's output comes from a run of the node. -/
theorem free_of_freeOutput {p : Program} {w : World} {n : Nat} {node port : String} {v : Value} {m : Node}
    {k : Kind Behavior} (hn : p.nodeWithKind node = .ok (m, k)) (hp : (k.outputPort port).isNone = false)
    (hd : k.dataOnly = true) (h : p.freeOutput w n node port = some (.ok v)) :
    ∃ os, p.free w n node k = some (.ok os) := by
  rw [freeOutput, output_of_dataOnly hn hp hd, Option.map_eq_some_iff] at h
  obtain ⟨r, hf, hv⟩ := h
  obtain ⟨os, rfl⟩ := pick_eq_ok hv
  exact ⟨os, hf⟩

/-- What free evaluation yields of a node, plain evaluation yields on every path of nodes that wait for
the output: those that can be run at all can only be run at a greater depth than the output takes. -/
theorem plainOutput_of_free {p : Program} (hr : p.Reading) {w : World} : ∀ (n : Nat) {d : Nat}
    {path : List (String × String)} {node port : String} {m : Node} {k : Kind Behavior} {os : Dict},
    p.nodeWithKind node = .ok (m, k) → (k.outputPort port).isNone = false → k.dataOnly = true →
      p.free w n node k = some (.ok os) → p.Awaited w path (fun l => p.freeOutput w l node port) →
        p.unvisited path ≤ d → p.plainOutput w d path node port = some (pick node port (.ok os)) := by
  intro n
  induction n using Nat.strong_induction_on with
  | _ n ih =>
    intro d path node port m k os hn hp hd hf hpath hle
    -- at the least depth that suffices for the node, its run is not nested in itself
    have hex : ∃ l os, p.free w l node k = some (.ok os) := ⟨n, os, hf⟩
    classical
    obtain ⟨os', hos⟩ := Nat.find_spec hex
    have hmin : ∀ l os, p.free w l node k = some (.ok os) → Nat.find hex ≤ l :=
      fun l os h => Nat.find_min' hex ⟨os, h⟩
    cases hl : Nat.find hex with
    | zero => rw [hl] at hos; simp [free] at hos
    | succ l =>
      rw [hl] at hos hmin
      have hln : l + 1 ≤ n := hmin n os hf
      obtain rfl : os' = os := by
        have := free_mono hr hln hn hd hos
        simpa [hf, eq_comm] using this
      have hfin : ∀ x ∈ path, ∀ j, p.Finite w (j + 1) x.1 → l + 1 ≤ j := by
        intro x hx j hj
        obtain ⟨u, hu⟩ := hpath x hx j hj
        obtain ⟨os, hos⟩ := free_of_freeOutput hn hp hd hu
        exact hmin j os hos
      have hnode : (path.any fun x => x.1 == node) = false := by
        rw [← Bool.not_eq_true, List.any_eq_true]
        rintro ⟨x, hx, hxn⟩
        rw [beq_iff_eq] at hxn
        have := hfin x hx l (hxn ▸ ⟨m, k, os', hn, hd, hos⟩)
        omega
      have hlt := unvisited_append_lt port (hasNode_of_nodeWithKind hn) hnode
      obtain ⟨d, rfl⟩ := Nat.exists_eq_add_one_of_ne_zero (n := d) (by omega)
      have hrun : run w (p.plainInput w d (path ++ [(node, port)]) node) node k = some (.ok os') := by
        rw [free] at hos
        refine run_ok hr (mem_kinds hn) hd (fun port' u hu => input_ok (fun a q u hu => ?_) hu) hos
        rcases output_eq_ok hu with h | ⟨m', k', os'', hn', hd', hp', hf', hv⟩
        · exact plainOutput_of_forall h d _
        · rw [← hv]
          refine ih l (by omega) hn' hp' hd' hf' (fun x hx j hj => ?_) (by omega)
          have hlj : l ≤ j := by
            rcases List.mem_append.mp hx with hx | hx
            · have := hfin x hx j hj; omega
            · rw [List.mem_singleton.mp hx] at hj
              obtain ⟨m'', k'', os₁, hn₁, hd₁, hf₁⟩ := hj
              obtain ⟨-, rfl⟩ := Prod.mk.inj (Except.ok.inj (hn.symm.trans hn₁))
              have := hmin (j + 1) os₁ hf₁
              omega
          exact ⟨u, freeOutput_mono hr hlj hu⟩
      rw [plainOutput_run w d hn hp hd hnode, hrun, Option.map_some]

end Program

end Patchbay
