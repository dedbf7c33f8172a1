import Patchbay.Proofs.Declarations
import Patchbay.Proofs.Propagation
import Patchbay.Proofs.Searches
import Patchbay.Proofs.Writers

/-!
# What a check of a graph finds

When a check finds no issue, everything that is looked up while triggers run is there: every node has a
registered kind, an edge joins nodes and comes from an output that its node has, a data input has an edge or a
literal, and no node pulls from itself through others.

A check tells edges of data from edges of control flow by the output that they come from, as it is declared
now; to pull from a node, an engine asks for the node's shape. The two agree on the nodes that only carry data:
a declaration of such a kind with a control flow port is refused.

Contents:
* `Kind.Shaped`: data-only kinds have no control flow output.
* `Graph.Spans`: edges join nodes that are there.
* `Program.Checked`: what is there in a program without issues.

Results:
* `shaped_edited`, `spans_edited`: edits and registrations keep both.
* `checked_of_issues`: a check that finds no issue.
* `Program.Checked.draws`: what a check takes for a pull from a node that only carries data.
-/

namespace Patchbay

/-! ## Shapes -/

section Shapes

variable {β : Type}

/-- Whether a kind has a control flow output only if it takes part in control flow. -/
def Kind.Shaped (k : Kind β) : Prop := k.dataOnly = true → ∀ p ∈ k.outputs, p.isExec = false

instance (k : Kind β) : Decidable k.Shaped := inferInstanceAs (Decidable (_ → _))

theorem Kind.Shaped.execOutput {k : Kind β} (h : k.Shaped) (hd : k.dataOnly = true) (port : String) :
    k.execOutput port = none := by
  rw [Kind.execOutput, Option.filter_eq_none_iff]
  intro p hp
  rw [h hd p (List.mem_of_find?_eq_some hp)]
  exact Bool.false_ne_true

theorem Declaration.shaped_of_build {d : Declaration β} {k : Kind β} (h : d.build = .ok k) : k.Shaped := by
  intro hdata p hp
  exact (proper_of_build h).expression (by simpa [Kind.dataOnly] using hdata) p (List.mem_append_right _ hp)

theorem Registry.mem_put {k x : Kind β} {ks : List (Kind β)} (h : x ∈ Registry.put k ks) : x = k ∨ x ∈ ks := by
  induction ks with
  | nil => exact .inl (List.mem_singleton.mp h)
  | cons y ys ih =>
    unfold put at h
    split at h
    · exact (List.mem_cons.mp h).imp_right (List.mem_cons_of_mem y)
    · rcases List.mem_cons.mp h with rfl | h
      · exact .inr List.mem_cons_self
      · exact (ih h).imp_right (List.mem_cons_of_mem y)

end Shapes

/-! ## Edges between nodes -/

namespace Graph

variable {β : Type} {r : Registry β} {g g' : Graph}

/-- Whether edges join nodes that are there. -/
def Spans (g : Graph) : Prop := ∀ x ∈ g.edges, g.hasNode x.source = true ∧ g.hasNode x.dest = true

/-- Edges join nodes in a graph that still has every node, and where new edges do. -/
theorem Spans.grows (h : g.Spans) (hg : g.Grows g')
    (he : ∀ x ∈ g'.edges, x ∈ g.edges ∨ g.hasNode x.source = true ∧ g.hasNode x.dest = true) : g'.Spans := by
  intro x hx
  obtain ⟨hsource, hdest⟩ := (he x hx).elim (h x) id
  exact ⟨hg.nodes _ hsource, hg.nodes _ hdest⟩

theorem Spans.removeNode (h : g.Spans) {id : String} {n : Node} (hr : g.removeNode id = .ok (n, g')) :
    g'.Spans := by
  obtain ⟨-, rfl⟩ := removeNode_eq_ok hr
  intro x hx
  obtain ⟨hold, hkeep⟩ := List.mem_filter.mp hx
  have hsource : x.source ≠ id := by
    rintro rfl
    simp [Edge.touches] at hkeep
  have hdest : x.dest ≠ id := by
    rintro rfl
    simp [Edge.touches] at hkeep
  rw [hasNode_eq_isSome, hasNode_eq_isSome, node?_filter_of_ne _ hsource, node?_filter_of_ne _ hdest,
    ← hasNode_eq_isSome, ← hasNode_eq_isSome]
  exact h x hold

/-- Edges join nodes after any edit. -/
theorem Spans.edit (h : g.Spans) (he : g.Edit r g') : g'.Spans := by
  cases he with
  | revise hg => exact h.grows (.revises hg) fun x hx => .inl (hg.edges ▸ hx)
  | addNode _ _ ha =>
    refine h.grows (.addNode ha) fun x hx => .inl ?_
    obtain ⟨-, -, -, -, rfl⟩ := addNode_eq_ok ha
    exact hx
  | removeNode hr => exact h.removeNode hr
  | addEdge ha =>
    refine h.grows (.addEdge ha) fun x hx => ?_
    obtain ⟨k, l, -, q, hk, hl, -, -, -, ⟨-, rfl⟩ | ⟨-, rfl⟩⟩ := addEdge_eq_ok ha
    · exact .inl hx
    · rcases List.mem_append.mp hx with hx | hx
      · exact .inl ((remaining_sublist _ _ q).subset hx)
      · rw [List.mem_singleton.mp hx]
        exact .inr ⟨hasNode_of_kindOf hk, hasNode_of_kindOf hl⟩
  | removeEdge x => exact fun y hy => h y (List.mem_of_mem_erase hy)
  | setLiteral hs =>
    obtain ⟨-, -, -, -, -, rfl⟩ := setLiteral_eq_ok hs
    exact h.grows (.modifyNode _ _ fun _ => ⟨rfl, rfl⟩) fun x hx => .inl hx

end Graph

namespace Engine

variable {e : Engine} {c : Command}

theorem spans_command (h : e.graph.Spans) (hc : c.editsGraph = true ∨ c.redefines = true) :
    (e.command c).2.graph.Spans := by
  rcases hc with hc | hc
  · obtain ⟨-, g, hg, hedit⟩ := command_edit e hc
    exact (h.edit (r := e.registry) (.revise hg)).edit hedit
  · rw [command_redefines e hc]
    exact h

theorem shaped_register (h : ∀ k ∈ e.registry.kinds, k.Shaped) {d : Declaration Behavior} {new : Kind Behavior}
    (hbuild : d.build = .ok new) : ∀ k ∈ (e.registry.register new).kinds, k.Shaped := by
  intro k hk
  rcases Registry.mem_put hk with rfl | hk
  · exact Declaration.shaped_of_build hbuild
  · exact h k hk

theorem shaped_command (h : ∀ k ∈ e.registry.kinds, k.Shaped) (hc : c.editsGraph = true ∨ c.redefines = true) :
    ∀ k ∈ (e.command c).2.registry.kinds, k.Shaped := by
  rcases hc with hc | hc
  · rw [(command_edit e hc).1]
    exact h
  · have hcases := e.command_cases c
    generalize (e.command c).2 = e' at hcases ⊢
    cases hcases with
    | unchanged => exact h
    | register hbuild | registerExpression _ hbuild => exact shaped_register h hbuild
    | _ => cases hc

theorem spans_edited (h : e.graph.Spans) {cs : List Command}
    (hcs : ∀ c ∈ cs, c.editsGraph = true ∨ c.redefines = true) : (e.edited cs).graph.Spans := by
  induction cs generalizing e with
  | nil => exact h
  | cons c rest ih =>
    obtain ⟨hc, hrest⟩ := List.forall_mem_cons.mp hcs
    exact ih (spans_command h hc) hrest

theorem shaped_edited (h : ∀ k ∈ e.registry.kinds, k.Shaped) {cs : List Command}
    (hcs : ∀ c ∈ cs, c.editsGraph = true ∨ c.redefines = true) :
    ∀ k ∈ (e.edited cs).registry.kinds, k.Shaped := by
  induction cs generalizing e with
  | nil => exact h
  | cons c rest ih =>
    obtain ⟨hc, hrest⟩ := List.forall_mem_cons.mp hcs
    exact ih (shaped_command h hc) hrest

end Engine

/-! ## Checks -/

namespace Graph

variable {β : Type} {r : Registry β} {g : Graph} {startKind : String}

/-- A node is found together with its kind. -/
theorem withKind_eq_ok_iff {id : String} {n : Node} {k : Kind β} :
    (do let n ← g.requireNode id; let k ← r.lookup n.kind; return (n, k) : Except Raised (Node × Kind β)) =
      .ok (n, k) ↔ g.node? id = some n ∧ r.find? n.kind = some k := by
  simp only [requireNode, Registry.lookup, bind, Except.bind, pure, Except.pure]
  cases g.node? id with
  | none => simp
  | some m =>
    simp only [Option.some.injEq]
    constructor
    · intro h
      cases hk : r.find? m.kind with
      | none => simp [hk] at h
      | some l =>
        simp only [hk, Except.ok.injEq, Prod.mk.injEq] at h
        obtain ⟨rfl, rfl⟩ := h
        exact ⟨rfl, hk⟩
    · rintro ⟨rfl, hk⟩
      simp only [hk]

/-- What a graph without issues has been checked for. -/
theorem issues_eq_nil (h : g.issues r startKind = []) : g.danglingEdges r = [] ∧ g.unknownKinds r = [] ∧
    g.dataCycle? r = none ∧ g.unboundInputs r = [] := by
  simp only [issues, List.append_eq_nil_iff] at h
  obtain ⟨⟨⟨⟨hdangling, hunknown⟩, -⟩, hcycle⟩, hunbound⟩ := h
  refine ⟨hdangling, hunknown, ?_, hunbound⟩
  unfold cyclicData at hcycle
  split at hcycle
  · cases hcycle
  · assumption

theorem contains_of_unknownKinds (h : g.unknownKinds r = []) {n : Node} (hn : n ∈ g.nodes) :
    r.contains n.kind = true := by
  by_contra hnone
  have hissue := List.filterMap_eq_nil_iff.mp h n hn
  simp [hnone] at hissue

/-- The output that an edge comes from is declared. -/
theorem outputPort_of_danglingEdges (h : g.danglingEdges r = []) {x : Edge} (hx : x ∈ g.edges) {k : Kind β}
    (hk : g.kindOf r x.source = .ok k) : (k.outputPort x.sourcePort).isSome = true := by
  obtain ⟨n, hn, hfind⟩ := kindOf_eq_ok_iff.mp hk
  have hends := List.flatMap_eq_nil_iff.mp h x hx
  have hend := (List.append_eq_nil_iff.mp hends).1
  by_contra hnone
  simp [danglingEnd?, hn, hfind, hnone] at hend

theorem bound_of_unboundInputs (h : g.unboundInputs r = []) {n : Node} (hn : n ∈ g.nodes) {k : Kind β}
    (hk : r.find? n.kind = some k) {p : Port} (hp : p ∈ k.dataInputs) :
    (g.incoming? n.id p.id).isSome = true ∨ n.literals.has p.id = true := by
  have hinputs := List.flatMap_eq_nil_iff.mp h n hn
  simp only [hk] at hinputs
  have hissue := List.filterMap_eq_nil_iff.mp hinputs p hp
  by_contra hnone
  rw [← Bool.or_eq_true] at hnone
  simp [hnone] at hissue

end Graph

/-- Whether nodes of a program have a kind. -/
def Program.Uses (p : Program) (k : Kind Behavior) : Prop := ∃ id n, p.nodeWithKind id = .ok (n, k)

theorem Program.Uses.registered {p : Program} {k : Kind Behavior} (h : p.Uses k) : k ∈ p.registry.kinds := by
  obtain ⟨id, n, hk⟩ := h
  exact mem_kinds hk

/-- What is looked up in a program without issues: every node has a kind, an edge comes from an output of its
node, a data input has an edge or a literal, and no node pulls from itself through others. -/
structure Program.Checked (p : Program) : Prop where
  anchored : p.Anchored
  sources : ∀ x ∈ p.graph.edges, ∃ n k, p.nodeWithKind x.source = .ok (n, k) ∧
    (k.outputPort x.sourcePort).isSome = true
  bound : ∀ id n k, p.nodeWithKind id = .ok (n, k) → ∀ q ∈ k.dataInputs,
    (p.graph.incoming? id q.id).isSome = true ∨ n.literals.has q.id = true
  acyclic : ∀ u, ¬Relation.TransGen (Draws (p.graph.pulls p.registry)) u u

namespace Engine

variable {e : Engine}

theorem pulls_program (e : Engine) :
    e.program.graph.pulls e.program.registry = e.graph.pulls e.registry := by
  have hdata : ∀ x, e.program.graph.isDataEdge e.program.registry x = e.graph.isDataEdge e.registry x := by
    intro x
    have hnode : e.program.graph.node? x.source = (e.graph.node? x.source).map Node.bare :=
      Graph.node?_map fun _ => rfl
    simp only [Graph.isDataEdge, Graph.isExecEdge, hnode]
    cases e.graph.node? x.source with
    | none => rfl
    | some n => rfl
  funext u
  simp only [Graph.pulls, hdata]
  rfl

theorem hasNode_program (e : Engine) (id : String) : e.program.graph.hasNode id = e.graph.hasNode id := by
  rw [Graph.hasNode_eq_isSome, Graph.hasNode_eq_isSome, show e.program.graph.node? id = _ from
    Graph.node?_map fun _ => rfl, Option.isSome_map]

/-- A check of the graph that finds no issue. -/
theorem checked_of_issues (hspans : e.graph.Spans) {startKind : String}
    (h : e.graph.issues e.registry startKind = []) : e.program.Checked := by
  obtain ⟨hdangling, hunknown, hcycle, hunbound⟩ := Graph.issues_eq_nil h
  have hkinds : ∀ n ∈ e.program.graph.nodes, e.program.registry.contains n.kind = true := by
    intro n hn
    obtain ⟨m, hm, rfl⟩ := List.mem_map.mp hn
    exact Graph.contains_of_unknownKinds (n := m) hunknown hm
  have hanchored : e.program.Anchored :=
    ⟨hkinds, fun x hx => (e.hasNode_program x.dest).trans (hspans x hx).2⟩
  refine ⟨hanchored, fun x hx => ?_, fun id n k hn q hq => ?_, fun u => ?_⟩
  · obtain ⟨⟨n, k⟩, hn⟩ := hanchored.nodeWithKind ((e.hasNode_program x.source).trans (hspans x hx).1)
    obtain ⟨err, -, herr⟩ | ⟨m, l, hm, hbare⟩ := e.nodeWithKind_cases rfl x.source
    · rw [herr] at hn
      cases hn
    · refine ⟨_, l, hbare, Graph.outputPort_of_danglingEdges hdangling hx ?_⟩
      exact Graph.kindOf_eq_ok_iff.mpr ⟨m, Graph.withKind_eq_ok_iff.mp hm⟩
  · obtain ⟨err, -, herr⟩ | ⟨m, l, hm, hbare⟩ := e.nodeWithKind_cases rfl id
    · rw [herr] at hn
      cases hn
    · obtain ⟨rfl, rfl⟩ := Prod.mk.inj (Except.ok.inj (hn.symm.trans hbare))
      obtain ⟨hfound, hkind⟩ := Graph.withKind_eq_ok_iff.mp hm
      have hbound := Graph.bound_of_unboundInputs hunbound (List.mem_of_find?_eq_some hfound) hkind hq
      rw [id_of_nodeWithKind hm] at hbound
      exact hbound
  · rw [pulls_program]
    refine Graph.acyclic_of_dataCycle? (fun x hx => ?_) hcycle u
    have hsource := (hspans x hx).1
    rw [Graph.hasNode_eq_isSome] at hsource
    obtain ⟨n, hn⟩ := Option.isSome_iff_exists.mp hsource
    have hid : n.id = x.source := by simpa using List.find?_some hn
    rw [← hid]
    exact Graph.mem_ids (List.mem_of_find?_eq_some hn)

end Engine

namespace Program.Checked

variable {p : Program}

/-- What a check takes for a pull from a node that only carries data: an edge that ends at an input of another
one, whatever its output carries. -/
theorem draws {x : Edge} (hx : x ∈ p.graph.edges) {n : Node} {k : Kind Behavior}
    (hk : p.nodeWithKind x.source = .ok (n, k)) (hs : k.Shaped) (hd : k.dataOnly = true) :
    Draws (p.graph.pulls p.registry) x.dest x.source := by
  refine ⟨x.destPort, List.mem_map.mpr ⟨x, List.mem_filter.mpr ⟨hx, ?_⟩, rfl⟩⟩
  obtain ⟨hn, hfind⟩ := Graph.withKind_eq_ok_iff.mp hk
  simp only [Graph.isDataEdge, Graph.isExecEdge, hn, hfind, hs.execOutput hd, Option.isSome_none, beq_self_eq_true,
    Bool.not_false, Bool.and_self]

end Program.Checked

end Patchbay
