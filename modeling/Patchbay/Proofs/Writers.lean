import Patchbay.Proofs.Effects

/-!
# Writers of an input

A new edge into a data input evicts the first edge that ends there. As long as kinds stay as they are
that is the only one. A control flow input may have many edges, though, and a kind may be registered
again with the same port as a data input: then more than one edge ends at a data input, an eviction
takes one of them away, and what is pulled comes from whichever edge is the first.

Contents:
* `Graph.Edit`: what an edit may do to a graph.
* `Graph.writers`: the edges that end at an input; `Graph.Crowded`: a data input with several.
* `Command.redefines`: the commands that register kinds.

Results:
* `Graph.writers_addEdge`: the writers of a data input after an edge was added there.
* `Engine.crowded_of_edit`: an edit does not crowd an input.
* `sole_writer_iff`: when a new edge is the only writer of its input, when it is the one that is read,
  and where other writers come from.
-/

namespace Patchbay

variable {β : Type}

namespace Graph

/-! ## Edits -/

/-- What an edit may do to a graph, by the kinds of a registry. -/
inductive Edit (r : Registry β) (g : Graph) : Graph → Prop
  /-- nodes hold other results or other state -/
  | revise {g' : Graph} (h : g.Revises g') : Edit r g g'
  | addNode {kind : String} {k : Kind β} {overrides : Named} {id : String} {n : Node} {g' : Graph}
      (hk : r.find? kind = some k) (hid : id ≠ "") (h : g.addNode k overrides id = .ok (n, g')) : Edit r g g'
  | removeNode {id : String} {n : Node} {g' : Graph} (h : g.removeNode id = .ok (n, g')) : Edit r g g'
  | addEdge {x : Edge} {old : Option Edge} {g' : Graph} (h : g.addEdge r x = .ok (old, g')) : Edit r g g'
  | removeEdge (x : Edge) : Edit r g (g.removeEdge x)
  | setLiteral {id port : String} {v : Value} {g' : Graph} (h : g.setLiteral r id port v = .ok g') :
      Edit r g g'

variable {r : Registry β} {g g' : Graph}

theorem Revises.kindOf (h : g.Revises g') (id : String) : g'.kindOf r id = g.kindOf r id := by
  obtain ⟨f, hf, rfl⟩ := h
  exact kindOf_map (fun n => (hf n).2.1) (fun n => (hf n).2.2.1) id

theorem Revises.edges (h : g.Revises g') : g'.edges = g.edges := by
  obtain ⟨f, -, rfl⟩ := h
  rfl

theorem kindOf_setLiteral {id port : String} {v : Value} (h : g.setLiteral r id port v = .ok g')
    (other : String) : g'.kindOf r other = g.kindOf r other := by
  obtain ⟨-, -, -, -, -, rfl⟩ := setLiteral_eq_ok h
  refine kindOf_map (fun n => ?_) (fun n => ?_) other
  · split <;> rfl
  · split <;> rfl

theorem edges_setLiteral {id port : String} {v : Value} (h : g.setLiteral r id port v = .ok g') :
    g'.edges = g.edges := by
  obtain ⟨-, -, -, -, -, rfl⟩ := setLiteral_eq_ok h
  rfl

theorem kindOf_addEdge {x : Edge} {old : Option Edge} (h : g.addEdge r x = .ok (old, g')) (id : String) :
    g'.kindOf r id = g.kindOf r id := by
  obtain ⟨-, -, -, -, -, -, -, -, -, ⟨-, rfl⟩ | ⟨-, rfl⟩⟩ := addEdge_eq_ok h
  · rfl
  · rfl

/-! ## Writers -/

/-- The edges that end at an input. -/
def writers (g : Graph) (node port : String) : List Edge := g.edges.filter fun x => x.endsAt node port

/-- Whether a node has a data input with more than one writer. -/
def Crowded (r : Registry β) (g : Graph) (node port : String) : Prop :=
  g.IsDataInput r node port ∧ 1 < (g.writers node port).length

instance (r : Registry β) (g : Graph) (node port : String) : Decidable (g.IsDataInput r node port) :=
  match h : g.kindOf r node with
  | .ok k => decidable_of_iff ((k.dataInput port).isSome = true) (by simp [IsDataInput, h])
  | .error _ => .isFalse (by simp [IsDataInput, h])

instance (r : Registry β) (g : Graph) (node port : String) : Decidable (g.Crowded r node port) :=
  inferInstanceAs (Decidable (_ ∧ _))

/-- Whether edges lead to nodes that are there. -/
def Landed (g : Graph) : Prop := ∀ x ∈ g.edges, g.hasNode x.dest = true

theorem writers_congr (h : g'.edges = g.edges) (node port : String) :
    g'.writers node port = g.writers node port := by
  rw [writers, h, writers]

theorem endsAt_self (x : Edge) : x.endsAt x.dest x.destPort = true := by
  simp [Edge.endsAt]

theorem incoming?_eq_head? (g : Graph) (node port : String) :
    g.incoming? node port = (g.writers node port).head? := by
  rw [incoming?, writers, List.head?_filter]

/-- To take away the first writer leaves the others. -/
theorem filter_erase_head {p : Edge → Bool} {l : List Edge} {old : Edge} (h : l.find? p = some old) :
    (l.erase old).filter p = (l.filter p).tail := by
  induction l with
  | nil => cases h
  | cons a rest ih =>
    by_cases ha : p a = true
    · rw [List.find?_cons_of_pos ha] at h
      obtain rfl := Option.some.inj h
      rw [List.erase_cons_head, List.filter_cons_of_pos ha, List.tail_cons]
    · rw [List.find?_cons_of_neg ha] at h
      have hne : a ≠ old := by
        rintro rfl
        exact ha (List.find?_some h)
      rw [List.erase_cons_tail (by simpa using hne), List.filter_cons_of_neg ha, List.filter_cons_of_neg ha,
        ih h]

/-- The writers of a data input after an edge was added there: those from before if it was among them,
else those from before but the first, and the new one. -/
theorem writers_addEdge {x : Edge} {old : Option Edge} (h : g.addEdge r x = .ok (old, g'))
    (hdata : g.IsDataInput r x.dest x.destPort) :
    g'.writers x.dest x.destPort = if x ∈ g.edges then g.writers x.dest x.destPort
      else (g.writers x.dest x.destPort).tail ++ [x] := by
  obtain ⟨k, l, p, q, -, hl, -, hq, -, ⟨hold, rfl⟩ | ⟨hnew, rfl⟩⟩ := addEdge_eq_ok h
  · rw [if_pos hold]
  · have hexec : q.isExec = false := hdata.isExec hl hq
    have hleft : (g.remaining x q).filter (fun y => y.endsAt x.dest x.destPort) =
        (g.writers x.dest x.destPort).tail := by
      unfold remaining
      rw [if_neg (by rw [hexec]; exact Bool.false_ne_true)]
      cases hin : g.incoming? x.dest x.destPort with
      | some first => exact filter_erase_head hin
      | none =>
        rw [incoming?_eq_head?, List.head?_eq_none_iff] at hin
        rw [hin, List.tail_nil]
        exact hin
    rw [if_neg hnew]
    show (g.remaining x q ++ [x]).filter (fun y => y.endsAt x.dest x.destPort) = _
    rw [List.filter_append, hleft, List.filter_singleton, endsAt_self, cond_true]

/-- An edge that was added at a data input is its only writer unless there were others. -/
theorem writers_addEdge_eq_singleton_iff {x : Edge} {old : Option Edge}
    (h : g.addEdge r x = .ok (old, g')) (hdata : g.IsDataInput r x.dest x.destPort) :
    g'.writers x.dest x.destPort = [x] ↔ (g.writers x.dest x.destPort).length ≤ 1 := by
  rw [writers_addEdge h hdata]
  split
  · next hold =>
    have hmem : x ∈ g.writers x.dest x.destPort := List.mem_filter.mpr ⟨hold, endsAt_self x⟩
    constructor
    · intro hone
      rw [hone, List.length_singleton]
    · intro hlen
      obtain ⟨y, hy⟩ := List.length_eq_one_iff.mp (Nat.le_antisymm hlen (List.length_pos_of_mem hmem))
      rw [hy, List.mem_singleton] at hmem
      rw [hy, hmem]
  · rw [List.append_left_eq_self, ← List.length_eq_zero_iff, List.length_tail]
    omega

/-- An edge that was added at a data input is the one that is read, unless there are others: then it
must have been the one that was read before. -/
theorem incoming?_addEdge_eq_some_iff {x : Edge} {old : Option Edge}
    (h : g.addEdge r x = .ok (old, g')) (hdata : g.IsDataInput r x.dest x.destPort) :
    g'.incoming? x.dest x.destPort = some x ↔
      (g.writers x.dest x.destPort).length ≤ 1 ∨ g.incoming? x.dest x.destPort = some x := by
  have honly := writers_addEdge_eq_singleton_iff h hdata
  have hafter := writers_addEdge h hdata
  rw [incoming?_eq_head?, incoming?_eq_head?]
  constructor
  · intro hfirst
    by_cases hold : x ∈ g.edges
    · rw [hafter, if_pos hold] at hfirst
      exact .inr hfirst
    · rw [hafter, if_neg hold] at hfirst
      refine .inl ?_
      cases hrest : (g.writers x.dest x.destPort).tail with
      | nil =>
        have hlen := congrArg List.length hrest
        rw [List.length_tail, List.length_nil] at hlen
        omega
      | cons y ys =>
        -- the second writer from before would be read, and it is an edge that was there
        rw [hrest] at hfirst
        obtain rfl : y = x := Option.some.inj hfirst
        have hy : y ∈ (g.writers y.dest y.destPort).tail := by rw [hrest]; exact List.mem_cons_self
        exact absurd (List.mem_of_mem_filter (List.mem_of_mem_tail hy)) hold
  · rintro (hlen | hfirst)
    · rw [honly.mpr hlen, List.head?_cons]
    · have hold : x ∈ g.edges := List.mem_of_mem_filter (List.mem_of_head? hfirst)
      rw [hafter, if_pos hold]
      exact hfirst

/-! ## Edits do not crowd an input -/

theorem hasNode_of_kindOf {id : String} {k : Kind β} (h : g.kindOf r id = .ok k) : g.hasNode id = true := by
  obtain ⟨n, hn, -⟩ := kindOf_eq_ok_iff.mp h
  rw [hasNode_eq_isSome, hn, Option.isSome_some]

theorem not_hasNode_removeNode {id : String} {n : Node} (h : g.removeNode id = .ok (n, g')) :
    g'.hasNode id = false := by
  obtain ⟨-, rfl⟩ := removeNode_eq_ok h
  simp [hasNode]

theorem kindOf_removeNode {id other : String} {n : Node} (h : g.removeNode id = .ok (n, g'))
    (hne : other ≠ id) : g'.kindOf r other = g.kindOf r other := by
  obtain ⟨-, rfl⟩ := removeNode_eq_ok h
  exact kindOf_congr (congrArg _ (node?_filter_of_ne _ hne))

theorem kindOf_addNode {k : Kind β} {overrides : Named} {id other : String} {n : Node}
    (h : g.addNode k overrides id = .ok (n, g')) (hne : other ≠ id) :
    g'.kindOf r other = g.kindOf r other := by
  obtain ⟨-, literals, -, hn, rfl⟩ := addNode_eq_ok h
  have hid : n.id ≠ other := by
    rw [hn]
    exact hne.symm
  exact kindOf_congr (congrArg _ (node?_append_of_ne hid))

theorem Landed.grows (h : g.Landed) (hg : g.Grows g')
    (he : ∀ x ∈ g'.edges, x ∈ g.edges ∨ g.hasNode x.dest = true) : g'.Landed := by
  intro x hx
  rcases he x hx with hold | hnode
  · exact hg.nodes x.dest (h x hold)
  · exact hg.nodes x.dest hnode

/-- Edges lead to nodes that are there after any edit. -/
theorem Landed.edit (h : g.Landed) (he : g.Edit r g') : g'.Landed := by
  cases he with
  | revise hg => exact h.grows (.revises hg) fun x hx => .inl (hg.edges ▸ hx)
  | addNode _ _ ha =>
    refine h.grows (.addNode ha) fun x hx => .inl ?_
    obtain ⟨-, -, -, -, rfl⟩ := addNode_eq_ok ha
    exact hx
  | @removeNode id n _ hr =>
    obtain ⟨-, hg⟩ := removeNode_eq_ok hr
    intro x hx
    rw [hg] at hx
    obtain ⟨hold, hkeep⟩ := List.mem_filter.mp hx
    have hne : x.dest ≠ id := by
      rintro rfl
      simp [Edge.touches] at hkeep
    have hnode := h x hold
    rw [hasNode_eq_isSome] at hnode ⊢
    rw [hg, node?_filter_of_ne _ hne]
    exact hnode
  | addEdge ha =>
    refine h.grows (.addEdge ha) fun x hx => ?_
    obtain ⟨-, l, -, q, -, hd, -, -, -, ⟨-, rfl⟩ | ⟨-, rfl⟩⟩ := addEdge_eq_ok ha
    · exact .inl hx
    · rcases List.mem_append.mp hx with hx | hx
      · exact .inl ((remaining_sublist _ _ q).subset hx)
      · rw [List.mem_singleton.mp hx]
        exact .inr (hasNode_of_kindOf hd)
  | removeEdge x => exact fun y hy => h y (List.mem_of_mem_erase hy)
  | setLiteral hs =>
    obtain ⟨-, -, -, -, -, rfl⟩ := setLiteral_eq_ok hs
    exact h.grows (.modifyNode _ _ fun _ => ⟨rfl, rfl⟩) fun x hx => .inl hx

/-- An input that is crowded was crowded before, when its node had the same kind then and as many edges
ended there. -/
theorem Crowded.of_le {node port : String} (h : g'.Crowded r node port)
    (hk : g'.kindOf r node = g.kindOf r node)
    (hw : (g'.writers node port).length ≤ (g.writers node port).length) : g.Crowded r node port :=
  ⟨h.1.congr hk, Nat.lt_of_lt_of_le h.2 hw⟩

theorem length_writers_le (h : g'.edges.Sublist g.edges) (node port : String) :
    (g'.writers node port).length ≤ (g.writers node port).length :=
  (h.filter _).length_le

theorem Crowded.of_addEdge {node port : String} {x : Edge} {old : Option Edge}
    (ha : g.addEdge r x = .ok (old, g')) (h : g'.Crowded r node port) : g.Crowded r node port := by
  have hdata : g.IsDataInput r node port := h.1.congr (kindOf_addEdge ha node)
  by_cases hends : x.endsAt node port = true
  · obtain ⟨rfl, rfl⟩ : x.dest = node ∧ x.destPort = port := by simpa [Edge.endsAt] using hends
    refine ⟨hdata, ?_⟩
    have hmany : 1 < (g'.writers x.dest x.destPort).length := h.2
    rw [writers_addEdge ha hdata] at hmany
    split at hmany
    · exact hmany
    · rw [List.length_append, List.length_tail, List.length_singleton] at hmany
      omega
  · refine h.of_le (kindOf_addEdge ha node) ?_
    obtain ⟨-, -, -, q, -, -, -, -, -, ⟨-, rfl⟩ | ⟨-, rfl⟩⟩ := addEdge_eq_ok ha
    · exact Nat.le_refl _
    · show ((g.remaining x q ++ [x]).filter fun y => y.endsAt node port).length ≤ _
      rw [List.filter_append, List.filter_singleton, Bool.eq_false_iff.mpr hends, cond_false,
        List.append_nil]
      exact ((g.remaining_sublist x q).filter _).length_le

/-- Only an input that was crowded before is crowded after an edit. -/
theorem Crowded.of_edit {node port : String} (hl : g.Landed) (he : g.Edit r g')
    (h : g'.Crowded r node port) : g.Crowded r node port := by
  cases he with
  | revise hg => exact h.of_le (hg.kindOf node) (length_writers_le (by rw [hg.edges]) node port)
  | @addNode _ _ _ id n _ _ _ ha =>
    have hedges : g'.edges = g.edges := by
      obtain ⟨-, -, -, -, rfl⟩ := addNode_eq_ok ha
      rfl
    refine h.of_le (kindOf_addNode ha ?_) (length_writers_le (by rw [hedges]) node port)
    -- nothing ends at the new node yet
    rintro rfl
    have hmany : 1 < (g'.writers node port).length := h.2
    obtain ⟨x, hx⟩ := List.exists_mem_of_length_pos (Nat.lt_trans Nat.zero_lt_one hmany)
    obtain ⟨hx, hends⟩ := List.mem_filter.mp hx
    have hnode := hl x (hedges ▸ hx)
    rw [hasNode_eq_isSome, (by simpa [Edge.endsAt] using hends : x.dest = node ∧ _).1,
      (addNode_eq_ok ha).1] at hnode
    cases hnode
  | @removeNode id n _ hr =>
    have hne : node ≠ id := by
      rintro rfl
      obtain ⟨k, hk, -⟩ := h.1
      have hnode := hasNode_of_kindOf hk
      rw [not_hasNode_removeNode hr] at hnode
      cases hnode
    refine h.of_le (kindOf_removeNode hr hne) (length_writers_le ?_ node port)
    obtain ⟨-, rfl⟩ := removeNode_eq_ok hr
    exact List.filter_sublist
  | addEdge ha => exact .of_addEdge ha h
  | removeEdge x => exact h.of_le rfl (length_writers_le List.erase_sublist node port)
  | setLiteral hs =>
    exact h.of_le (kindOf_setLiteral hs node) (length_writers_le (by rw [edges_setLiteral hs]) node port)

end Graph

/-! ## Histories of edits and registrations -/

/-- Whether a command registers a kind. -/
def Command.redefines : Command → Bool
  | .register _ => true
  | .registerExpression _ _ _ => true
  | _ => false

namespace Engine

/-- Whether an engine has a data input with more than one writer. -/
def Crowded (e : Engine) (node port : String) : Prop := e.graph.Crowded e.registry node port

instance (e : Engine) (node port : String) : Decidable (e.Crowded node port) :=
  inferInstanceAs (Decidable (Graph.Crowded ..))

variable {e : Engine} {c : Command}

theorem nodeId_ne_empty (e : Engine) (id : Option String) : (e.nodeId id).1 ≠ "" := by
  unfold nodeId
  split
  · next h =>
    have hfull := (Option.filter_eq_some_iff.mp h).2
    rintro rfl
    simp at hfull
  · simp

/-- What a command that edits the graph does to it. To remove a node may change what it holds first. -/
theorem command_edit (e : Engine) (hc : c.editsGraph = true) :
    (e.command c).2.registry = e.registry ∧
      ∃ g, e.graph.Revises g ∧ g.Edit e.registry (e.command c).2.graph := by
  have hsame : ∃ g, e.graph.Revises g ∧ g.Edit e.registry e.graph :=
    ⟨e.graph, .refl _, .revise (.refl _)⟩
  have hcases := e.command_cases c
  generalize (e.command c).2 = e' at hcases ⊢
  cases hcases with
  | unchanged => exact ⟨rfl, hsame⟩
  | addNode kind literals id =>
    have hid : (e.nodeId id).2.graph = e.graph ∧ (e.nodeId id).2.registry = e.registry := by
      unfold nodeId
      split <;> exact ⟨rfl, rfl⟩
    unfold Engine.addNode Registry.lookup
    cases hk : e.registry.find? kind with
    | none => exact ⟨rfl, hsame⟩
    | some k =>
      dsimp only
      split
      · exact ⟨hid.2, hid.1 ▸ hsame⟩
      · next hadd =>
        rw [hid.1] at hadd
        exact ⟨hid.2, e.graph, .refl _, .addNode hk (nodeId_ne_empty e id) hadd⟩
  | removeNode id =>
    rcases removeNode_cases e id with h | ⟨n, -, h | ⟨-, m, g, hremove, h⟩⟩
    · rw [h]
      exact ⟨rfl, hsame⟩
    · rw [h]
      exact ⟨(disarm_graph e n).2, _, (disarm_graph e n).1, .revise (.refl _)⟩
    · rw [h]
      exact ⟨(disarm_graph e n).2, _, (disarm_graph e n).1, .removeNode hremove⟩
  | addEdge x | connect x =>
    unfold Engine.addEdge
    split
    · exact ⟨rfl, hsame⟩
    · next hadd => exact ⟨rfl, e.graph, .refl _, .addEdge hadd⟩
  | removeEdge x => exact ⟨rfl, e.graph, .refl _, .removeEdge x⟩
  | setLiteral hset => exact ⟨rfl, e.graph, .refl _, .setLiteral hset⟩
  | _ => cases hc

/-- To register a kind leaves the graph alone. -/
theorem command_redefines (e : Engine) (hc : c.redefines = true) : (e.command c).2.graph = e.graph := by
  have hcases := e.command_cases c
  generalize (e.command c).2 = e' at hcases ⊢
  cases hcases with
  | unchanged | register | registerExpression => rfl
  | _ => cases hc

theorem landed_command (h : e.graph.Landed) (hc : c.editsGraph = true ∨ c.redefines = true) :
    (e.command c).2.graph.Landed := by
  rcases hc with hc | hc
  · obtain ⟨-, g, hg, hedit⟩ := command_edit e hc
    exact (h.edit (r := e.registry) (.revise hg)).edit hedit
  · rw [command_redefines e hc]
    exact h

/-- An edit does not crowd an input. -/
theorem crowded_of_edit {node port : String} (hl : e.graph.Landed) (hc : c.editsGraph = true)
    (h : (e.command c).2.Crowded node port) : e.Crowded node port := by
  obtain ⟨hr, g, hg, hedit⟩ := command_edit e hc
  have hrevised : e.graph.Edit e.registry g := .revise hg
  unfold Crowded at h
  rw [hr] at h
  exact (h.of_edit (hl.edit hrevised) hedit).of_edit hl hrevised

/-- A data input that is crowded at some time was crowded by a registration: before that, the same edges
ended there, but it was no data input. -/
theorem crowded_by_registration {node port : String} {cs : List Command} (hl : e.graph.Landed)
    (hfirst : ¬e.Crowded node port) (hcs : ∀ c ∈ cs, c.editsGraph = true ∨ c.redefines = true)
    (h : (e.edited cs).Crowded node port) :
    ∃ earlier c later, cs = earlier ++ c :: later ∧ c.redefines = true ∧
      ¬(e.edited earlier).graph.IsDataInput (e.edited earlier).registry node port ∧
      (e.edited (earlier ++ [c])).Crowded node port := by
  induction cs generalizing e with
  | nil => exact absurd h hfirst
  | cons c rest ih =>
    obtain ⟨hc, hrest⟩ := List.forall_mem_cons.mp hcs
    by_cases hnow : (e.command c).2.Crowded node port
    · rcases hc with hc | hc
      · exact absurd (crowded_of_edit hl hc hnow) hfirst
      · refine ⟨[], c, rest, rfl, hc, fun hdata => hfirst ⟨hdata, ?_⟩, hnow⟩
        rw [← Graph.writers_congr (congrArg Graph.edges (command_redefines e hc)) node port]
        exact hnow.2
    · obtain ⟨earlier, d, later, rfl, hd, hbefore, hafter⟩ := ih (landed_command hl hc) hnow hrest h
      exact ⟨c :: earlier, d, later, rfl, hd, hbefore, hafter⟩

theorem nodeWithKind_of_kindOf {id : String} {k : Kind Behavior} (h : e.graph.kindOf e.registry id = .ok k) :
    ∃ n, e.nodeWithKind id = .ok (n, k) := by
  obtain ⟨n, hn, hk⟩ := Graph.kindOf_eq_ok_iff.mp h
  refine ⟨n, ?_⟩
  simp only [nodeWithKind, Graph.requireNode, Registry.lookup, hn, hk, bind, Except.bind, pure, Except.pure]

theorem go_inj {s : Strand} {a b : Signal} : e.go s a = e.go s b ↔ a = b := by
  simp [go]

/-- What is pulled comes from the first edge that ends at the input. -/
theorem pullInput_eq_iff {x : Edge} (hdata : e.graph.IsDataInput e.registry x.dest x.destPort)
    (s : Strand) :
    e.pullInput s x.dest x.destPort = e.go s (.call (.output x.source x.sourcePort)) ↔
      e.graph.incoming? x.dest x.destPort = some x := by
  obtain ⟨k, hk, hport⟩ := hdata
  obtain ⟨n, hn⟩ := nodeWithKind_of_kindOf hk
  obtain ⟨p, hp⟩ := Option.isSome_iff_exists.mp hport
  unfold pullInput
  simp only [hn, hp]
  cases hin : e.graph.incoming? x.dest x.destPort with
  | some y =>
    have hends : y.dest = x.dest ∧ y.destPort = x.destPort := by
      simpa [Edge.endsAt] using List.find?_some hin
    obtain ⟨ys, yp, yd, yq⟩ := y
    obtain ⟨xs, xp, xd, xq⟩ := x
    simp only [go_inj, Option.some.injEq, Signal.call.injEq, Call.output.injEq, Edge.mk.injEq]
    exact ⟨fun h => ⟨h.1, h.2, hends⟩, fun h => ⟨h.1, h.2.1⟩⟩
  | none =>
    have hliteral : ∀ v, literalResult p v ≠ .call (.output x.source x.sourcePort) := fun v => by
      unfold literalResult
      split
      · exact Signal.noConfusion
      · exact Signal.noConfusion
    refine iff_of_false (fun h => ?_) (by simp)
    dsimp only at h
    split at h
    · exact hliteral _ (go_inj.mp h)
    · exact hliteral _ (go_inj.mp h)
    · split at h
      · cases go_inj.mp h
      · cases go_inj.mp h

/-- What adding an edge changes. -/
theorem addEdge_eq_ok {x : Edge} (h : (e.addEdge x).1.isOk = true) :
    ∃ old g, e.graph.addEdge e.registry x = .ok (old, g) ∧ (e.addEdge x).2 = { e with graph := g } := by
  unfold Engine.addEdge at h ⊢
  cases hadd : e.graph.addEdge e.registry x with
  | error err =>
    rw [hadd] at h
    cases h
  | ok r => exact ⟨r.1, r.2, rfl, rfl⟩

end Engine

/-- After any edits and registrations, an edge that was added at a data input is its only writer exactly
when the input was not crowded before. The edge is the one that is read exactly when that is so or it was
the one that was read before, and exactly then the next pull asks its source. An input is crowded only
because a kind was registered with a data input where it had none, while several edges ended there. -/
theorem sole_writer_iff (e : Engine) (hempty : e.graph.edges = []) (cs : List Command)
    (hcs : ∀ c ∈ cs, c.editsGraph = true ∨ c.redefines = true) (x : Edge)
    (hadd : ((e.edited cs).addEdge x).1.isOk = true)
    (hdata : ((e.edited cs).addEdge x).2.graph.IsDataInput ((e.edited cs).addEdge x).2.registry x.dest
      x.destPort) :
    (((e.edited cs).addEdge x).2.graph.writers x.dest x.destPort = [x] ↔
        ¬(e.edited cs).Crowded x.dest x.destPort) ∧
      (((e.edited cs).addEdge x).2.graph.incoming? x.dest x.destPort = some x ↔
        ¬(e.edited cs).Crowded x.dest x.destPort ∨
          (e.edited cs).graph.incoming? x.dest x.destPort = some x) ∧
      (∀ s, ((e.edited cs).addEdge x).2.pullInput s x.dest x.destPort =
          ((e.edited cs).addEdge x).2.go s (.call (.output x.source x.sourcePort)) ↔
        ((e.edited cs).addEdge x).2.graph.incoming? x.dest x.destPort = some x) ∧
      ((e.edited cs).Crowded x.dest x.destPort → ∃ earlier c later, cs = earlier ++ c :: later ∧
        c.redefines = true ∧
        ¬(e.edited earlier).graph.IsDataInput (e.edited earlier).registry x.dest x.destPort ∧
        (e.edited (earlier ++ [c])).Crowded x.dest x.destPort) := by
  have hasked := Engine.pullInput_eq_iff hdata
  obtain ⟨old, g, hg, hafter⟩ := Engine.addEdge_eq_ok hadd
  rw [hafter] at hdata
  have hbefore : (e.edited cs).graph.IsDataInput (e.edited cs).registry x.dest x.destPort :=
    hdata.congr (Graph.kindOf_addEdge hg x.dest)
  have hcrowded : ¬(e.edited cs).Crowded x.dest x.destPort ↔
      ((e.edited cs).graph.writers x.dest x.destPort).length ≤ 1 := by
    rw [Engine.Crowded, Graph.Crowded, and_iff_right hbefore, Nat.not_lt]
  refine ⟨?_, ?_, hasked, ?_⟩
  · rw [hafter, hcrowded]
    exact Graph.writers_addEdge_eq_singleton_iff hg hbefore
  · rw [hafter, hcrowded]
    exact Graph.incoming?_addEdge_eq_some_iff hg hbefore
  · refine Engine.crowded_by_registration ?_ ?_ hcs
    · intro y hy
      rw [hempty] at hy
      cases hy
    · intro hfirst
      have hmany := hfirst.2
      rw [Graph.writers, hempty] at hmany
      exact absurd hmany (Nat.not_lt_zero 1)

/-- The declaration of a statement with one input beside its control flow input. -/
def junctionKind (input : Port) : Declaration Behavior :=
  { kind := "junction", inputs := .listed [{ id := "exec", valueType := .exec }, input] }

/-- Two ways for control flow, and a source of a value. -/
def crossing : Engine :=
  { registry := { kinds := [
      .sketch "lead" .event [] [Library.leads "exec"] none,
      .sketch "source" .expression [] [{ id := "value", valueType := .number }] none] } }

/-- The nodes of the crossing, with a junction that takes control flow or a value. -/
def crossingEdits (input : Port) : List Command :=
  [.register (junctionKind input), .addNode "lead" [] (some "a"), .addNode "lead" [] (some "b"),
    .addNode "source" [] (some "c"), .addNode "junction" [] (some "s")]

/-- The junction takes control flow twice and is then registered again, to take a value. -/
def crowdingEdits : List Command :=
  crossingEdits { id := "x", valueType := .exec } ++
    [.connect ⟨"a", "exec", "s", "x"⟩, .connect ⟨"b", "exec", "s", "x"⟩,
      .register (junctionKind { id := "x", valueType := .any })]

theorem sole_writer_junction :
    ((crossing.edited (crossingEdits { id := "x", valueType := .any })).addEdge
      ⟨"c", "value", "s", "x"⟩).2.graph.writers "s" "x" = [⟨"c", "value", "s", "x"⟩] :=
  (sole_writer_iff crossing rfl (crossingEdits { id := "x", valueType := .any }) (by decide)
    ⟨"c", "value", "s", "x"⟩ (by decide +kernel) (by decide +kernel)).1.mpr (by decide +kernel)

/-- Of two edges into the junction the new edge evicts one: the other one is still there and is read. -/
theorem two_writers_crowded :
    ((crossing.edited crowdingEdits).addEdge ⟨"c", "value", "s", "x"⟩).1.isOk = true ∧
      ((crossing.edited crowdingEdits).addEdge ⟨"c", "value", "s", "x"⟩).2.graph.IsDataInput
        ((crossing.edited crowdingEdits).addEdge ⟨"c", "value", "s", "x"⟩).2.registry "s" "x" ∧
      ((crossing.edited crowdingEdits).addEdge ⟨"c", "value", "s", "x"⟩).2.graph.writers "s" "x" =
        [⟨"b", "exec", "s", "x"⟩, ⟨"c", "value", "s", "x"⟩] ∧
      ((crossing.edited crowdingEdits).addEdge ⟨"c", "value", "s", "x"⟩).2.graph.incoming? "s" "x" =
        some ⟨"b", "exec", "s", "x"⟩ := by
  decide +kernel

end Patchbay
