import Patchbay.Proofs.Interleaving
import Patchbay.Proofs.Writers

/-!
# Saving and loading a graph

A snapshot of an engine is a document, and to load a document adds its nodes and edges one after
another, with the checks that an editor meets. As long as kinds stay as they are, that brings back what
was saved: a new node starts with the defaults of its kind, and these came first in what was saved, so
each literal finds its place; and when an edge is added nothing that it would evict is there yet.

Contents:
* `Kind.Headed`: literals in which the defaults of a kind come first.
* `Graph.Storable`: the invariant of a graph that can be saved.
* `Engine.Built`: an engine whose graph was made by edits and loads.

Results:
* `Named.update_of_isPrefix`: when putting all entries of a list over another gives that list.
* `Graph.Storable.edit`, `Graph.storable_ofDocument`: the invariant holds of what edits and loads make.
* `Graph.ofDocument_records`: the records and edges of such a graph can be added again.
* `load_snapshot`: what was saved is what is loaded.
-/

namespace Patchbay

variable {β : Type}

/-! ## Literals -/

theorem Named.set_append_of_not_mem {before : Named} {k : String} (h : k ∉ before.names) (v : Value)
    (d : Named) : Named.set (before ++ d) k v = before ++ d.set k v := by
  induction before with
  | nil => rfl
  | cons e rest ih =>
    obtain ⟨a, w⟩ := e
    rw [Named.names_cons, List.mem_cons, not_or] at h
    rw [List.cons_append, Named.set_cons_of_ne fun heq => h.1 heq.symm, ih h.2, List.cons_append]

/-- Entries put one after another, when some are in place already. -/
theorem Named.update_append (done lits base : Named) (hn : (Named.names (done ++ lits)).Nodup)
    (hp : base.names <+: lits.names) : Named.update (done ++ base) lits = done ++ lits := by
  induction lits generalizing done base with
  | nil =>
    obtain rfl : base = [] := List.map_eq_nil_iff.mp (List.prefix_nil.mp hp)
    rfl
  | cons e rest ih =>
    obtain ⟨k, v⟩ := e
    have hdone : k ∉ done.names := by
      intro hk
      rw [Named.names, List.map_append] at hn
      exact (List.nodup_append.mp hn).2.2 k hk k List.mem_cons_self rfl
    -- the next entry replaces the next default, or comes after all of them
    obtain ⟨base', hset, hp'⟩ : ∃ base' : Named, base.set k v = (k, v) :: base' ∧
        base'.names <+: Named.names rest := by
      cases base with
      | nil => exact ⟨[], rfl, List.nil_prefix⟩
      | cons b others =>
        obtain ⟨a, w⟩ := b
        rw [Named.names_cons, Named.names_cons, List.cons_prefix_cons] at hp
        exact ⟨others, by simp [Named.set, hp.1], hp.2⟩
    have hmoved : done ++ (k, v) :: rest = (done ++ [(k, v)]) ++ rest := by simp
    show Named.update (Named.set (done ++ base) k v) rest = _
    rw [Named.set_append_of_not_mem hdone, hset, hmoved]
    have hnext := ih (done ++ [(k, v)]) base' (hmoved ▸ hn) hp'
    rw [List.append_assoc] at hnext
    exact hnext

/-- To put all entries of a list over some of its first names gives that list. -/
theorem Named.update_of_isPrefix {base lits : Named} (hn : lits.names.Nodup)
    (hp : base.names <+: lits.names) : base.update lits = lits :=
  Named.update_append [] lits base hn hp

/-- Literals in which the defaults of a kind come first, and no name comes twice. -/
structure Kind.Headed (k : Kind β) (literals : Named) : Prop where
  names : literals.names.Nodup
  defaults : k.defaultLiterals.names <+: literals.names

theorem Kind.headed_defaultLiterals {k : Kind β} (hd : (k.inputs.map Port.id).Nodup) :
    k.Headed k.defaultLiterals :=
  ⟨Kind.nodup_names_defaultLiterals hd, List.prefix_rfl⟩

theorem Kind.Headed.set {k : Kind β} {literals : Named} (h : k.Headed literals) (name : String)
    (v : Value) : k.Headed (literals.set name v) := by
  by_cases hmem : name ∈ literals.names
  · have hsame := Named.names_set_of_mem hmem v
    refine ⟨?_, ?_⟩
    · rw [hsame]
      exact h.names
    · rw [hsame]
      exact h.defaults
  · have hmore := Named.names_set_of_not_mem hmem v
    refine ⟨?_, ?_⟩
    · rw [hmore]
      refine List.nodup_append.mpr ⟨h.names, List.nodup_singleton name, fun a ha b hb hab => ?_⟩
      rw [List.mem_singleton] at hb
      exact hmem (hb ▸ hab ▸ ha)
    · rw [hmore]
      exact h.defaults.trans (List.prefix_append _ _)

theorem Kind.Headed.update {k : Kind β} {literals : Named} (h : k.Headed literals) (others : Named) :
    k.Headed (literals.update others) := by
  induction others generalizing literals with
  | nil => exact h
  | cons e rest ih => exact ih (h.set e.1 e.2)

theorem Graph.headed_startingLiterals {k : Kind β} (hd : (k.inputs.map Port.id).Nodup) {id : String}
    {overrides literals : Named} (h : Graph.startingLiterals k id overrides = .ok literals) :
    k.Headed literals := by
  refine foldlM_invariant (fun before x after hb hx => ?_) _ _ (Kind.headed_defaultLiterals hd) h
  dsimp only at hx
  split at hx
  · obtain rfl := Except.ok.inj hx
    exact hb.set x.1 x.2
  · cases hx

/-! ## Graphs that can be saved -/

/-- Whether no kind and no port of a registry is without a name. -/
def Registry.Labelled (r : Registry β) : Prop :=
  ∀ k ∈ r.kinds, k.id ≠ "" ∧ (∀ p ∈ k.inputs, p.id ≠ "") ∧ ∀ p ∈ k.outputs, p.id ≠ ""

instance (r : Registry β) : Decidable r.Labelled :=
  inferInstanceAs (Decidable (∀ k ∈ r.kinds, _))

/-- A node with an id, of a registered kind, whose literals begin with the defaults of the kind. -/
structure Node.Kept (r : Registry β) (n : Node) : Prop where
  id : n.id ≠ ""
  literals : ∃ k, r.find? n.kind = some k ∧ k.Headed n.literals

namespace Graph

/-- The invariant of a graph that can be saved. -/
structure Storable (r : Registry β) (g : Graph) : Prop where
  wired : g.Wired r
  nodes : ∀ n ∈ g.nodes, n.Kept r

variable {r : Registry β} {g g' : Graph}

theorem Storable.empty (r : Registry β) (serial : Nat) : Graph.Storable r { nextSerial := serial } :=
  ⟨.empty r serial, by simp⟩

/-- Changes of what nodes hold, which leave their ids and kinds alone and keep the defaults in place. -/
theorem Storable.mapNodes (h : g.Storable r) {f : Node → Node} (hid : ∀ n, (f n).id = n.id)
    (hkind : ∀ n, (f n).kind = n.kind)
    (hlit : ∀ (n : Node) (k : Kind β), k.Headed n.literals → k.Headed (f n).literals) :
    Graph.Storable r { g with nodes := g.nodes.map f } := by
  refine ⟨h.wired.mapNodes hid hkind, fun m hm => ?_⟩
  obtain ⟨n, hn, rfl⟩ := List.mem_map.mp hm
  obtain ⟨hne, k, hk, hheaded⟩ := h.nodes n hn
  refine ⟨?_, k, ?_, hlit n k hheaded⟩
  · rw [hid]
    exact hne
  · rw [hkind]
    exact hk

theorem Storable.addNode (h : g.Storable r) (hd : r.Distinct) {kind : String} {k : Kind β}
    (hk : r.find? kind = some k) {overrides : Named} {id : String} (hid : id ≠ "") {n : Node}
    (ha : g.addNode k overrides id = .ok (n, g')) : g'.Storable r := by
  refine ⟨h.wired.addNode ha, fun m hm => ?_⟩
  obtain ⟨-, literals, hs, hn, rfl⟩ := addNode_eq_ok ha
  rcases List.mem_append.mp hm with hm | hm
  · exact h.nodes m hm
  · obtain rfl := List.mem_singleton.mp hm
    have hkid : k.id = kind := by simpa using List.find?_some hk
    have hin := (hd k (List.mem_of_find?_eq_some hk)).1
    refine ⟨?_, k, ?_, ?_⟩
    · rw [hn]
      exact hid
    · rw [hn, hkid, hk]
    · rw [hn]
      exact headed_startingLiterals hin hs

theorem Storable.addEdge (h : g.Storable r) {x : Edge} {old : Option Edge}
    (ha : g.addEdge r x = .ok (old, g')) : g'.Storable r := by
  refine ⟨h.wired.addEdge ha, ?_⟩
  obtain ⟨-, -, -, q, -, -, -, -, -, ⟨-, rfl⟩ | ⟨-, rfl⟩⟩ := addEdge_eq_ok ha
  · exact h.nodes
  · exact h.nodes

/-- Every edit keeps the invariant. -/
theorem Storable.edit (h : g.Storable r) (hd : r.Distinct) (he : g.Edit r g') : g'.Storable r := by
  cases he with
  | revise hg =>
    obtain ⟨f, hf, rfl⟩ := hg
    refine h.mapNodes (fun n => (hf n).2.1) (fun n => (hf n).2.2.1) fun n k hk => ?_
    rw [(hf n).2.2.2]
    exact hk
  | addNode hk hid ha => exact h.addNode hd hk hid ha
  | removeNode hr =>
    refine ⟨h.wired.removeNode hr, fun m hm => ?_⟩
    obtain ⟨-, rfl⟩ := removeNode_eq_ok hr
    exact h.nodes m (List.mem_of_mem_filter hm)
  | addEdge ha => exact h.addEdge ha
  | removeEdge x => exact ⟨h.wired.removeEdge x, h.nodes⟩
  | setLiteral hs =>
    obtain ⟨-, -, -, -, -, rfl⟩ := setLiteral_eq_ok hs
    refine h.mapNodes (fun n => ?_) (fun n => ?_) fun n k hk => ?_
    · split <;> rfl
    · split <;> rfl
    · split
      · exact hk.set _ _
      · exact hk

/-! ## Documents -/

theorem Storable.addRecord (h : g.Storable r) (hd : r.Distinct) {x : NodeRecord} (hx : x.id ≠ "")
    (ha : g.addRecord r x = .ok g') : g'.Storable r := by
  obtain ⟨k, n, g₁, hk, hadd, rfl⟩ := addRecord_eq_ok ha
  refine (h.addNode hd hk hx hadd).mapNodes (fun m => ?_) (fun m => ?_) fun m l hl => ?_
  · split <;> rfl
  · split <;> rfl
  · split
    · exact hl.update x.literals
    · exact hl

end Graph

/-- Whether no record of a document has an empty field. -/
structure Document.Valid (d : Document) : Prop where
  nodes : ∀ x ∈ d.nodes, x.rejections = []
  edges : ∀ x ∈ d.edges, x.rejections = []

theorem tooShort_eq_nil_iff {field s : String} : tooShort field s = [] ↔ s ≠ "" := by
  unfold tooShort
  split
  · next h => simp [String.isEmpty_iff.mp h]
  · next h => simpa [String.isEmpty_iff] using h

theorem NodeRecord.rejections_eq_nil_iff {x : NodeRecord} :
    x.rejections = [] ↔ x.id ≠ "" ∧ x.kind ≠ "" := by
  rw [NodeRecord.rejections, List.append_eq_nil_iff, tooShort_eq_nil_iff, tooShort_eq_nil_iff]

theorem Edge.rejections_eq_nil_iff {x : Edge} :
    x.rejections = [] ↔ x.source ≠ "" ∧ x.sourcePort ≠ "" ∧ x.dest ≠ "" ∧ x.destPort ≠ "" := by
  simp only [Edge.rejections, List.append_eq_nil_iff, tooShort_eq_nil_iff, and_assoc]

theorem mapM_eq_ok {ε α γ : Type} {f : α → Except ε γ} {g : α → γ} {l : List α}
    (h : ∀ a ∈ l, f a = .ok (g a)) : l.mapM f = .ok (l.map g) := by
  induction l with
  | nil => rfl
  | cons a rest ih =>
    obtain ⟨ha, hrest⟩ := List.forall_mem_cons.mp h
    rw [List.mapM_cons, ha, ih hrest]
    rfl

namespace Graph

variable {r : Registry β} {g g' : Graph}

/-- The graph of a document can be saved. -/
theorem storable_ofDocument (hd : r.Distinct) {first : Nat} {d : Document} (hv : d.Valid)
    (h : Graph.ofDocument r .byType first d = .ok g) : g.Storable r := by
  refine ofDocument_induction (.empty r first) (fun g₀ x g₁ hx hs ha => ?_)
    (fun _ _ _ _ hs ha => hs.addEdge ha) h
  have hfull := NodeRecord.rejections_eq_nil_iff.mp (hv.nodes x hx)
  exact hs.addRecord hd hfull.1 ha

theorem endpoints_ne_empty (h : g.Storable r) (hl : r.Labelled) {x : Edge} (hx : x ∈ g.edges) :
    x.source ≠ "" ∧ x.sourcePort ≠ "" ∧ x.dest ≠ "" ∧ x.destPort ≠ "" := by
  obtain ⟨k, l, p, q, hk, hl', hp, hq, -⟩ := h.wired.edges x hx
  obtain ⟨n, hn, hk⟩ := kindOf_eq_ok_iff.mp hk
  obtain ⟨m, hm, hl'⟩ := kindOf_eq_ok_iff.mp hl'
  have hnid : n.id = x.source := by simpa using List.find?_some hn
  have hmid : m.id = x.dest := by simpa using List.find?_some hm
  have hpid : p.id = x.sourcePort := by simpa using List.find?_some hp
  have hqid : q.id = x.destPort := by simpa using List.find?_some hq
  refine ⟨?_, ?_, ?_, ?_⟩
  · rw [← hnid]
    exact (h.nodes n (List.mem_of_find?_eq_some hn)).id
  · rw [← hpid]
    exact (hl k (List.mem_of_find?_eq_some hk)).2.2 p (List.mem_of_find?_eq_some hp)
  · rw [← hmid]
    exact (h.nodes m (List.mem_of_find?_eq_some hm)).id
  · rw [← hqid]
    exact (hl l (List.mem_of_find?_eq_some hl')).2.1 q (List.mem_of_find?_eq_some hq)

/-- The document with the records of a graph. -/
def saved (g : Graph) (globals : Named) : Document :=
  { nodes := g.nodes.map record, edges := g.edges, globals := globals }

theorem Storable.valid (h : g.Storable r) (hl : r.Labelled) (globals : Named) : (g.saved globals).Valid := by
  refine ⟨fun x hx => ?_, fun x hx => ?_⟩
  · obtain ⟨n, hn, rfl⟩ := List.mem_map.mp hx
    obtain ⟨hid, k, hk, -⟩ := h.nodes n hn
    have hkid : k.id = n.kind := by simpa using List.find?_some hk
    refine NodeRecord.rejections_eq_nil_iff.mpr ⟨hid, ?_⟩
    show n.kind ≠ ""
    rw [← hkid]
    exact (hl k (List.mem_of_find?_eq_some hk)).1
  · exact Edge.rejections_eq_nil_iff.mpr (endpoints_ne_empty h hl hx)

/-- A graph with the invariant can be saved. -/
theorem toDocument_eq (h : g.Storable r) (hl : r.Labelled) (globals : Named) :
    g.toDocument globals = .ok (g.saved globals) := by
  have hvalid := h.valid hl globals
  have hnodes : ∀ n ∈ g.nodes, Fault.lift (rejecting (record n).rejections (record n)) = .ok (record n) := by
    intro n hn
    rw [hvalid.nodes (record n) (List.mem_map_of_mem hn)]
    rfl
  have hedges : ∀ x ∈ g.edges, Fault.lift (rejecting x.rejections x) = .ok (id x) := by
    intro x hx
    rw [hvalid.edges x hx]
    rfl
  rw [toDocument, mapM_eq_ok hnodes, mapM_eq_ok hedges, List.map_id]
  rfl

/-! ## Loading what was saved -/

/-- The record of a node brings the node back, with its literals in their order. -/
theorem addRecord_record {n : Node} (hn : n.Kept r) (hnone : g.node? n.id = none) :
    g.addRecord r (record n) = .ok { g with
      nodes := g.nodes ++ [{ serial := g.nextSerial, id := n.id, kind := n.kind, literals := n.literals }]
      nextSerial := g.nextSerial + 1 } := by
  obtain ⟨-, k, hk, hheaded⟩ := hn
  have hkid : k.id = n.kind := by simpa using List.find?_some hk
  have hfree : g.hasNode n.id = false := by rw [hasNode_eq_isSome, hnone, Option.isSome_none]
  have hothers : ∀ m ∈ g.nodes, ¬(m.id == n.id) = true := fun m hm => List.find?_eq_none.mp hnone m hm
  show g.addRecord r ⟨n.id, n.kind, n.literals⟩ = _
  simp only [addRecord, Registry.lookup, hk, addNode, hfree, startingLiterals, List.foldlM_nil,
    bind, Except.bind, pure, Except.pure, Bool.false_eq_true, if_false, modifyNode, hkid]
  have hsame : (g.nodes.map fun m => if m.id == n.id then
      { m with literals := m.literals.update n.literals } else m) = g.nodes := by
    refine (List.map_congr_left fun m hm => ?_).trans (List.map_id g.nodes)
    rw [if_neg (hothers m hm)]
    rfl
  rw [List.map_append, hsame, List.map_singleton, if_pos (beq_self_eq_true _),
    Named.update_of_isPrefix hheaded.names hheaded.defaults]

/-- The records of nodes bring the nodes back, in their order. -/
theorem foldlM_addRecord {l : List Node} (hkept : ∀ n ∈ l, n.Kept r)
    (hids : (g.nodes.map Node.id ++ l.map Node.id).Nodup) :
    ∃ g', (l.map record).foldlM (fun g x => addRecord g r x) g = .ok g' ∧
      g'.nodes.map record = g.nodes.map record ++ l.map record ∧ g'.edges = g.edges ∧
      g'.matcher = g.matcher := by
  induction l generalizing g with
  | nil => exact ⟨g, rfl, by simp, rfl, rfl⟩
  | cons n rest ih =>
    obtain ⟨hn, hrest⟩ := List.forall_mem_cons.mp hkept
    have hnone : g.node? n.id = none := by
      refine List.find?_eq_none.mpr fun m hm hid => ?_
      have hne := (List.nodup_append.mp hids).2.2 m.id (List.mem_map_of_mem hm) n.id List.mem_cons_self
      exact hne (beq_iff_eq.mp hid)
    have hadd := addRecord_record hn hnone
    obtain ⟨g', hfold, hnodes, hedges, hmatcher⟩ := ih (g := { g with
      nodes := g.nodes ++ [{ serial := g.nextSerial, id := n.id, kind := n.kind, literals := n.literals }]
      nextSerial := g.nextSerial + 1 }) hrest (by simpa using hids)
    refine ⟨g', ?_, ?_, hedges, hmatcher⟩
    · rw [List.map_cons, List.foldlM_cons, hadd]
      exact hfold
    · rw [hnodes]
      simp [record]

/-- Nothing is evicted when the edges of a graph are added in their order. -/
theorem addEdge_of_wired {x : Edge} {rest : List Edge}
    (h : Graph.Wired r { g with edges := g.edges ++ x :: rest }) :
    g.addEdge r x = .ok (none, { g with edges := g.edges ++ [x] }) := by
  obtain ⟨k, l, p, q, hk, hl, hp, hq, hjoin⟩ := h.edges x (by simp)
  have hks : g.kindOf r x.source = .ok k := hk
  have hld : g.kindOf r x.dest = .ok l := hl
  have hmatcher : g.matcher = .byType := h.matcher
  have hacc : g.matcher.accepts p q = true := by
    rw [hmatcher]
    exact Matcher.accepts_byType_iff.mpr hjoin
  have hnew : x ∉ g.edges := fun hold =>
    (List.nodup_append.mp h.distinct).2.2 x hold x List.mem_cons_self rfl
  simp only [Graph.addEdge, hks, hld, hp, hq, hacc, bind, Except.bind, pure, Except.pure, Bool.not_true,
    Bool.false_eq_true, if_false, List.contains_eq_mem, hnew, decide_false]
  split
  · rfl
  · next hexec =>
    have hdata : Graph.IsDataInput r { g with edges := g.edges ++ x :: rest } x.dest x.destPort := by
      refine ⟨l, hl, ?_⟩
      rw [Kind.dataInput, hq]
      simp [Option.filter_some, hexec]
    have hone : ((g.edges ++ x :: rest).countP fun y => y.endsAt x.dest x.destPort) ≤ 1 :=
      h.single x.dest x.destPort hdata
    have hfree : g.incoming? x.dest x.destPort = none := by
      refine List.find?_eq_none.mpr fun y hy hends => ?_
      have hpos : 0 < g.edges.countP fun y => y.endsAt x.dest x.destPort :=
        List.countP_pos_iff.mpr ⟨y, hy, hends⟩
      rw [List.countP_append, List.countP_cons, endsAt_self] at hone
      simp only [if_true] at hone
      omega
    rw [hfree]

theorem foldlM_addEdge {l : List Edge} (h : Graph.Wired r { g with edges := g.edges ++ l }) :
    (l.foldlM (fun g x => do
      let (_, g) ← g.addEdge r x
      return g) g : Except Raised Graph) = .ok { g with edges := g.edges ++ l } := by
  induction l generalizing g with
  | nil => simp [pure, Except.pure]
  | cons x rest ih =>
    rw [List.foldlM_cons, addEdge_of_wired h]
    have hnext := ih (g := { g with edges := g.edges ++ [x] }) (by simpa using h)
    simpa [bind, Except.bind, pure, Except.pure] using hnext

/-- The kinds of nodes are looked up in the records of nodes. -/
theorem kindOf_of_records (h : g'.nodes.map record = g.nodes.map record) (id : String) :
    g'.kindOf r id = g.kindOf r id := by
  have hfind : ∀ l : List Node, (l.find? fun n => n.id == id).map Node.kind =
      ((l.map record).find? fun x => x.id == id).map NodeRecord.kind := fun l => by
    rw [List.find?_map, Option.map_map]
    rfl
  refine kindOf_congr ?_
  rw [node?, node?, hfind, hfind, h]

theorem Wired.of_records (h : g.Wired r) (hn : g'.nodes.map record = g.nodes.map record)
    (he : g'.edges = g.edges) (hm : g'.matcher = .byType) : g'.Wired r := by
  have hkinds := kindOf_of_records (r := r) hn
  refine ⟨hm, ?_, fun x hx => ?_, ?_, fun node port hdata => ?_⟩
  · have hids := congrArg (List.map NodeRecord.id) hn
    rw [List.map_map, List.map_map] at hids
    exact hids ▸ h.ids
  · rw [he] at hx
    exact (h.edges x hx).congr fun id _ => hkinds id
  · rw [he]
    exact h.distinct
  · rw [he]
    exact h.single node port (hdata.congr (hkinds node))

/-- The records and edges of a graph can be added again, and give the same records and edges. -/
theorem ofDocument_records (h : g.Storable r) (first : Nat) (globals : Named) :
    ∃ g', Graph.ofDocument r .byType first (g.saved globals) = .ok g' ∧
      g'.nodes.map record = g.nodes.map record ∧ g'.edges = g.edges := by
  obtain ⟨g₁, hfold, hnodes, hedges, hmatcher⟩ := foldlM_addRecord
    (g := { matcher := .byType, nextSerial := first }) h.nodes (by simpa using h.wired.ids)
  have hwired : Graph.Wired r { g₁ with edges := g₁.edges ++ g.edges } := by
    refine h.wired.of_records (by simpa using hnodes) ?_ hmatcher
    show g₁.edges ++ g.edges = g.edges
    rw [hedges, List.nil_append]
  refine ⟨{ g₁ with edges := g₁.edges ++ g.edges }, ?_, by simpa using hnodes, ?_⟩
  · rw [ofDocument, saved, hfold]
    exact foldlM_addEdge hwired
  · show g₁.edges ++ g.edges = g.edges
    rw [hedges, List.nil_append]

end Graph

/-! ## Engines -/

theorem Graph.Revises.trans {g g' g'' : Graph} (h : g.Revises g') (h' : g'.Revises g'') :
    g.Revises g'' := by
  obtain ⟨f, hf, rfl⟩ := h
  obtain ⟨f', hf', rfl⟩ := h'
  refine ⟨f' ∘ f, fun n => ?_, by simp⟩
  obtain ⟨h₁, h₂, h₃, h₄⟩ := hf n
  obtain ⟨h₁', h₂', h₃', h₄'⟩ := hf' (f n)
  exact ⟨h₁'.trans h₁, h₂'.trans h₂, h₃'.trans h₃, h₄'.trans h₄⟩

namespace Engine

theorem foldl_tearDown_graph (nodes : List Node) (e : Engine) :
    e.graph.Revises (nodes.foldl tearDown e).graph ∧ (nodes.foldl tearDown e).registry = e.registry := by
  induction nodes generalizing e with
  | nil => exact ⟨.refl _, rfl⟩
  | cons n rest ih =>
    obtain ⟨hg, hr⟩ := tearDown_graph e n
    obtain ⟨hg', hr'⟩ := ih (e.tearDown n)
    exact ⟨hg.trans hg', hr'.trans hr⟩

/-- To stop an engine changes what nodes hold, and nothing else of its graph. -/
theorem stop_graph (e : Engine) : e.graph.Revises e.stop.2.graph ∧ e.stop.2.registry = e.registry := by
  unfold stop
  dsimp only
  split
  · exact ⟨.refl _, rfl⟩
  · exact foldl_tearDown_graph e.graph.nodes _

/-- An engine whose graph was made by edits and loads, with kinds that stay as they are. Whatever else
happens in between, such as runs and changes of variables, leaves nodes and edges as they are but for
what nodes hold. -/
inductive Built (r : Registry Behavior) : Engine → Prop
  | fresh {config : Config} {e : Engine} (h : Engine.create config r {} = .ok e) : Built r e
  | edit {e : Engine} {c : Command} (h : Built r e) (hc : c.editsGraph = true) : Built r (e.command c).2
  | load {e : Engine} {d : Document} (h : Built r e) (hd : d.Valid) : Built r (e.loadDocument d).2
  | revise {e e' : Engine} (h : Built r e) (hg : e.graph.Revises e'.graph)
      (hr : e'.registry = e.registry) : Built r e'

variable {r : Registry Behavior} {e : Engine}

theorem Built.edited (h : Built r e) {cs : List Command} (hcs : ∀ c ∈ cs, c.editsGraph = true) :
    Built r (e.edited cs) := by
  induction cs generalizing e with
  | nil => exact h
  | cons c rest ih =>
    obtain ⟨hc, hrest⟩ := List.forall_mem_cons.mp hcs
    exact ih (h.edit hc) hrest

/-- The graph of such an engine can be saved. -/
theorem Built.storable (h : Built r e) (hd : r.Distinct) : e.graph.Storable r ∧ e.registry = r := by
  induction h with
  | fresh h =>
    obtain ⟨shortest, rfl⟩ := eq_initial_of_create h
    exact ⟨.empty r 0, rfl⟩
  | @edit e c _ hc ih =>
    obtain ⟨hg, hr⟩ := ih
    obtain ⟨hr', g, hrevised, hedit⟩ := command_edit e hc
    rw [hr] at hr' hedit
    exact ⟨(hg.edit hd (.revise hrevised)).edit hd hedit, hr'⟩
  | @load e d _ hv ih =>
    obtain ⟨hg, hr⟩ := ih
    obtain ⟨hstop, hr'⟩ := stop_graph e
    rcases loadDocument_cases e d with ⟨-, heq⟩ | heq | ⟨-, g, hread, heq⟩
    · rw [heq]
      exact ⟨hg, hr⟩
    · rw [heq]
      exact ⟨hg.edit hd (.revise hstop), hr'.trans hr⟩
    · rw [heq]
      rw [hr] at hread
      exact ⟨Graph.storable_ofDocument hd hv hread, hr'.trans hr⟩
  | revise _ hrevised hr' ih => exact ⟨ih.1.edit hd (.revise hrevised), hr'.trans ih.2⟩

theorem snapshot_eq {d : Document} (h : e.graph.toDocument e.store.values = .ok d) :
    (e.command .snapshot).1 = .ok (.document d) := by
  simp [command, answering, h, bind, Except.bind, pure, Except.pure]

/-- To load a document into a new engine puts its graph and its variables in place. -/
theorem loadDocument_initial (config : Config) (r : Registry Behavior) (shortest : Float) {d : Document}
    {g : Graph} (h : Graph.ofDocument r .byType 0 d = .ok g) :
    ∃ e', (Engine.initial config r {} shortest).loadDocument d = (.ok (), e') ∧ e'.graph = g ∧
      e'.store.values = d.globals := by
  have hread : Graph.ofDocument (Engine.initial config r {} shortest).registry .byType
      (Engine.initial config r {} shortest).graph.nextSerial d = .ok g := h
  unfold loadDocument
  rw [hread]
  exact ⟨_, rfl, rfl, rfl⟩

end Engine

/-- A new engine with the kinds of the workbench. -/
def emptyBench : Engine := (Engine.create {} workbench.registry {}).toOption.getD {}

theorem create_emptyBench : Engine.create {} workbench.registry {} = .ok emptyBench := by
  have hok : (Engine.create {} workbench.registry {}).isOk = true := by decide +kernel
  cases h : Engine.create {} workbench.registry {} with
  | error err =>
    rw [h] at hok
    cases hok
  | ok e =>
    rw [emptyBench, h]
    rfl

/-- A document with a literal for an input that the kind does not have, and a variable. -/
def oldBench : Document :=
  { nodes := [⟨"s", "source", []⟩, ⟨"t", "sink", [("gone", .int 3), ("a", .int 4)]⟩],
    edges := [⟨"s", "value", "t", "a"⟩, ⟨"t", "exec", "t", "exec"⟩],
    globals := [("x", .int 7)] }

/-- The document, loaded and then edited: a second source takes the place of the first. -/
def reloadedBench : Engine :=
  (emptyBench.loadDocument oldBench).2.edited
    [.addNode "source" [] (some "u"), .connect ⟨"u", "value", "t", "a"⟩, .setLiteral "t" "a" (.int 5)]

end Patchbay
