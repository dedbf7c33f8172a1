import Mathlib.Data.List.Nodup
import Patchbay.Proofs.Upkeep

/-!
# Integrity of graphs

Every change of a graph is checked against the registry when it is made. As long as the kinds stay as
they are, whatever an editor asks for, and whether it is granted or refused, the graph stays whole: its
nodes are of kinds that exist and have literals for inputs that exist, its edges join ports that exist
and fit, and a data input has one writer at most.

Contents:
* `Kind.Allows`: the literals that a node of a kind may have.
* `Port.Joinable`: which ports may be joined.
* `Graph.Sound`: the invariant of a graph; `Graph.Wired`: its part for ids and edges.

Results:
* `Sound.addNode`, `Sound.removeNode`, `Sound.addEdge`, `Sound.removeEdge`, `Sound.setLiteral`: each
  change keeps the invariant.
* `sound_of_edits`: it holds after any sequence of edits of the empty graph.
-/

namespace Patchbay

variable {β : Type}

/-- What has an id of its own in a list is found under it. -/
theorem find?_of_nodup {α : Type} {f : α → String} {l : List α} (hd : (l.map f).Nodup) {a : α}
    (ha : a ∈ l) : (l.find? fun x => f x == f a) = some a := by
  cases hx : l.find? fun x => f x == f a with
  | none =>
    have hne := List.find?_eq_none.mp hx a ha
    simp at hne
  | some x =>
    have hfx : f x = f a := by simpa using List.find?_some hx
    rw [List.inj_on_of_nodup_map hd (List.mem_of_find?_eq_some hx) ha hfx]

/-- What each step of a fold that may fail keeps, the fold keeps. -/
theorem foldlM_invariant_of_mem {ε σ α : Type} {f : σ → α → Except ε σ} {P : σ → Prop} {l : List α}
    {s s' : σ} (hf : ∀ s a s', a ∈ l → P s → f s a = .ok s' → P s') (hs : P s)
    (h : l.foldlM f s = .ok s') : P s' := by
  induction l generalizing s with
  | nil =>
    obtain rfl := Except.ok.inj h
    exact hs
  | cons a rest ih =>
    rw [List.foldlM_cons] at h
    cases ha : f s a with
    | error err => rw [ha] at h; cases h
    | ok s₁ =>
      rw [ha] at h
      exact ih (fun s b s' hb => hf s b s' (List.mem_cons_of_mem a hb))
        (hf s a s₁ List.mem_cons_self hs ha) h

theorem foldlM_invariant {ε σ α : Type} {f : σ → α → Except ε σ} {P : σ → Prop} {s' : σ}
    (hf : ∀ s a s', P s → f s a = .ok s' → P s') (l : List α) (s : σ) (hs : P s)
    (h : l.foldlM f s = .ok s') : P s' :=
  foldlM_invariant_of_mem (fun s a s' _ => hf s a s') hs h

/-! ## Literals -/

theorem Named.names_cons (k : String) (v : Value) (d : Named) :
    Named.names ((k, v) :: d) = k :: d.names := rfl

theorem Named.set_cons_of_ne {a k : String} (h : a ≠ k) (w v : Value) (d : Named) :
    Named.set ((a, w) :: d) k v = (a, w) :: d.set k v := by
  simp [Named.set, h]

theorem Named.names_set_of_mem {d : Named} {k : String} (h : k ∈ d.names) (v : Value) :
    (d.set k v).names = d.names := by
  induction d with
  | nil => cases h
  | cons e rest ih =>
    obtain ⟨a, w⟩ := e
    by_cases ha : a = k
    · simp [Named.set, Named.names, ha]
    · rw [Named.names_cons, List.mem_cons] at h
      rw [Named.set_cons_of_ne ha, Named.names_cons, Named.names_cons,
        ih (h.resolve_left fun heq => ha heq.symm)]

theorem Named.names_set_of_not_mem {d : Named} {k : String} (h : k ∉ d.names) (v : Value) :
    (d.set k v).names = d.names ++ [k] := by
  induction d with
  | nil => rfl
  | cons e rest ih =>
    obtain ⟨a, w⟩ := e
    rw [Named.names_cons, List.mem_cons, not_or] at h
    rw [Named.set_cons_of_ne fun heq => h.1 heq.symm, Named.names_cons, Named.names_cons, ih h.2,
      List.cons_append]

/-- Whether the ports of every kind are told apart by their ids, in each direction. -/
def Registry.Distinct (r : Registry β) : Prop :=
  ∀ k ∈ r.kinds, (k.inputs.map Port.id).Nodup ∧ (k.outputs.map Port.id).Nodup

instance (r : Registry β) : Decidable r.Distinct :=
  inferInstanceAs (Decidable (∀ k ∈ r.kinds, _))

/-- The literals that a node of a kind may have: one for each default of the kind at least, and none
but for data inputs. -/
structure Kind.Allows (k : Kind β) (literals : Named) : Prop where
  names : literals.names.Nodup
  declared : ∀ p ∈ k.dataInputs, p.default.isSome = true → p.id ∈ literals.names
  inputs : ∀ port ∈ literals.names, (k.dataInput port).isSome = true

theorem Kind.dataInput_of_mem {k : Kind β} (hd : (k.inputs.map Port.id).Nodup) {p : Port}
    (hp : p ∈ k.dataInputs) : k.dataInput p.id = some p := by
  obtain ⟨hmem, hdata⟩ := List.mem_filter.mp hp
  rw [Kind.dataInput, Kind.inputPort, find?_of_nodup hd hmem]
  simpa using hdata

theorem Kind.mem_names_defaultLiterals {k : Kind β} {port : String} :
    port ∈ k.defaultLiterals.names ↔ ∃ p ∈ k.dataInputs, p.default.isSome = true ∧ p.id = port := by
  simp only [Kind.defaultLiterals, Named.names, List.mem_map, List.mem_filterMap, Option.map_eq_some_iff,
    Option.isSome_iff_exists]
  constructor
  · rintro ⟨x, ⟨p, hp, v, hv, rfl⟩, rfl⟩
    exact ⟨p, hp, ⟨v, hv⟩, rfl⟩
  · rintro ⟨p, hp, ⟨v, hv⟩, rfl⟩
    exact ⟨(p.id, v), ⟨p, hp, v, hv, rfl⟩, rfl⟩

theorem Kind.nodup_names_defaultLiterals {k : Kind β} (hd : (k.inputs.map Port.id).Nodup) :
    k.defaultLiterals.names.Nodup := by
  have hsub : k.defaultLiterals.names.Sublist (k.inputs.map Port.id) := by
    have hnames : k.defaultLiterals.names =
        (k.dataInputs.filter fun p => p.default.isSome).map Port.id := by
      simp only [Kind.defaultLiterals, Named.names]
      induction k.dataInputs with
      | nil => rfl
      | cons p rest ih => cases hp : p.default <;> simp [hp, ih]
    rw [hnames]
    exact ((List.filter_sublist).trans List.filter_sublist).map _
  exact hd.sublist hsub

/-- A kind allows its own defaults. -/
theorem Kind.allows_defaultLiterals {k : Kind β} (hd : (k.inputs.map Port.id).Nodup) :
    k.Allows k.defaultLiterals := by
  refine ⟨Kind.nodup_names_defaultLiterals hd, fun p hp hv => ?_, fun port hport => ?_⟩
  · exact Kind.mem_names_defaultLiterals.mpr ⟨p, hp, hv, rfl⟩
  · obtain ⟨p, hp, -, rfl⟩ := Kind.mem_names_defaultLiterals.mp hport
    rw [Kind.dataInput_of_mem hd hp, Option.isSome_some]

theorem Kind.Allows.set {k : Kind β} {literals : Named} (h : k.Allows literals) {port : String}
    (hport : (k.dataInput port).isSome = true) (v : Value) : k.Allows (literals.set port v) := by
  by_cases hmem : port ∈ literals.names
  · have hsame : (literals.set port v).names = literals.names := Named.names_set_of_mem hmem v
    refine ⟨?_, ?_, ?_⟩
    · rw [hsame]; exact h.names
    · rw [hsame]; exact h.declared
    · rw [hsame]; exact h.inputs
  · have hmore : (literals.set port v).names = literals.names ++ [port] :=
      Named.names_set_of_not_mem hmem v
    refine ⟨?_, fun p hp hv => ?_, fun other hother => ?_⟩
    · rw [hmore]
      refine List.nodup_append.mpr ⟨h.names, List.nodup_singleton port, fun a ha b hb hab => ?_⟩
      rw [List.mem_singleton] at hb
      exact hmem (hb ▸ hab ▸ ha)
    · rw [hmore]
      exact List.mem_append_left _ (h.declared p hp hv)
    · rw [hmore, List.mem_append, List.mem_singleton] at hother
      rcases hother with hother | rfl
      · exact h.inputs other hother
      · exact hport

/-- The literals of a new node are allowed, whatever it overrides. -/
theorem Graph.allows_startingLiterals {k : Kind β} (hd : (k.inputs.map Port.id).Nodup) {id : String}
    {overrides literals : Named} (h : Graph.startingLiterals k id overrides = .ok literals) :
    k.Allows literals := by
  refine foldlM_invariant (fun before x after hb hx => ?_) _ _ (Kind.allows_defaultLiterals hd) h
  dsimp only at hx
  split at hx
  · next hport =>
    obtain rfl := Except.ok.inj hx
    exact hb.set (by rw [hport, Option.isSome_some]) x.2
  · cases hx

/-! ## Ports that fit -/

/-- Whether an output may be joined to an input: control flow with control flow only, and of two data
types that are not `any` one with itself. -/
def Port.Joinable (p q : Port) : Prop :=
  (p.isExec = true ↔ q.isExec = true) ∧
    (p.valueType ≠ .any → q.valueType ≠ .any → p.valueType = q.valueType)

theorem Matcher.accepts_byType_iff {p q : Port} : Matcher.byType.accepts p q = true ↔ p.Joinable q := by
  have hflow : ∀ {x : Port}, x.isExec = true → x.valueType = .exec := fun hx => by
    simpa [Port.isExec] using hx
  unfold Matcher.accepts Port.Joinable
  cases hp : p.isExec <;> cases hq : q.isExec
  · simp only [Bool.or_self, Bool.false_eq_true, if_false, Bool.or_eq_true, beq_iff_eq, true_and]
    tauto
  · simp
  · simp
  · simp [hflow hp, hflow hq]

/-! ## The invariant -/

/-- A node of a registered kind, with literals that the kind allows. -/
def Node.Fits (r : Registry β) (n : Node) : Prop := ∃ k, r.find? n.kind = some k ∧ k.Allows n.literals

namespace Graph

/-- Whether an edge leads from an output of a node to an input of a node, and the two may be joined. -/
def Joins (r : Registry β) (g : Graph) (e : Edge) : Prop :=
  ∃ k l p q, g.kindOf r e.source = .ok k ∧ g.kindOf r e.dest = .ok l ∧
    k.outputPort e.sourcePort = some p ∧ l.inputPort e.destPort = some q ∧ p.Joinable q

/-- Whether a node has a data input. -/
def IsDataInput (r : Registry β) (g : Graph) (node port : String) : Prop :=
  ∃ k, g.kindOf r node = .ok k ∧ (k.dataInput port).isSome = true

/-- The invariant of a graph: each node has an id of its own and fits its kind, each edge is there once
and joins two ports, and no data input has two writers. -/
structure Sound (r : Registry β) (g : Graph) : Prop where
  matcher : g.matcher = .byType
  ids : (g.nodes.map Node.id).Nodup
  nodes : ∀ n ∈ g.nodes, n.Fits r
  edges : ∀ e ∈ g.edges, g.Joins r e
  distinct : g.edges.Nodup
  single : ∀ node port, g.IsDataInput r node port → (g.edges.countP fun e => e.endsAt node port) ≤ 1

/-- The part of the invariant that does not depend on what nodes hold. -/
structure Wired (r : Registry β) (g : Graph) : Prop where
  matcher : g.matcher = .byType
  ids : (g.nodes.map Node.id).Nodup
  edges : ∀ e ∈ g.edges, g.Joins r e
  distinct : g.edges.Nodup
  single : ∀ node port, g.IsDataInput r node port → (g.edges.countP fun e => e.endsAt node port) ≤ 1

theorem Sound.wired {r : Registry β} {g : Graph} (h : g.Sound r) : g.Wired r :=
  ⟨h.matcher, h.ids, h.edges, h.distinct, h.single⟩

theorem Wired.sound {r : Registry β} {g : Graph} (h : g.Wired r) (hn : ∀ n ∈ g.nodes, n.Fits r) :
    g.Sound r :=
  ⟨h.matcher, h.ids, hn, h.edges, h.distinct, h.single⟩

theorem Wired.empty (r : Registry β) (serial : Nat) : Graph.Wired r { nextSerial := serial } :=
  ⟨rfl, List.nodup_nil, by simp, List.nodup_nil, by simp⟩

theorem Sound.empty (r : Registry β) : Graph.Sound r {} := (Wired.empty r 0).sound (by simp)

/-- Each node is found under its id. -/
theorem Wired.node?_of_mem {r : Registry β} {g : Graph} (h : g.Wired r) {n : Node} (hn : n ∈ g.nodes) :
    g.node? n.id = some n :=
  find?_of_nodup h.ids hn

/-! ## The kinds of nodes -/

section Kinds

variable {r : Registry β} {g g' : Graph} {k : Kind β} {id : String}

theorem kindOf_eq_ok_iff :
    g.kindOf r id = .ok k ↔ ∃ n, g.node? id = some n ∧ r.find? n.kind = some k := by
  simp only [kindOf, requireNode, bind, Except.bind]
  cases g.node? id with
  | none => simp
  | some n =>
    simp only [Registry.lookup, Option.some.injEq, exists_eq_left']
    cases r.find? n.kind <;> simp

/-- The kind of a node is looked up by what its id stands for. -/
theorem kindOf_congr (h : (g'.node? id).map Node.kind = (g.node? id).map Node.kind) :
    g'.kindOf r id = g.kindOf r id := by
  simp only [kindOf, requireNode]
  cases hn : g.node? id <;> cases hn' : g'.node? id <;> simp_all [bind, Except.bind]

theorem hasNode_eq_isSome (g : Graph) (id : String) : g.hasNode id = (g.node? id).isSome := by
  rw [hasNode, node?, List.isSome_find?]

theorem node?_append_of_ne {n : Node} (h : n.id ≠ id) :
    { g with nodes := g.nodes ++ [n], nextSerial := g.nextSerial + 1 }.node? id = g.node? id := by
  simp [node?, List.find?_append, h]

theorem node?_filter_of_ne {other : String} (es : List Edge) (h : id ≠ other) :
    { g with nodes := g.nodes.filter fun m => m.id != other, edges := es }.node? id = g.node? id := by
  simp only [node?, List.find?_filter]
  congr 1
  funext m
  by_cases hm : m.id = id
  · simp [hm, h]
  · simp [hm]

theorem node?_map {f : Node → Node} (hid : ∀ n, (f n).id = n.id) :
    { g with nodes := g.nodes.map f }.node? id = (g.node? id).map f := by
  simp only [node?, List.find?_map]
  congr 2
  funext n
  simp [hid]

/-- Nodes keep their kinds when only what they hold changes. -/
theorem kindOf_map {f : Node → Node} (hid : ∀ n, (f n).id = n.id) (hkind : ∀ n, (f n).kind = n.kind)
    (id : String) : { g with nodes := g.nodes.map f }.kindOf r id = g.kindOf r id := by
  refine kindOf_congr ?_
  rw [node?_map hid, Option.map_map]
  congr 1
  funext n
  exact hkind n

end Kinds

/-! ## Changes -/

section Changes

variable {r : Registry β} {g g' : Graph}

/-- An edge of a graph does not touch a node that is not there. -/
theorem Joins.touches {e : Edge} {id : String} (h : g.Joins r e) (hid : g.node? id = none) :
    e.touches id = false := by
  obtain ⟨k, l, p, q, hk, hl, -⟩ := h
  obtain ⟨n, hn, -⟩ := kindOf_eq_ok_iff.mp hk
  obtain ⟨m, hm, -⟩ := kindOf_eq_ok_iff.mp hl
  have hs : id ≠ e.source := by
    rintro rfl
    rw [hid] at hn
    cases hn
  have hd : id ≠ e.dest := by
    rintro rfl
    rw [hid] at hm
    cases hm
  simp [Edge.touches, hs, hd]

/-- What an edge joins is still joined when its nodes keep their kinds. -/
theorem Joins.congr {e : Edge} (h : g.Joins r e)
    (hk : ∀ id, e.touches id = true → g'.kindOf r id = g.kindOf r id) : g'.Joins r e := by
  obtain ⟨k, l, p, q, hs, hd, hports⟩ := h
  refine ⟨k, l, p, q, ?_, ?_, hports⟩
  · rw [hk e.source (by simp [Edge.touches]), hs]
  · rw [hk e.dest (by simp [Edge.touches]), hd]

theorem IsDataInput.congr {node port : String} (h : g'.IsDataInput r node port)
    (hk : g'.kindOf r node = g.kindOf r node) : g.IsDataInput r node port := by
  obtain ⟨k, hn, hp⟩ := h
  exact ⟨k, hk ▸ hn, hp⟩

/-- What stands at the place of a data input carries no control flow. -/
theorem IsDataInput.isExec {node port : String} {k : Kind β} {p : Port} (h : g.IsDataInput r node port)
    (hk : g.kindOf r node = .ok k) (hp : k.inputPort port = some p) : p.isExec = false := by
  obtain ⟨l, hl, hport⟩ := h
  obtain rfl := Except.ok.inj (hk.symm.trans hl)
  simpa [Kind.dataInput, hp, Option.filter_some, apply_ite] using hport

/-- Nothing ends at a node that is not there. -/
theorem Wired.countP_eq_zero (h : g.Wired r) {node : String} (hn : g.node? node = none) (port : String) :
    (g.edges.countP fun e => e.endsAt node port) = 0 := by
  refine List.countP_eq_zero.mpr fun e he hend => ?_
  have ht := (h.edges e he).touches hn
  simp only [Edge.touches, Bool.or_eq_false_iff, beq_eq_false_iff_ne] at ht
  simp only [Edge.endsAt, Bool.and_eq_true, beq_iff_eq] at hend
  exact ht.2 hend.1.symm

theorem addNode_eq_ok {k : Kind β} {overrides : Named} {id : String} {n : Node}
    (h : g.addNode k overrides id = .ok (n, g')) :
    g.node? id = none ∧ ∃ literals, startingLiterals k id overrides = .ok literals ∧
      n = { serial := g.nextSerial, id := id, kind := k.id, literals := literals } ∧
      g' = { g with nodes := g.nodes ++ [n], nextSerial := g.nextSerial + 1 } := by
  simp only [addNode, bind, Except.bind, pure, Except.pure, throw, throwThe, MonadExceptOf.throw] at h
  rw [hasNode_eq_isSome] at h
  cases hn : g.node? id with
  | some m => simp [hn] at h
  | none =>
    cases hs : startingLiterals k id overrides with
    | error err => simp [hn, hs] at h
    | ok literals =>
      simp only [hn, hs, Option.isSome_none, Bool.false_eq_true, if_false, Except.ok.injEq,
        Prod.mk.injEq] at h
      exact ⟨rfl, literals, rfl, h.1.symm, by rw [← h.2, ← h.1]⟩

theorem Wired.addNode (h : g.Wired r) {k : Kind β} {overrides : Named} {id : String} {n : Node}
    (ha : g.addNode k overrides id = .ok (n, g')) : g'.Wired r := by
  obtain ⟨hnone, literals, hs, hn, rfl⟩ := addNode_eq_ok ha
  have hid : n.id = id := by rw [hn]
  have hkinds : ∀ other, other ≠ id → _ = g.kindOf r other := fun other hne => by
    have hnid : n.id ≠ other := by rw [hid]; exact hne.symm
    exact kindOf_congr (congrArg _ (node?_append_of_ne (g := g) hnid))
  refine ⟨h.matcher, ?_, fun e he => ?_, h.distinct, fun node port hdata => ?_⟩
  · rw [List.map_append, List.nodup_append]
    refine ⟨h.ids, List.nodup_singleton _, fun a ha b hb hab => ?_⟩
    obtain ⟨m, hm, rfl⟩ := List.mem_map.mp ha
    simp only [List.map_cons, List.map_nil, List.mem_singleton] at hb
    have hfound := h.node?_of_mem hm
    rw [hab, hb, hid, hnone] at hfound
    cases hfound
  · refine (h.edges e he).congr fun other ht => hkinds other ?_
    rintro rfl
    rw [(h.edges e he).touches hnone] at ht
    cases ht
  · by_cases hnode : node = id
    · subst hnode
      have hzero := h.countP_eq_zero hnone port
      show (g.edges.countP fun e => e.endsAt node port) ≤ 1
      omega
    · exact h.single node port (hdata.congr (hkinds node hnode))

theorem Sound.addNode (h : g.Sound r) (hd : r.Distinct) {kind : String} {k : Kind β}
    (hk : r.find? kind = some k) {overrides : Named} {id : String} {n : Node}
    (ha : g.addNode k overrides id = .ok (n, g')) : g'.Sound r := by
  refine (h.wired.addNode ha).sound fun m hm => ?_
  obtain ⟨-, literals, hs, hn, rfl⟩ := addNode_eq_ok ha
  rcases List.mem_append.mp hm with hm | hm
  · exact h.nodes m hm
  · obtain rfl := List.mem_singleton.mp hm
    have hkid : k.id = kind := by simpa using List.find?_some hk
    have hin := (hd k (List.mem_of_find?_eq_some hk)).1
    refine ⟨k, ?_, ?_⟩
    · rw [hn, hkid, hk]
    · rw [hn]
      exact allows_startingLiterals hin hs

theorem removeNode_eq_ok {id : String} {n : Node} (h : g.removeNode id = .ok (n, g')) :
    g.node? id = some n ∧ g' = { g with
      nodes := g.nodes.filter fun m => m.id != id
      edges := g.edges.filter fun e => !e.touches id } := by
  simp only [removeNode, requireNode, bind, Except.bind, pure, Except.pure] at h
  cases hn : g.node? id with
  | none => simp [hn] at h
  | some m =>
    simp only [hn, Except.ok.injEq, Prod.mk.injEq] at h
    exact ⟨by rw [h.1], h.2.symm⟩

theorem Wired.removeNode (h : g.Wired r) {id : String} {n : Node}
    (hr : g.removeNode id = .ok (n, g')) : g'.Wired r := by
  obtain ⟨-, rfl⟩ := removeNode_eq_ok hr
  have hkinds : ∀ other, other ≠ id → _ = g.kindOf r other := fun other hne =>
    kindOf_congr (congrArg _ (node?_filter_of_ne (g := g)
      (g.edges.filter fun e => !e.touches id) hne))
  refine ⟨h.matcher, ?_, fun e he => ?_, ?_, fun node port hdata => ?_⟩
  · exact h.ids.sublist (List.filter_sublist.map _)
  · obtain ⟨he, hkeep⟩ := List.mem_filter.mp he
    refine (h.edges e he).congr fun other ht => hkinds other ?_
    rintro rfl
    simp [ht] at hkeep
  · exact h.distinct.sublist List.filter_sublist
  · have hle : ((g.edges.filter fun e => !e.touches id).countP fun e => e.endsAt node port) ≤
        g.edges.countP fun e => e.endsAt node port := List.filter_sublist.countP_le
    by_cases hnode : node = id
    · subst hnode
      obtain ⟨k, hk, -⟩ := hdata
      obtain ⟨m, hm, -⟩ := kindOf_eq_ok_iff.mp hk
      have hmem := List.mem_of_find?_eq_some hm
      have hmid : m.id = node := by simpa using List.find?_some hm
      simp [hmid] at hmem
    · have hone := h.single node port (hdata.congr (hkinds node hnode))
      exact Nat.le_trans hle hone

theorem Sound.removeNode (h : g.Sound r) {id : String} {n : Node}
    (hr : g.removeNode id = .ok (n, g')) : g'.Sound r := by
  refine (h.wired.removeNode hr).sound fun m hm => ?_
  obtain ⟨-, rfl⟩ := removeNode_eq_ok hr
  exact h.nodes m (List.mem_of_mem_filter hm)

/-- Changes of what nodes hold, which leave their ids and kinds alone. -/
theorem Wired.mapNodes (h : g.Wired r) {f : Node → Node} (hid : ∀ n, (f n).id = n.id)
    (hkind : ∀ n, (f n).kind = n.kind) : Graph.Wired r { g with nodes := g.nodes.map f } := by
  have hkinds : ∀ id, { g with nodes := g.nodes.map f }.kindOf r id = g.kindOf r id := kindOf_map hid hkind
  refine ⟨h.matcher, ?_, fun e he => (h.edges e he).congr fun id _ => hkinds id, h.distinct,
    fun node port hdata => h.single node port (hdata.congr (hkinds node))⟩
  rw [List.map_map]
  have hids : Node.id ∘ f = Node.id := funext hid
  rw [hids]
  exact h.ids

theorem Sound.mapNodes (h : g.Sound r) {f : Node → Node} (hid : ∀ n, (f n).id = n.id)
    (hkind : ∀ n, (f n).kind = n.kind) (hfits : ∀ n ∈ g.nodes, (f n).Fits r) :
    Graph.Sound r { g with nodes := g.nodes.map f } := by
  refine (h.wired.mapNodes hid hkind).sound fun m hm => ?_
  obtain ⟨n, hn, rfl⟩ := List.mem_map.mp hm
  exact hfits n hn

theorem retag_eq_ok {id kind : String} (h : g.retag id kind = .ok g') :
    g' = g.modifyNode id fun n => { n with kind := kind } := by
  unfold retag at h
  split at h
  · exact (Except.ok.inj h).symm
  · cases h

theorem setLiteral_eq_ok {id port : String} {v : Value} (h : g.setLiteral r id port v = .ok g') :
    ∃ n k, g.node? id = some n ∧ r.find? n.kind = some k ∧ (k.dataInput port).isSome = true ∧
      g' = g.modifyNode id fun n => { n with literals := n.literals.set port v } := by
  simp only [setLiteral, requireNode, Registry.lookup, bind, Except.bind, pure, Except.pure] at h
  cases hn : g.node? id with
  | none => simp [hn] at h
  | some n =>
    cases hk : r.find? n.kind with
    | none => simp [hn, hk] at h
    | some k =>
      cases hp : k.dataInput port with
      | none => simp [hn, hk, hp, throw, throwThe, MonadExceptOf.throw] at h
      | some p =>
        simp only [hn, hk, hp, Except.ok.injEq] at h
        exact ⟨n, k, rfl, hk, by rw [hp, Option.isSome_some], h.symm⟩

theorem Sound.setLiteral (h : g.Sound r) {id port : String} {v : Value}
    (hs : g.setLiteral r id port v = .ok g') : g'.Sound r := by
  obtain ⟨n, k, hn, hk, hport, rfl⟩ := setLiteral_eq_ok hs
  refine h.mapNodes (fun m => ?_) (fun m => ?_) fun m hm => ?_
  · split <;> rfl
  · split <;> rfl
  · split
    · next hmid =>
      -- ids are distinct, so this is the node whose kind was asked
      have hfound := h.wired.node?_of_mem hm
      rw [beq_iff_eq.mp hmid, hn] at hfound
      obtain rfl := Option.some.inj hfound
      obtain ⟨l, hl, hallows⟩ := h.nodes n hm
      obtain rfl := Option.some.inj (hk.symm.trans hl)
      exact ⟨k, hk, hallows.set hport v⟩
    · exact h.nodes m hm

/-- What is left of the edges when a new one is added: all of them at a control flow input, all but the
first that ends there at a data input. -/
def remaining (g : Graph) (e : Edge) (dest : Port) : List Edge :=
  if dest.isExec then g.edges
  else match g.incoming? e.dest e.destPort with
    | some old => g.edges.erase old
    | none => g.edges

theorem addEdge_eq_ok {e : Edge} {old : Option Edge} (h : g.addEdge r e = .ok (old, g')) :
    ∃ k l p q, g.kindOf r e.source = .ok k ∧ g.kindOf r e.dest = .ok l ∧
      k.outputPort e.sourcePort = some p ∧ l.inputPort e.destPort = some q ∧
      g.matcher.accepts p q = true ∧
      (e ∈ g.edges ∧ g' = g ∨ e ∉ g.edges ∧ g' = { g with edges := g.remaining e q ++ [e] }) := by
  simp only [addEdge, bind, Except.bind, pure, Except.pure, throw, throwThe, MonadExceptOf.throw] at h
  cases hk : g.kindOf r e.source with
  | error err => simp [hk] at h
  | ok k =>
    cases hl : g.kindOf r e.dest with
    | error err => simp [hk, hl] at h
    | ok l =>
      cases hp : k.outputPort e.sourcePort with
      | none => simp [hk, hl, hp] at h
      | some p =>
        cases hq : l.inputPort e.destPort with
        | none => simp [hk, hl, hp, hq] at h
        | some q =>
          simp only [hk, hl, hp, hq] at h
          refine ⟨k, l, p, q, rfl, rfl, hp, hq, ?_⟩
          split at h
          · cases h
          · next hacc =>
            refine ⟨by simpa using hacc, ?_⟩
            split at h
            · next hold =>
              obtain ⟨-, rfl⟩ := Prod.mk.inj (Except.ok.inj h)
              exact .inl ⟨by simpa using hold, rfl⟩
            · next hnew =>
              refine .inr ⟨by simpa using hnew, ?_⟩
              unfold remaining
              split at h
              · next hexec =>
                obtain ⟨-, rfl⟩ := Prod.mk.inj (Except.ok.inj h)
                rw [if_pos hexec]
              · next hexec =>
                rw [if_neg hexec]
                cases hin : g.incoming? e.dest e.destPort <;>
                  (rw [hin] at h; obtain ⟨-, rfl⟩ := Prod.mk.inj (Except.ok.inj h); rfl)

theorem remaining_sublist (g : Graph) (e : Edge) (dest : Port) :
    (g.remaining e dest).Sublist g.edges := by
  unfold remaining
  split
  · exact List.Sublist.refl _
  · split
    · exact List.erase_sublist
    · exact List.Sublist.refl _

/-- Before an edge is added at a data input, nothing is left that ends there. -/
theorem Wired.countP_remaining (h : g.Wired r) {e : Edge} {q : Port}
    (hdata : g.IsDataInput r e.dest e.destPort) (hq : q.isExec = false) :
    ((g.remaining e q).countP fun x => x.endsAt e.dest e.destPort) = 0 := by
  have hone := h.single _ _ hdata
  simp only [remaining, hq, Bool.false_eq_true, if_false]
  cases hin : g.incoming? e.dest e.destPort with
  | none =>
    refine List.countP_eq_zero.mpr fun x hx => ?_
    exact List.find?_eq_none.mp hin x hx
  | some old =>
    have hmem := List.mem_of_find?_eq_some hin
    have hends := List.find?_some hin
    have hcount := (List.perm_cons_erase hmem).countP_eq fun x => x.endsAt e.dest e.destPort
    rw [List.countP_cons, if_pos hends] at hcount
    show ((g.edges.erase old).countP fun x => x.endsAt e.dest e.destPort) = 0
    omega

theorem Wired.addEdge (h : g.Wired r) {e : Edge} {old : Option Edge}
    (ha : g.addEdge r e = .ok (old, g')) : g'.Wired r := by
  obtain ⟨k, l, p, q, hk, hl, hp, hq, hacc, ⟨-, rfl⟩ | ⟨hnew, rfl⟩⟩ := addEdge_eq_ok ha
  · exact h
  have hsub := g.remaining_sublist e q
  have hjoins : g.Joins r e := by
    refine ⟨k, l, p, q, hk, hl, hp, hq, ?_⟩
    rw [h.matcher] at hacc
    exact Matcher.accepts_byType_iff.mp hacc
  refine ⟨h.matcher, h.ids, fun x hx => ?_, ?_, fun node port hdata => ?_⟩
  · rcases List.mem_append.mp hx with hx | hx
    · exact h.edges x (hsub.subset hx)
    · rw [List.mem_singleton.mp hx]
      exact hjoins
  · rw [List.nodup_append]
    refine ⟨h.distinct.sublist hsub, List.nodup_singleton e, fun a ha b hb hab => ?_⟩
    rw [List.mem_singleton] at hb
    exact hnew (hb ▸ hab ▸ hsub.subset ha)
  · have hdata : g.IsDataInput r node port := hdata
    rw [List.countP_append]
    by_cases hends : e.endsAt node port = true
    · obtain ⟨rfl, rfl⟩ : e.dest = node ∧ e.destPort = port := by simpa [Edge.endsAt] using hends
      rw [h.countP_remaining hdata (hdata.isExec hl hq)]
      simp [hends]
    · have hle : ((g.remaining e q).countP fun x => x.endsAt node port) ≤
          g.edges.countP fun x => x.endsAt node port := hsub.countP_le
      have hone := h.single node port hdata
      rw [List.countP_singleton, if_neg hends]
      omega

theorem Sound.addEdge (h : g.Sound r) {e : Edge} {old : Option Edge}
    (ha : g.addEdge r e = .ok (old, g')) : g'.Sound r := by
  have hwired := h.wired.addEdge ha
  obtain ⟨-, -, -, q, -, -, -, -, -, ⟨-, rfl⟩ | ⟨-, rfl⟩⟩ := addEdge_eq_ok ha
  · exact h
  · exact hwired.sound h.nodes

/-- A record adds its node, and lays its literals over those that the kind starts with. -/
theorem addRecord_eq_ok {x : NodeRecord} (h : g.addRecord r x = .ok g') :
    ∃ k n g₁, r.find? x.kind = some k ∧ g.addNode k [] x.id = .ok (n, g₁) ∧
      g' = g₁.modifyNode x.id fun n => { n with literals := n.literals.update x.literals } := by
  simp only [addRecord, Registry.lookup, bind, Except.bind, pure, Except.pure] at h
  cases hk : r.find? x.kind with
  | none => simp [hk] at h
  | some k =>
    cases hadd : g.addNode k [] x.id with
    | error err => simp [hk, hadd] at h
    | ok res =>
      simp only [hk, hadd, Except.ok.injEq] at h
      exact ⟨k, res.1, res.2, rfl, hadd, h.symm⟩

/-- What holds without nodes, and what records and edges keep, holds of the graph of a document. -/
theorem ofDocument_induction {P : Graph → Prop} {matcher : Matcher} {first : Nat} {d : Document}
    (hempty : P { matcher := matcher, nextSerial := first })
    (hrecord : ∀ g x g', x ∈ d.nodes → P g → g.addRecord r x = .ok g' → P g')
    (hedge : ∀ g x old g', P g → g.addEdge r x = .ok (old, g') → P g')
    (h : Graph.ofDocument r matcher first d = .ok g) : P g := by
  simp only [ofDocument, bind, Except.bind, pure, Except.pure] at h
  split at h
  · cases h
  · next g₁ hnodes =>
    have hbuilt : P g₁ := foldlM_invariant_of_mem hrecord hempty hnodes
    refine foldlM_invariant (fun g x g' hg hx => ?_) d.edges g₁ hbuilt h
    split at hx
    · cases hx
    · next hadd =>
      obtain rfl := Except.ok.inj hx
      exact hedge g x _ _ hg hadd

theorem Wired.removeEdge (h : g.Wired r) (e : Edge) : (g.removeEdge e).Wired r :=
  ⟨h.matcher, h.ids, fun x hx => h.edges x (List.mem_of_mem_erase hx),
    h.distinct.sublist List.erase_sublist,
    fun node port hdata => Nat.le_trans List.erase_sublist.countP_le (h.single node port hdata)⟩

theorem Sound.removeEdge (h : g.Sound r) (e : Edge) : (g.removeEdge e).Sound r :=
  (h.wired.removeEdge e).sound h.nodes

/-- A graph in which nodes hold other results or other state than before, and are the same nodes. -/
def Revises (g g' : Graph) : Prop :=
  ∃ f : Node → Node, (∀ n, (f n).serial = n.serial ∧ (f n).id = n.id ∧ (f n).kind = n.kind ∧
    (f n).literals = n.literals) ∧ g' = { g with nodes := g.nodes.map f }

theorem Revises.refl (g : Graph) : g.Revises g := ⟨id, fun _ => ⟨rfl, rfl, rfl, rfl⟩, by simp⟩

theorem Sound.revises (h : g.Sound r) (hg : g.Revises g') : g'.Sound r := by
  obtain ⟨f, hf, rfl⟩ := hg
  refine h.mapNodes (fun n => (hf n).2.1) (fun n => (hf n).2.2.1) fun n hn => ?_
  obtain ⟨k, hk, hallows⟩ := h.nodes n hn
  refine ⟨k, ?_, ?_⟩
  · rw [(hf n).2.2.1, hk]
  · rw [(hf n).2.2.2]
    exact hallows

end Changes

end Graph

/-! ## Edits -/

/-- Whether a command changes the graph piece by piece: a node or an edge that comes or goes, or a
literal. -/
def Command.editsGraph : Command → Bool
  | .addNode _ _ _ => true
  | .removeNode _ => true
  | .addEdge _ => true
  | .connect _ => true
  | .removeEdge _ => true
  | .setLiteral _ _ _ => true
  | _ => false

namespace Engine

/-- The engine after some commands, whether they succeed or not. -/
def edited (e : Engine) (cs : List Command) : Engine := cs.foldl (fun e c => (e.command c).2) e

theorem revises_modifyNode (e : Engine) (serial : Nat) {f : Node → Node}
    (hf : ∀ n, (f n).serial = n.serial ∧ (f n).id = n.id ∧ (f n).kind = n.kind ∧
      (f n).literals = n.literals) : e.graph.Revises (e.modifyNode serial f).graph := by
  refine ⟨fun n => if n.serial == serial then f n else n, fun n => ?_, rfl⟩
  dsimp only
  split
  · exact hf n
  · exact ⟨rfl, rfl, rfl, rfl⟩

theorem tearDown_graph (e : Engine) (n : Node) :
    e.graph.Revises (e.tearDown n).graph ∧ (e.tearDown n).registry = e.registry := by
  unfold tearDown
  split
  · exact ⟨.refl _, rfl⟩
  · exact ⟨revises_modifyNode e _ fun _ => ⟨rfl, rfl, rfl, rfl⟩, rfl⟩
  · exact ⟨.refl _, rfl⟩

theorem disarm_graph (e : Engine) (n : Node) :
    e.graph.Revises (e.disarm n).2.graph ∧ (e.disarm n).2.registry = e.registry := by
  unfold disarm
  split
  · exact ⟨.refl _, rfl⟩
  · exact tearDown_graph _ n

/-- An engine with a registry, by which its graph is whole. -/
def Intact (r : Registry Behavior) (e : Engine) : Prop := e.graph.Sound r ∧ e.registry = r

section Edits

variable {r : Registry Behavior} {e : Engine}

theorem Intact.addNode (h : e.Intact r) (hd : r.Distinct) (kind : String) (literals : Named)
    (id : Option String) : (e.addNode kind literals id).2.Intact r := by
  obtain ⟨hg, hr⟩ := h
  have hid : (e.nodeId id).2.graph = e.graph ∧ (e.nodeId id).2.registry = e.registry := by
    unfold nodeId
    split <;> exact ⟨rfl, rfl⟩
  unfold Engine.addNode Registry.lookup
  rw [hr]
  cases hk : r.find? kind with
  | none => exact ⟨hg, hr⟩
  | some k =>
    dsimp only
    split
    · exact ⟨hid.1 ▸ hg, hid.2.trans hr⟩
    · next n g' hadd =>
      rw [hid.1] at hadd
      exact ⟨hg.addNode hd hk hadd, hid.2.trans hr⟩

theorem Intact.removeNode (h : e.Intact r) (id : String) : (e.removeNode id).2.Intact r := by
  unfold Engine.removeNode
  split
  · exact h
  · next n _ =>
    obtain ⟨hg, hr⟩ := disarm_graph e n
    have hd : (e.disarm n).2.Intact r := ⟨h.1.revises hg, hr.trans h.2⟩
    split
    · next heq =>
      rw [heq] at hd
      exact hd
    · next heq =>
      rw [heq] at hd
      split
      · exact hd
      · next hremove => exact ⟨hd.1.removeNode hremove, hd.2⟩

theorem Intact.addEdge (h : e.Intact r) (x : Edge) : (e.addEdge x).2.Intact r := by
  unfold Engine.addEdge
  split
  · exact h
  · next hadd =>
    rw [h.2] at hadd
    exact ⟨h.1.addEdge hadd, h.2⟩

/-- Each edit keeps the graph whole, whether it succeeds or not. -/
theorem Intact.command (h : e.Intact r) (hd : r.Distinct) {c : Command} (hc : c.editsGraph = true) :
    (e.command c).2.Intact r := by
  have hcases := e.command_cases c
  generalize (e.command c).2 = e' at hcases ⊢
  cases hcases with
  | unchanged => exact h
  | addNode kind literals id => exact h.addNode hd kind literals id
  | removeNode id => exact h.removeNode id
  | addEdge x | connect x => exact h.addEdge x
  | removeEdge x => exact ⟨h.1.removeEdge x, h.2⟩
  | setLiteral hset =>
    rw [h.2] at hset
    exact ⟨h.1.setLiteral hset, h.2⟩
  | _ => cases hc

theorem Intact.edited (h : e.Intact r) (hd : r.Distinct) {cs : List Command}
    (hcs : ∀ c ∈ cs, c.editsGraph = true) : (e.edited cs).Intact r := by
  induction cs generalizing e with
  | nil => exact h
  | cons c rest ih =>
    obtain ⟨hc, hrest⟩ := List.forall_mem_cons.mp hcs
    exact ih (h.command hd hc) hrest

end Edits

end Engine

/-- Whatever is asked of the empty graph, piece by piece, and whether it is granted or refused: the
graph is whole. -/
theorem sound_of_edits (e : Engine) (hd : e.registry.Distinct) (hempty : e.graph = {}) (cs : List Command)
    (hcs : ∀ c ∈ cs, c.editsGraph = true) : (e.edited cs).graph.Sound e.registry := by
  have hfirst : e.Intact e.registry := ⟨hempty ▸ .empty e.registry, rfl⟩
  exact (hfirst.edited hd hcs).1

/-- Two sources of numbers and a statement that takes one. -/
def workbench : Engine :=
  { registry := { kinds := [
      .sketch "source" .expression [] [{ id := "value", valueType := .number }] none,
      .sketch "sink" .statement [{ id := "exec", valueType := .exec },
        { id := "a", valueType := .number, default := some (.int 1) }] [Library.leads "exec"] none] } }

/-- Two writers of one input one after the other, an edge that is there already, an edge that does not
fit, an id that is taken, an input that does not exist, and a node that goes with its edges. -/
def workbenchEdits : List Command :=
  [.addNode "source" [] (some "s"), .addNode "source" [] (some "u"), .addNode "sink" [] (some "t"),
    .connect ⟨"s", "value", "t", "a"⟩, .connect ⟨"u", "value", "t", "a"⟩, .addEdge ⟨"u", "value", "t", "a"⟩,
    .connect ⟨"s", "value", "t", "exec"⟩, .connect ⟨"t", "exec", "t", "exec"⟩,
    .addNode "sink" [] (some "t"), .setLiteral "t" "a" (.int 5), .setLiteral "t" "b" (.int 5),
    .removeEdge ⟨"s", "value", "t", "a"⟩, .removeNode "s", .removeNode "s"]

theorem sound_workbench : (workbench.edited workbenchEdits).graph.Sound workbench.registry ∧
    (workbench.edited workbenchEdits).graph.edges = [⟨"u", "value", "t", "a"⟩, ⟨"t", "exec", "t", "exec"⟩] :=
  ⟨sound_of_edits workbench (by decide) rfl workbenchEdits (by decide), by decide +kernel⟩

end Patchbay
