import Mathlib.Data.List.TakeWhile
import Patchbay.Proofs.Validity

/-!
# The cycle that a search finds

A search for a cycle of data keeps the pulls that lead to the innermost node beside the nodes that it explores, and
takes one of them for every node but the outermost. So when it comes back to a node that it explores, the pulls from
there on are a cycle. The search ends: a bound on its steps never cuts it short, for each node is left once and each
edge is looked at once.

Contents:
* `Graph.Feeds`: whether a node pulls over an edge of data; `Graph.IsCycle`: a cycle of such pulls.
* `Search.Ends`, `Graph.Searches`: the search with as many steps as it takes.
* `Trail`: the pulls that lead to a node.

Results:
* `Search.run_ends`, `Graph.searches_dataCycle?`: the bound is large enough.
* `Search.isLoop_of_step`: what a search finds is a cycle.
* `dataCycle?_exact`: the search, on any graph that edits and registrations lead to.
-/

namespace Patchbay

namespace Graph

/-! ## Cycles -/

section Definitions

variable {β : Type}

/-- Whether a node pulls from another one over an edge whose source port carries no control flow now. -/
def Feeds (g : Graph) (r : Registry β) (node port source : String) : Prop :=
  ∃ x ∈ g.edges, x.dest = node ∧ x.destPort = port ∧ x.source = source ∧ g.isExecEdge r x = .ok false

/-- Whether inputs are those of a cycle: different nodes, each of which pulls from the next one over its input, and
the last from the first. -/
structure IsCycle (g : Graph) (r : Registry β) (pulls : List (String × String)) : Prop where
  nonempty : pulls ≠ []
  nodup : (pulls.map Prod.fst).Nodup
  feeds : ∀ i a b, pulls[i]? = some a → pulls[(i + 1) % pulls.length]? = some b → g.Feeds r a.1 a.2 b.1

/-- Whether a search ends, with a cycle or with the nodes that were explored. -/
inductive Search.Ends (pulls : String → List (String × String)) :
    Search → List (String × String) ⊕ List String → Prop
  | done {s : Search} (h : s.stack = []) : Ends pulls s (.inr s.finished)
  | finds {s : Search} {c : List (String × String)} (h : s.stack ≠ []) (hstep : s.step pulls = .inl c) :
      Ends pulls s (.inl c)
  | next {s s' : Search} {o : List (String × String) ⊕ List String} (h : s.stack ≠ [])
      (hstep : s.step pulls = .inr s') (hrest : Ends pulls s' o) : Ends pulls s o

/-- Whether searches from nodes, one after another, end with a cycle or without one. -/
inductive Searches (g : Graph) (r : Registry β) : List String → List Node → Option (List (String × String)) → Prop
  | done {finished : List String} : Searches g r finished [] none
  | known {finished : List String} {n : Node} {ns : List Node} {o : Option (List (String × String))}
      (h : n.id ∈ finished) (hrest : Searches g r finished ns o) : Searches g r finished (n :: ns) o
  | finds {finished : List String} {n : Node} {ns : List Node} {c : List (String × String)} (h : n.id ∉ finished)
      (hends : Search.Ends (g.pulls r) { stack := [(n.id, g.pulls r n.id)], finished := finished } (.inl c)) :
      Searches g r finished (n :: ns) (some c)
  | next {finished finished' : List String} {n : Node} {ns : List Node} {o : Option (List (String × String))}
      (h : n.id ∉ finished)
      (hends : Search.Ends (g.pulls r) { stack := [(n.id, g.pulls r n.id)], finished := finished } (.inr finished'))
      (hrest : Searches g r finished' ns o) : Searches g r finished (n :: ns) o

end Definitions

/-! ## The pulls that lead to a node -/

/-- Pulls that lead to the innermost of the nodes being explored, last first: one for each node but the
outermost. -/
inductive Trail (pulls : String → List (String × String)) :
    List (String × List (String × String)) → List (String × String) → Prop
  | nil : Trail pulls [] []
  | root (f : String × List (String × String)) : Trail pulls [f] []
  | cons {f f' : String × List (String × String)} {frames : List (String × List (String × String))}
      {path : List (String × String)} {port : String} (hpull : (port, f.1) ∈ pulls f'.1)
      (h : Trail pulls (f' :: frames) path) : Trail pulls (f :: f' :: frames) ((f'.1, port) :: path)

/-- Inputs of different nodes, each of which is pulled for the one before it, and the first for the last. -/
structure IsLoop (pulls : String → List (String × String)) (c : List (String × String)) : Prop where
  nonempty : c ≠ []
  nodup : (c.map Prod.fst).Nodup
  chain : c.IsChain fun a b => (a.2, b.1) ∈ pulls a.1
  closes : ((c.getLast nonempty).2, (c.head nonempty).1) ∈ pulls (c.getLast nonempty).1

section Trails

variable {pulls : String → List (String × String)} {f : String × List (String × String)}
  {frames : List (String × List (String × String))} {path : List (String × String)} {s s' : Search}

namespace Trail

/-- What is left to be looked at does not matter. -/
theorem replace {u : String} {left left' : List (String × String)} (h : Trail pulls ((u, left) :: frames) path) :
    Trail pulls ((u, left') :: frames) path := by
  cases h with
  | root => exact .root _
  | cons hpull h => exact .cons hpull h

theorem tail (h : Trail pulls (f :: frames) path) : Trail pulls frames (path.drop 1) := by
  cases h with
  | root => exact .nil
  | cons _ h => exact h

theorem nodes (h : Trail pulls (f :: frames) path) : path.map Prod.fst = frames.map Prod.fst := by
  induction path generalizing f frames with
  | nil =>
    cases h
    rfl
  | cons p path ih =>
    cases h with
    | cons _ h => rw [List.map_cons, List.map_cons, ih h]

/-- Each pull leads to the node of the next one. -/
theorem chain (h : Trail pulls (f :: frames) path) (port : String) :
    List.IsChain (fun a b => (b.2, a.1) ∈ pulls b.1) ((f.1, port) :: path) := by
  induction path generalizing f frames port with
  | nil => exact List.isChain_singleton _
  | cons p path ih =>
    cases h with
    | cons hpull h => exact List.isChain_cons_cons.mpr ⟨hpull, ih h _⟩

end Trail

/-- The pulls lead to the innermost node after a step. -/
theorem Search.trail_step (h : Trail pulls s.stack s.path) (hleft : ∀ f ∈ s.stack, ∀ x ∈ f.2, x ∈ pulls f.1)
    (hs : s.step pulls = .inr s') : Trail pulls s'.stack s'.path := by
  obtain ⟨stack, path, finished⟩ := s
  unfold step at hs
  split at hs
  · obtain rfl := Sum.inr.inj hs
    exact h
  · next u frames heq =>
    obtain rfl : stack = _ := heq
    obtain rfl := Sum.inr.inj hs
    exact h.tail
  · next u port v left frames heq =>
    obtain rfl : stack = _ := heq
    split at hs
    · cases hs
    · split at hs
      · obtain rfl := Sum.inr.inj hs
        exact h.replace
      · obtain rfl := Sum.inr.inj hs
        exact .cons (hleft _ List.mem_cons_self _ List.mem_cons_self) h.replace

/-- What a step finds is a cycle. -/
theorem Search.isLoop_of_step (h : Trail pulls s.stack s.path) (hsound : Sound pulls s)
    (hleft : ∀ f ∈ s.stack, ∀ x ∈ f.2, x ∈ pulls f.1) {c : List (String × String)}
    (hs : s.step pulls = .inl c) : IsLoop pulls c := by
  obtain ⟨stack, path, finished⟩ := s
  unfold step at hs
  split at hs
  · cases hs
  · cases hs
  · next u port v left frames heq =>
    obtain rfl : stack = _ := heq
    split at hs
    · next hbusy =>
      obtain rfl := Sum.inl.inj hs
      -- the pulls that lead to the innermost node, and its own
      have hall : path.reverse ++ [(u, port)] = ((u, port) :: path).reverse := List.reverse_cons.symm
      have hnodes : ((u, port) :: path).map Prod.fst = u :: frames.map Prod.fst := congrArg (u :: ·) h.nodes
      have hsuffix := List.dropWhile_suffix (l := path.reverse ++ [(u, port)]) fun e => e.1 != v
      have hne : (path.reverse ++ [(u, port)]).dropWhile (fun e => e.1 != v) ≠ [] := by
        obtain ⟨f, hf, hfv⟩ := List.any_eq_true.mp hbusy
        have hv : v ∈ u :: frames.map Prod.fst :=
          List.mem_map.mpr ⟨f, hf, beq_iff_eq.mp hfv⟩
        rw [← hnodes] at hv
        obtain ⟨e, he, hev⟩ := List.mem_map.mp hv
        intro hnil
        have hother := List.dropWhile_eq_nil_iff.mp hnil e (hall ▸ List.mem_reverse.mpr he)
        simp [hev] at hother
      refine ⟨hne, ?_, ?_, ?_⟩
      · refine List.Nodup.sublist (hsuffix.sublist.map _) ?_
        rw [hall, List.map_reverse, hnodes]
        exact (List.nodup_reverse).mpr hsound.nodup
      · refine List.IsChain.suffix ?_ hsuffix
        rw [hall, List.isChain_reverse]
        exact h.chain port
      · have hhead := List.head_dropWhile_not _ hne
        rw [bne_eq_false_iff_eq] at hhead
        rw [hsuffix.getLast hne, List.getLast_append_singleton, hhead]
        exact hleft _ List.mem_cons_self _ List.mem_cons_self
    · split at hs <;> cases hs

/-! ## Searches without a bound -/

/-- A bound that leaves room for the steps that are left does not cut a search short. -/
theorem Search.run_ends {U : Finset String} (hU : ∀ u v, Draws pulls u v → v ∈ U) {bound : Nat} (h : Sound pulls s)
    (hleft : ∀ f ∈ s.stack, ∀ x ∈ f.2, x ∈ pulls f.1) (hbound : effort pulls U s ≤ bound) :
    Ends pulls s (Search.run pulls bound s) := by
  induction bound generalizing s with
  | zero =>
    refine .done ?_
    cases hstack : s.stack with
    | nil => rfl
    | cons f frames =>
      simp only [effort, hstack, List.map_cons, List.sum_cons] at hbound
      omega
  | succ bound ih =>
    unfold run
    split
    · next hnil => exact .done (List.isEmpty_iff.mp hnil)
    · next hne =>
      have hstack : s.stack ≠ [] := fun hnil => hne (List.isEmpty_iff.mpr hnil)
      split
      · next c hstep => exact .finds hstack hstep
      · next s' hstep =>
        have hs := steps_of_step (Bool.eq_false_iff.mpr hne) hstep
        have heffort := effort_step hU h hleft hs
        exact .next hstack hstep (ih (h.step hs) (left_step hleft hs) (by omega))

/-- A search that ends with a cycle has found one. -/
theorem Search.Ends.isLoop {c : List (String × String)} (h : Ends pulls s (.inl c)) (htrail : Trail pulls s.stack s.path)
    (hsound : Sound pulls s) (hleft : ∀ f ∈ s.stack, ∀ x ∈ f.2, x ∈ pulls f.1) : IsLoop pulls c := by
  generalize ho : Sum.inl c = o at h
  induction h with
  | done => cases ho
  | finds _ hstep =>
    obtain rfl := Sum.inl.inj ho
    exact isLoop_of_step htrail hsound hleft hstep
  | next hne hstep _ ih =>
    have hs := steps_of_step (by simpa using hne) hstep
    exact ih (trail_step htrail hleft hstep) (hsound.step hs) (left_step hleft hs) ho

/-- A search that ends without a cycle leaves the nodes that were explored in order. -/
theorem Search.Ends.ranked {l : List String} (h : Ends pulls s (.inr l)) (hsound : Sound pulls s)
    (hleft : ∀ f ∈ s.stack, ∀ x ∈ f.2, x ∈ pulls f.1) : Ranked pulls l := by
  generalize ho : Sum.inr l = o at h
  induction h with
  | done =>
    obtain rfl := Sum.inr.inj ho
    exact hsound.ranked
  | finds => cases ho
  | next hne hstep _ ih =>
    have hs := steps_of_step (by simpa using hne) hstep
    exact ih (hsound.step hs) (left_step hleft hs) ho

end Trails

/-! ## Graphs -/

section Graphs

variable {β : Type} {g : Graph} {r : Registry β} {finished : List String}

theorem Spans.source_mem_ids (h : g.Spans) {x : Edge} (hx : x ∈ g.edges) : x.source ∈ g.ids := by
  obtain ⟨n, hn, hid⟩ := List.any_eq_true.mp (h x hx).1
  rw [← beq_iff_eq.mp hid]
  exact mem_ids hn

/-- Whether an edge carries control flow can be told when it comes from a node. -/
theorem Spans.isExecEdge (h : g.Spans) {x : Edge} (hx : x ∈ g.edges) : ∃ b, g.isExecEdge r x = .ok b := by
  have hsource := (h x hx).1
  rw [hasNode_eq_isSome, Option.isSome_iff_exists] at hsource
  obtain ⟨n, hn⟩ := hsource
  simp only [Graph.isExecEdge, hn]
  split <;> exact ⟨_, rfl⟩

theorem Spans.mem_pulls_iff (h : g.Spans) {u port v : String} : (port, v) ∈ g.pulls r u ↔ g.Feeds r u port v := by
  have hdata : ∀ x ∈ g.edges, g.isDataEdge r x = true ↔ g.isExecEdge r x = .ok false := by
    intro x hx
    obtain ⟨b, hb⟩ := h.isExecEdge (r := r) hx
    simp [isDataEdge, hb]
  constructor
  · intro hv
    obtain ⟨x, hx, heq⟩ := List.mem_map.mp hv
    obtain ⟨hmem, hends⟩ := List.mem_filter.mp hx
    obtain ⟨hdest, hcarries⟩ := Bool.and_eq_true_iff.mp hends
    obtain ⟨hport, hsource⟩ := Prod.mk.inj heq
    exact ⟨x, hmem, beq_iff_eq.mp hdest, hport, hsource, (hdata x hmem).mp hcarries⟩
  · rintro ⟨x, hmem, rfl, rfl, rfl, hcarries⟩
    refine List.mem_map.mpr ⟨x, List.mem_filter.mpr ⟨hmem, ?_⟩, rfl⟩
    exact Bool.and_eq_true_iff.mpr ⟨beq_self_eq_true _, (hdata x hmem).mpr hcarries⟩

theorem Spans.draws_iff (h : g.Spans) : Draws (g.pulls r) = fun u v => ∃ port, g.Feeds r u port v := by
  funext u v
  exact propext (exists_congr fun port => h.mem_pulls_iff)

/-- The bounded searches end as they do without a bound. -/
theorem searches_cycleFrom (hends : ∀ e ∈ g.edges, e.source ∈ g.ids) {ns : List Node}
    (hsub : ∀ n ∈ ns, n ∈ g.nodes) (h : Ranked (g.pulls r) finished) :
    g.Searches r finished ns (g.cycleFrom r finished ns) := by
  have hU : ∀ u v, Draws (g.pulls r) u v → v ∈ g.ids := by
    rintro u v ⟨port, hv⟩
    obtain ⟨e, he, heq⟩ := List.mem_map.mp hv
    rw [← (Prod.mk.inj heq).2]
    exact hends e (List.mem_filter.mp he).1
  induction ns generalizing finished with
  | nil => exact .done
  | cons n ns ih =>
    obtain ⟨hn, hsub⟩ := List.forall_mem_cons.mp hsub
    unfold cycleFrom
    split
    · next hdone => exact .known (List.contains_iff_mem.mp hdone) (ih hsub h)
    · next hdone =>
      have hnew : n.id ∉ finished := fun hin => hdone (List.contains_iff_mem.mpr hin)
      have hstart := Search.Sound.start h hnew
      have hleft : ∀ f ∈ [(n.id, g.pulls r n.id)], ∀ x ∈ f.2, x ∈ g.pulls r f.1 :=
        List.forall_mem_singleton.mpr fun x hx => hx
      have hrun := Search.run_ends hU hstart hleft (effort_start_le hn)
      split
      · next c heq => exact .finds hnew (heq ▸ hrun)
      · next finished' heq =>
        have hranked := (Search.run_ranked hU hstart hleft (effort_start_le hn) heq).1
        exact .next hnew (heq ▸ hrun) (ih hsub hranked)

/-- What the searches find is a cycle. -/
theorem Searches.isLoop {ns : List Node} {c : List (String × String)} (h : g.Searches r finished ns (some c))
    (hranked : Ranked (g.pulls r) finished) : IsLoop (g.pulls r) c := by
  generalize ho : some c = o at h
  have hleft : ∀ n : Node, ∀ f ∈ [(n.id, g.pulls r n.id)], ∀ x ∈ f.2, x ∈ g.pulls r f.1 :=
    fun n => List.forall_mem_singleton.mpr fun x hx => hx
  induction h with
  | done => cases ho
  | known _ _ ih => exact ih hranked ho
  | finds hnew hends =>
    obtain rfl := Option.some.inj ho
    exact hends.isLoop (.root _) (.start hranked hnew) (hleft _)
  | next hnew hends _ ih => exact ih (hends.ranked (.start hranked hnew) (hleft _)) ho

/-- Along such inputs, a node pulls from itself through others. -/
theorem IsLoop.cyclic {pulls : String → List (String × String)} {c : List (String × String)} (h : IsLoop pulls c) :
    ∃ u, Relation.TransGen (Draws pulls) u u := by
  obtain ⟨hne, -, hchain, hcloses⟩ := h
  obtain ⟨a, l, rfl⟩ := List.exists_cons_of_ne_nil hne
  have hpath := (List.relationReflTransGen_of_exists_isChain_cons l hchain rfl).lift (p := Draws pulls) Prod.fst
    fun a b hab => ⟨a.2, hab⟩
  exact ⟨a.1, .tail' hpath ⟨_, hcloses⟩⟩

theorem IsLoop.isCycle (hspans : g.Spans) {c : List (String × String)} (h : IsLoop (g.pulls r) c) :
    g.IsCycle r c := by
  refine ⟨h.nonempty, h.nodup, fun i a b ha hb => ?_⟩
  obtain ⟨hi, rfl⟩ := List.getElem?_eq_some_iff.mp ha
  obtain ⟨hj, rfl⟩ := List.getElem?_eq_some_iff.mp hb
  rw [← hspans.mem_pulls_iff]
  rcases Nat.lt_or_eq_of_le (Nat.succ_le_of_lt hi) with hnext | hlast
  · have hstep := List.isChain_iff_getElem.mp h.chain i hnext
    simpa only [Nat.mod_eq_of_lt hnext] using hstep
  · -- the last input closes the cycle
    have hcloses := h.closes
    rw [List.getLast_eq_getElem, List.head_eq_getElem] at hcloses
    obtain rfl : i = c.length - 1 := by omega
    have hfirst : (c.length - 1 + 1) % c.length = 0 := by rw [Nat.sub_add_cancel (by omega), Nat.mod_self]
    simpa only [hfirst] using hcloses

end Graphs

end Graph

/-! ## Any graph that can be reached -/

/-- The search for a cycle of data is exact. On a graph that edits and registrations lead to, every edge comes from
a node, so that what it carries can be told, and ends at one. The search ends, without a cycle if and only if no node
pulls from itself through others; and what it finds is a cycle. -/
theorem dataCycle?_exact {e : Engine} (hempty : e.graph.edges = []) {cs : List Command}
    (hcs : ∀ c ∈ cs, c.editsGraph = true ∨ c.redefines = true) :
    let g := (e.edited cs).graph
    let r := (e.edited cs).registry
    (∀ x ∈ g.edges, g.hasNode x.source = true ∧ g.hasNode x.dest = true ∧ ∃ b, g.isExecEdge r x = .ok b) ∧
      g.Searches r [] g.nodes (g.dataCycle? r) ∧
      (g.dataCycle? r = none ↔ ∀ u, ¬Relation.TransGen (fun u v => ∃ port, g.Feeds r u port v) u u) ∧
      ∀ c, g.dataCycle? r = some c → g.IsCycle r c := by
  intro g r
  have hspans : g.Spans := Engine.spans_edited (fun x hx => by rw [hempty] at hx; cases hx) hcs
  have hsources : ∀ x ∈ g.edges, x.source ∈ g.ids := fun x hx => hspans.source_mem_ids hx
  have hsearches : g.Searches r [] g.nodes (g.dataCycle? r) :=
    Graph.searches_cycleFrom hsources (fun n hn => hn) .nil
  have hloop : ∀ c, g.dataCycle? r = some c → Graph.IsLoop (g.pulls r) c := fun c hc => (hc ▸ hsearches).isLoop .nil
  refine ⟨fun x hx => ⟨(hspans x hx).1, (hspans x hx).2, hspans.isExecEdge hx⟩, hsearches, ?_,
    fun c hc => (hloop c hc).isCycle hspans⟩
  rw [← hspans.draws_iff]
  refine ⟨Graph.acyclic_of_dataCycle? hsources, fun hacyclic => ?_⟩
  cases hc : g.dataCycle? r with
  | none => rfl
  | some c =>
    obtain ⟨u, hu⟩ := (hloop c hc).cyclic
    exact absurd hu (hacyclic u)

/-! ## A ring of two nodes -/

/-- A registry with sums. -/
def adding : Engine :=
  { registry := {
      kinds := [.sketch "sum" .expression [{ id := "a" }, { id := "b" }] [Library.yields "value" .any] none] } }

/-- Two gates are wired in a ring, and so are two sums. Then the gates are registered again, and carry control flow. -/
def ringEdits : List Command :=
  [.register { kind := "gate", inputs := .listed [{ id := "in" }], outputs := .listed [Library.yields "out" .any] },
    .addNode "gate" [] (some "g"), .addNode "gate" [] (some "h"), .addNode "sum" [] (some "p"),
    .addNode "sum" [] (some "q"), .connect ⟨"g", "out", "h", "in"⟩, .connect ⟨"h", "out", "g", "in"⟩,
    .connect ⟨"p", "value", "q", "a"⟩, .connect ⟨"q", "value", "p", "b"⟩, .connect ⟨"q", "value", "q", "b"⟩,
    .register { kind := "gate", inputs := .listed [Library.leads "in"], outputs := .listed [Library.leads "out"] }]

/-- The sums are found, and the gates are not. -/
theorem dataCycle?_exact_ring :
    (adding.edited ringEdits).graph.dataCycle? (adding.edited ringEdits).registry = some [("p", "b"), ("q", "a")] ∧
      (adding.edited ringEdits).graph.IsCycle (adding.edited ringEdits).registry [("p", "b"), ("q", "a")] := by
  have hfound : (adding.edited ringEdits).graph.dataCycle? (adding.edited ringEdits).registry =
      some [("p", "b"), ("q", "a")] := by decide +kernel
  exact ⟨hfound, (dataCycle?_exact (e := adding) rfl (by decide)).2.2.2 _ hfound⟩

end Patchbay
