import Mathlib.Algebra.BigOperators.Group.Finset.Piecewise
import Mathlib.Algebra.GroupWithZero.Nat
import Mathlib.Algebra.Order.BigOperators.Group.Finset
import Mathlib.Logic.Relation
import Patchbay.Validation

/-!
# Searches for cycles

The search for a cycle of data explores every node, and a node is explored only after everything it pulls from.
So the nodes that were explored stand in an order in which no pull leads back, and a search that ends without a
cycle shows that there is none. Its bound on the number of steps is large enough: every node is left once, and
every edge is looked at once.

Contents:
* `Draws`: whether a node pulls from another one; `Ranked`: nodes in the order in which they were explored.
* `Search.Sound`: the invariant of a search; `Search.effort`: how many steps are left.

Results:
* `Ranked.acyclic`: no cycle goes through a node that was explored.
* `Search.run_ranked`: what a search explores that finds no cycle.
* `Graph.acyclic_of_dataCycle?`: a graph in which no cycle is found has none.
-/

namespace Patchbay

section Order

variable {pulls : String → List (String × String)} {u v : String} {l : List String}

/-- Whether a node pulls from another one. -/
def Draws (pulls : String → List (String × String)) (u v : String) : Prop := ∃ port, (port, v) ∈ pulls u

/-- Nodes that were explored, last first: each after everything it pulls from. -/
inductive Ranked (pulls : String → List (String × String)) : List String → Prop
  | nil : Ranked pulls []
  | cons {u : String} {l : List String} (hnew : u ∉ l) (hall : ∀ v, Draws pulls u v → v ∈ l)
      (h : Ranked pulls l) : Ranked pulls (u :: l)

/-- Pulls stay among the nodes that were explored. -/
theorem Ranked.closed (h : Ranked pulls l) (hu : u ∈ l) (hd : Relation.ReflTransGen (Draws pulls) u v) : v ∈ l := by
  induction hd with
  | refl => exact hu
  | tail _ hstep ih =>
    clear hu
    induction h with
    | nil => cases ih
    | cons _ hall _ ihl =>
      rcases List.mem_cons.mp ih with rfl | ih
      · exact List.mem_cons_of_mem _ (hall _ hstep)
      · exact List.mem_cons_of_mem _ (ihl ih)

/-- No cycle goes through a node that was explored. -/
theorem Ranked.acyclic (h : Ranked pulls l) (hu : u ∈ l) : ¬Relation.TransGen (Draws pulls) u u := by
  induction h with
  | nil => cases hu
  | cons hnew hall hl ih =>
    rcases List.mem_cons.mp hu with rfl | hu
    · intro hcycle
      obtain ⟨v, hstep, hback⟩ := Relation.TransGen.head'_iff.mp hcycle
      exact hnew (hl.closed (hall v hstep) hback)
    · exact ih hu

end Order

/-! ## The search -/

namespace Graph

section Search

variable {pulls : String → List (String × String)} {finished : List String} {s s' : Search}

/-- Whether everything that nodes being explored pull from was explored, is left to be looked at, or is being
explored right above them. -/
inductive Exploring (pulls : String → List (String × String)) (finished : List String) :
    Option String → List (String × List (String × String)) → Prop
  | nil (above : Option String) : Exploring pulls finished above []
  | cons {above : Option String} {u : String} {left : List (String × String)}
      {frames : List (String × List (String × String))}
      (hall : ∀ port v, (port, v) ∈ pulls u → (port, v) ∈ left ∨ v ∈ finished ∨ above = some v)
      (h : Exploring pulls finished (some u) frames) : Exploring pulls finished above ((u, left) :: frames)

/-- More nodes have been explored. -/
theorem Exploring.mono {finished' : List String} {above : Option String}
    {frames : List (String × List (String × String))} (h : Exploring pulls finished above frames)
    (hsub : ∀ v ∈ finished, v ∈ finished') : Exploring pulls finished' above frames := by
  induction h with
  | nil above => exact .nil above
  | cons hall _ ih => exact .cons (fun port v hv => (hall port v hv).imp_right (.imp_left (hsub v))) ih

/-- The node above has been explored. -/
theorem Exploring.explored {u : String} {frames : List (String × List (String × String))}
    (h : Exploring pulls finished (some u) frames) : Exploring pulls (u :: finished) none frames := by
  cases h with
  | nil => exact .nil none
  | cons hall h =>
    refine .cons (fun port v hv => ?_) (h.mono fun v hv => List.mem_cons_of_mem u hv)
    rcases hall port v hv with hleft | hdone | habove
    · exact .inl hleft
    · exact .inr (.inl (List.mem_cons_of_mem u hdone))
    · rw [Option.some.inj habove]
      exact .inr (.inl List.mem_cons_self)

namespace Search

/-- The nodes being explored. -/
def nodes (s : Search) : List String := s.stack.map Prod.fst

/-- The invariant of a search: what was explored was so in order, and what is being explored is new. -/
structure Sound (pulls : String → List (String × String)) (s : Search) : Prop where
  ranked : Ranked pulls s.finished
  exploring : Exploring pulls s.finished none s.stack
  fresh : ∀ u ∈ s.nodes, u ∉ s.finished
  nodup : s.nodes.Nodup

/-- A search begins with a node that was not explored yet. -/
theorem Sound.start (h : Ranked pulls finished) {u : String} (hu : u ∉ finished) :
    Sound pulls { stack := [(u, pulls u)], finished := finished } := by
  refine ⟨h, .cons (fun _ _ hv => .inl hv) (.nil _), fun v hv => ?_, List.nodup_singleton u⟩
  rw [List.mem_singleton.mp hv]
  exact hu

/-- What a step of a search may be, unless it finds a cycle. -/
inductive Steps (pulls : String → List (String × String)) : Search → Search → Prop
  /-- a node has been explored -/
  | leave {u : String} {frames : List (String × List (String × String))} {path path' : List (String × String)}
      {finished : List String} : Steps pulls ⟨(u, []) :: frames, path, finished⟩ ⟨frames, path', u :: finished⟩
  /-- what a node pulls from was explored before -/
  | skip {u v port : String} {left : List (String × String)} {frames : List (String × List (String × String))}
      {path : List (String × String)} {finished : List String} (hv : v ∈ finished) :
      Steps pulls ⟨(u, (port, v) :: left) :: frames, path, finished⟩ ⟨(u, left) :: frames, path, finished⟩
  /-- what a node pulls from is new -/
  | enter {u v port : String} {left : List (String × String)} {frames : List (String × List (String × String))}
      {path path' : List (String × String)} {finished : List String} (hdone : v ∉ finished)
      (hbusy : v ∉ u :: frames.map Prod.fst) :
      Steps pulls ⟨(u, (port, v) :: left) :: frames, path, finished⟩
        ⟨(v, pulls v) :: (u, left) :: frames, path', finished⟩

theorem steps_of_step (hne : s.stack.isEmpty = false) (h : s.step pulls = .inr s') : Steps pulls s s' := by
  obtain ⟨stack, path, finished⟩ := s
  unfold step at h
  split at h
  · next heq =>
    rw [show stack = [] from heq] at hne
    cases hne
  · next u frames heq =>
    obtain rfl : stack = _ := heq
    obtain rfl := Sum.inr.inj h
    exact .leave
  · next u port v left frames heq =>
    obtain rfl : stack = _ := heq
    split at h
    · cases h
    · next hbusy =>
      have hbusy : v ∉ u :: frames.map Prod.fst := by
        intro hin
        refine hbusy (List.any_eq_true.mpr ?_)
        rw [← List.map_cons (f := Prod.fst) (a := (u, (port, v) :: left))] at hin
        obtain ⟨f, hf, hfv⟩ := List.mem_map.mp hin
        exact ⟨f, hf, beq_iff_eq.mpr hfv⟩
      split at h
      · next hdone =>
        obtain rfl := Sum.inr.inj h
        exact .skip (List.contains_iff_mem.mp hdone)
      · next hdone =>
        obtain rfl := Sum.inr.inj h
        exact .enter (fun hin => hdone (List.contains_iff_mem.mpr hin)) hbusy

/-- A step keeps the invariant. -/
theorem Sound.step (h : Sound pulls s) (hs : Steps pulls s s') : Sound pulls s' := by
  obtain ⟨hranked, hexploring, hfresh, hnodup⟩ := h
  cases hs with
  | leave =>
    cases hexploring with
    | cons hall hrest =>
      obtain ⟨hnew, hnodup⟩ := List.nodup_cons.mp hnodup
      refine ⟨.cons (hfresh _ List.mem_cons_self) ?_ hranked, hrest.explored, fun v hv => ?_, hnodup⟩
      · rintro v ⟨port, hv⟩
        rcases hall port v hv with hleft | hdone | habove
        · cases hleft
        · exact hdone
        · cases habove
      · intro hin
        rcases List.mem_cons.mp hin with rfl | hin
        · exact hnew hv
        · exact hfresh v (List.mem_cons_of_mem _ hv) hin
  | skip hv =>
    cases hexploring with
    | cons hall hrest =>
      refine ⟨hranked, .cons (fun port w hw => ?_) hrest, hfresh, hnodup⟩
      rcases hall port w hw with hleft | hdone
      · rcases List.mem_cons.mp hleft with heq | hleft
        · rw [(Prod.mk.inj heq).2]
          exact .inr (.inl hv)
        · exact .inl hleft
      · exact .inr hdone
  | enter hdone hbusy =>
    cases hexploring with
    | cons hall hrest =>
      refine ⟨hranked, .cons (fun _ _ hw => .inl hw) (.cons (fun port w hw => ?_) hrest), fun w hw => ?_,
        List.nodup_cons.mpr ⟨hbusy, hnodup⟩⟩
      · rcases hall port w hw with hleft | hdone | habove
        · rcases List.mem_cons.mp hleft with heq | hleft
          · rw [(Prod.mk.inj heq).2]
            exact .inr (.inr rfl)
          · exact .inl hleft
        · exact .inr (.inl hdone)
        · cases habove
      · rcases List.mem_cons.mp hw with rfl | hw
        · exact hdone
        · exact hfresh w hw

/-! ### How many steps are left -/

variable {U : Finset String}

/-- The nodes of a set that a search has not come to. -/
def ahead (U : Finset String) (s : Search) : Finset String := U.filter fun u => u ∉ s.finished ∧ u ∉ s.nodes

/-- How many steps are left: each node is left once, and each of its pulls is looked at once. -/
def effort (pulls : String → List (String × String)) (U : Finset String) (s : Search) : Nat :=
  (s.stack.map fun f => f.2.length + 1).sum + ∑ u ∈ s.ahead U, ((pulls u).length + 1)

/-- A step takes one of the steps that are left. -/
theorem effort_step (hU : ∀ u v, Draws pulls u v → v ∈ U) (h : Sound pulls s)
    (hleft : ∀ f ∈ s.stack, ∀ x ∈ f.2, x ∈ pulls f.1) (hs : Steps pulls s s') :
    effort pulls U s' + 1 = effort pulls U s := by
  cases hs with
  | @leave u frames path path' finished =>
    have hahead : ahead U ⟨frames, path', u :: finished⟩ = ahead U ⟨(u, []) :: frames, path, finished⟩ := by
      refine Finset.filter_congr fun v _ => ?_
      simp only [nodes, List.map_cons, List.mem_cons]
      tauto
    simp only [effort, hahead, List.map_cons, List.sum_cons, List.length_nil]
    omega
  | skip hv =>
    simp only [effort, ahead, nodes, List.map_cons, List.sum_cons, List.length_cons]
    omega
  | @enter u v port left frames path path' finished hdone hbusy =>
    have hv : v ∈ U := hU u v ⟨port, hleft _ List.mem_cons_self _ List.mem_cons_self⟩
    have hahead : ahead U ⟨(v, pulls v) :: (u, left) :: frames, path', finished⟩ =
        (ahead U ⟨(u, (port, v) :: left) :: frames, path, finished⟩).erase v := by
      ext w
      simp only [ahead, nodes, List.map_cons, List.mem_cons, Finset.mem_filter, Finset.mem_erase]
      tauto
    have hmem : v ∈ ahead U ⟨(u, (port, v) :: left) :: frames, path, finished⟩ :=
      Finset.mem_filter.mpr ⟨hv, hdone, hbusy⟩
    have hsum := Finset.add_sum_erase _ (fun u => (pulls u).length + 1) hmem
    simp only [effort, hahead, List.map_cons, List.sum_cons, List.length_cons]
    omega

theorem left_step (hleft : ∀ f ∈ s.stack, ∀ x ∈ f.2, x ∈ pulls f.1) (hs : Steps pulls s s') :
    ∀ f ∈ s'.stack, ∀ x ∈ f.2, x ∈ pulls f.1 := by
  cases hs with
  | leave => exact fun f hf => hleft f (List.mem_cons_of_mem _ hf)
  | skip hv =>
    obtain ⟨hfirst, hrest⟩ := List.forall_mem_cons.mp hleft
    exact List.forall_mem_cons.mpr ⟨fun x hx => hfirst x (List.mem_cons_of_mem _ hx), hrest⟩
  | enter hdone hbusy =>
    obtain ⟨hfirst, hrest⟩ := List.forall_mem_cons.mp hleft
    refine List.forall_mem_cons.mpr ⟨fun x hx => hx, List.forall_mem_cons.mpr ⟨fun x hx => ?_, hrest⟩⟩
    exact hfirst x (List.mem_cons_of_mem _ hx)

/-- What was explored or is being explored is so after a step. -/
theorem mem_step (hs : Steps pulls s s') {u : String} (hu : u ∈ s.finished ∨ u ∈ s.nodes) :
    u ∈ s'.finished ∨ u ∈ s'.nodes := by
  cases hs with
  | leave =>
    rcases hu with hu | hu
    · exact .inl (List.mem_cons_of_mem _ hu)
    · rcases List.mem_cons.mp hu with rfl | hu
      · exact .inl List.mem_cons_self
      · exact .inr hu
  | skip hv => exact hu
  | enter hdone hbusy => exact hu.imp_right (List.mem_cons_of_mem _)

/-- A search that finds no cycle explores everything it has come to. -/
theorem run_ranked (hU : ∀ u v, Draws pulls u v → v ∈ U) {bound : Nat} (h : Sound pulls s)
    (hleft : ∀ f ∈ s.stack, ∀ x ∈ f.2, x ∈ pulls f.1) (hbound : effort pulls U s ≤ bound) {l : List String}
    (hrun : Search.run pulls bound s = .inr l) :
    Ranked pulls l ∧ ∀ u, u ∈ s.finished ∨ u ∈ s.nodes → u ∈ l := by
  have hover {s : Search} (h : Sound pulls s) (hnil : s.stack = []) (heq : s.finished = l) :
      Ranked pulls l ∧ ∀ u, u ∈ s.finished ∨ u ∈ s.nodes → u ∈ l := by
    subst heq
    refine ⟨h.ranked, fun u hu => hu.resolve_right ?_⟩
    rw [nodes, hnil]
    exact List.not_mem_nil
  induction bound generalizing s with
  | zero =>
    refine hover h ?_ (Sum.inr.inj hrun)
    cases hstack : s.stack with
    | nil => rfl
    | cons f frames =>
      simp only [effort, hstack, List.map_cons, List.sum_cons] at hbound
      omega
  | succ bound ih =>
    unfold run at hrun
    split at hrun
    · next hnil => exact hover h (List.isEmpty_iff.mp hnil) (Sum.inr.inj hrun)
    · next hne =>
      split at hrun
      · cases hrun
      · next s' hstep =>
        have hs := steps_of_step (Bool.eq_false_iff.mpr hne) hstep
        have heffort := effort_step hU h hleft hs
        obtain ⟨hl, hall⟩ := ih (h.step hs) (left_step hleft hs) (by omega) hrun
        exact ⟨hl, fun u hu => hall u (mem_step hs hu)⟩

end Search

end Search

/-! ## Cycles of data -/

section Cycles

variable {β : Type} {g : Graph} {r : Registry β} {finished : List String}

/-- The ids of the nodes. -/
def ids (g : Graph) : Finset String := (g.nodes.map Node.id).toFinset

theorem mem_ids {n : Node} (hn : n ∈ g.nodes) : n.id ∈ g.ids :=
  List.mem_toFinset.mpr (List.mem_map_of_mem hn)

/-- An edge that ends at one node is pulled by no other one. -/
theorem sum_ends_le (data : Edge → Bool) (U : Finset String) (edges : List Edge) :
    ∑ u ∈ U, (edges.filter fun e => e.dest == u && data e).length ≤ edges.length := by
  induction edges with
  | nil => simp
  | cons e edges ih =>
    have hone : ∑ u ∈ U, (if e.dest == u && data e then 1 else 0) ≤ 1 := by
      calc ∑ u ∈ U, (if e.dest == u && data e then 1 else 0)
          ≤ ∑ u ∈ U, (if e.dest = u then 1 else 0) := by
            refine Finset.sum_le_sum fun u _ => ?_
            split <;> simp_all
        _ ≤ 1 := by
            rw [Finset.sum_ite_eq]
            split <;> omega
    simp only [← List.countP_eq_length_filter, List.countP_cons, Finset.sum_add_distrib] at ih ⊢
    rw [List.length_cons]
    omega

/-- The bound on the steps of a search leaves every node once and looks at every edge once. -/
theorem effort_start_le {n : Node} (hn : n ∈ g.nodes) :
    Search.effort (g.pulls r) g.ids { stack := [(n.id, g.pulls r n.id)], finished := finished } ≤
      g.searchBound := by
  have hahead : Search.ahead g.ids { stack := [(n.id, g.pulls r n.id)], finished := finished } ⊆
      g.ids.erase n.id := by
    intro u hu
    obtain ⟨hin, -, hother⟩ := Finset.mem_filter.mp hu
    exact Finset.mem_erase.mpr ⟨fun heq => hother (heq ▸ List.mem_cons_self), hin⟩
  have hpulls : ∑ u ∈ g.ids, (g.pulls r u).length ≤ g.edges.length := by
    simp only [pulls, List.length_map]
    exact sum_ends_le (g.isDataEdge r) g.ids g.edges
  have hcard : g.ids.card ≤ g.nodes.length := by
    have hle := List.toFinset_card_le (g.nodes.map Node.id)
    rwa [List.length_map] at hle
  have hsub := Finset.sum_le_sum_of_subset (f := fun u => (g.pulls r u).length + 1) hahead
  have hone := Finset.add_sum_erase g.ids (fun u => (g.pulls r u).length + 1) (mem_ids hn)
  simp only [Finset.sum_add_distrib, ← Finset.card_eq_sum_ones] at hsub hone
  simp only [Search.effort, searchBound, List.map_cons, List.map_nil, List.sum_cons, List.sum_nil,
    Finset.sum_add_distrib, ← Finset.card_eq_sum_ones]
  omega

/-- Searches that find no cycle explore all nodes they begin with. -/
theorem ranked_of_cycleFrom (hends : ∀ e ∈ g.edges, e.source ∈ g.ids) {ns : List Node}
    (hsub : ∀ n ∈ ns, n ∈ g.nodes) (h : Ranked (g.pulls r) finished) (hnone : g.cycleFrom r finished ns = none) :
    ∃ l, Ranked (g.pulls r) l ∧ (∀ u ∈ finished, u ∈ l) ∧ ∀ n ∈ ns, n.id ∈ l := by
  induction ns generalizing finished with
  | nil => exact ⟨finished, h, fun u hu => hu, List.forall_mem_nil _⟩
  | cons n ns ih =>
    obtain ⟨hn, hsub⟩ := List.forall_mem_cons.mp hsub
    unfold cycleFrom at hnone
    split at hnone
    · next hdone =>
      obtain ⟨l, hl, hkept, hall⟩ := ih hsub h hnone
      exact ⟨l, hl, hkept, List.forall_mem_cons.mpr ⟨hkept _ (List.contains_iff_mem.mp hdone), hall⟩⟩
    · next hdone =>
      split at hnone
      · cases hnone
      · next finished' hrun =>
        have hU : ∀ u v, Draws (g.pulls r) u v → v ∈ g.ids := by
          rintro u v ⟨port, hv⟩
          obtain ⟨e, he, heq⟩ := List.mem_map.mp hv
          rw [← (Prod.mk.inj heq).2]
          exact hends e (List.mem_filter.mp he).1
        have hstart := Search.Sound.start h fun hin => hdone (List.contains_iff_mem.mpr hin)
        obtain ⟨hranked, hcome⟩ := Search.run_ranked hU hstart
          (List.forall_mem_singleton.mpr fun x hx => hx) (effort_start_le hn) hrun
        obtain ⟨l, hl, hkept, hall⟩ := ih hsub hranked hnone
        refine ⟨l, hl, fun u hu => hkept u (hcome u (.inl hu)), List.forall_mem_cons.mpr ⟨?_, hall⟩⟩
        exact hkept n.id (hcome n.id (.inr List.mem_cons_self))

/-- A graph in which no cycle of data is found has none. -/
theorem acyclic_of_dataCycle? (hends : ∀ e ∈ g.edges, e.source ∈ g.ids) (h : g.dataCycle? r = none)
    (u : String) : ¬Relation.TransGen (Draws (g.pulls r)) u u := by
  obtain ⟨l, hl, -, hall⟩ := ranked_of_cycleFrom hends (fun n hn => hn) .nil h
  intro hcycle
  refine hl.acyclic ?_ hcycle
  obtain ⟨v, -, port, hv⟩ := Relation.TransGen.tail'_iff.mp hcycle
  obtain ⟨e, he, heq⟩ := List.mem_map.mp hv
  obtain ⟨n, hn, hid⟩ := List.mem_map.mp (List.mem_toFinset.mp (hends e (List.mem_filter.mp he).1))
  rw [← (Prod.mk.inj heq).2, ← hid]
  exact hall n hn

end Cycles

end Graph

end Patchbay
