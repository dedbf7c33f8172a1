import Patchbay.Proofs.Births
import Patchbay.Proofs.Propagation

/-!
# Which edges control flow crosses

Three places put nodes on an agenda: a node that has run leads on by its control flow outputs, a behaviour
continues along one of them, and a trigger may start from an output of its node. The first two look the
output up in the kind of the node, as it was when control flow reached the node. The third does not: whatever
edges leave by the output are crossed, those of a data output too.

Contents:
* `Kind.Leads`: the control flow outputs of a kind.
* `Routed`: everything that a strand is on its way to was reached, and everything it runs was seen.
* `Crossed`: edges that leave their source by a control flow output.

Results:
* `turn_routed`: turns keep to the routes that the engine gives.
* `exec_reached`: where the nodes stand that control flow starts.
-/

namespace Patchbay

/-! ## Routes -/

/-- Whether control flow leaves nodes of a kind by an output. -/
def Kind.Leads {β : Type} (k : Kind β) (port : String) : Prop := ∃ p ∈ k.execOutputs, p.id = port

section Routes

variable (S : String → Kind Behavior → Prop) (R : String → Prop)

/-- Whether a frame runs only what was seen, with its kind, and leads only to nodes that were reached. -/
def Frame.Routed : Frame → Prop
  | .behavior i _ _ => S i.node i.kind
  | .walk agenda => ∀ id ∈ agenda, R id
  | _ => True

/-- Whether what a strand does next keeps to such nodes. -/
def Signal.Routed : Signal → Prop
  | .call (.walk agenda) => ∀ id ∈ agenda, R id
  | .call (.invoke i) => S i.node i.kind ∧ (i.mode = .exec → R i.node)
  | .call (.behave i _) => S i.node i.kind
  | .back (.invoked _ i) => S i.node i.kind
  | _ => True

/-- Whether what a strand does at its next turn keeps to such nodes. -/
def Parked.Routed : Parked → Prop
  | .turn sig => sig.Routed S R
  | _ => True

/-- Whether a strand keeps to such nodes. -/
structure Routed (x : Strand × Parked) : Prop where
  frames : ∀ f ∈ x.1.frames, f.Routed S R
  parked : x.2.Routed S R

/-- Whether the nodes of an engine count as seen, and what their control flow outputs lead to as reached. -/
structure Engine.Guides (e : Engine) : Prop where
  sees : ∀ id n k, e.nodeWithKind id = .ok (n, k) → S id k
  crosses : ∀ x ∈ e.graph.edges, ∀ k, S x.source k → k.Leads x.sourcePort → R x.dest

end Routes

variable {S S' : String → Kind Behavior → Prop} {R R' : String → Prop} {e e' : Engine} {s s' : Strand} {sig : Signal}

theorem Frame.Routed.mono {f : Frame} (h : f.Routed S R) (hS : ∀ id k, S id k → S' id k) (hR : ∀ id, R id → R' id) :
    f.Routed S' R' := by
  cases f with
  | behavior i w k => exact hS _ _ h
  | walk agenda => exact fun id hid => hR id (h id hid)
  | _ => trivial

theorem Signal.Routed.mono (h : sig.Routed S R) (hS : ∀ id k, S id k → S' id k) (hR : ∀ id, R id → R' id) :
    sig.Routed S' R' := by
  cases sig with
  | call c =>
    cases c with
    | walk agenda => exact fun id hid => hR id (h id hid)
    | invoke i => exact ⟨hS _ _ h.1, fun hmode => hR _ (h.2 hmode)⟩
    | behave i script => exact hS _ _ h
    | _ => trivial
  | back r =>
    cases r with
    | invoked v i => exact hS _ _ h
    | _ => trivial
  | raise err => trivial

theorem Routed.mono {x : Strand × Parked} (h : Routed S R x) (hS : ∀ id k, S id k → S' id k)
    (hR : ∀ id, R id → R' id) : Routed S' R' x := by
  obtain ⟨s, q⟩ := x
  refine ⟨fun f hf => (h.frames f hf).mono hS hR, ?_⟩
  cases q with
  | turn sig => exact Signal.Routed.mono h.parked hS hR
  | _ => trivial

theorem Frame.Outer.routed {f : Frame} (h : f.Outer) : f.Routed S R := by
  cases f with
  | behavior | walk => exact h.elim
  | _ => trivial

/-! ## Turns -/

section Turns

/-- A turn that leaves its strand with something to do. -/
theorem goes_routed (hw : e.Welcomes e') (hf : ∀ f ∈ s'.frames, f.Routed S R) (hsig : sig.Routed S R) :
    e.Stays (Routed S R) (e'.go s' sig) := .go hw (.inr ⟨hf, hsig⟩)

/-- A turn after which its strand has something to do later. -/
theorem parks_routed (hw : e.Welcomes e') {q : Parked} (hf : ∀ f ∈ s'.frames, f.Routed S R)
    (hq : q.Routed S R) : e.Stays (Routed S R) ⟨e'.park s' q, none⟩ :=
  .park hw (.inr ⟨hf, hq⟩)

/-- What the control flow outputs of a node lead to was reached. -/
theorem Engine.Guides.execTargets (hg : e.Guides S R) {node : String} {k : Kind Behavior} (hS : S node k)
    (port : Option String) : ∀ id ∈ e.execTargets node k port, R id := by
  intro id hid
  obtain ⟨x, hx, rfl⟩ := List.mem_map.mp hid
  obtain ⟨hx, hexec⟩ := List.mem_filter.mp hx
  obtain ⟨hx, hsource⟩ := List.mem_filter.mp hx
  have hnode : x.source = node := beq_iff_eq.mp (Bool.and_eq_true_iff.mp hsource).1
  obtain ⟨p, hp, hid⟩ := List.mem_map.mp (List.contains_iff_mem.mp hexec)
  exact hg.crosses x hx k (hnode ▸ hS) ⟨p, hp, hid⟩

/-- What one control flow output of a node leads to was reached. -/
theorem Engine.Guides.destinations (hg : e.Guides S R) {node port : String} {k : Kind Behavior} (hS : S node k)
    (hport : (k.execOutput port).isSome = true) : ∀ id ∈ e.destinations node (some port), R id := by
  intro id hid
  obtain ⟨x, hx, rfl⟩ := List.mem_map.mp hid
  obtain ⟨hx, hsource⟩ := List.mem_filter.mp hx
  obtain ⟨hnode, hp⟩ := Bool.and_eq_true_iff.mp hsource
  refine hg.crosses x hx k (beq_iff_eq.mp hnode ▸ hS) ?_
  obtain ⟨q, hq⟩ := Option.isSome_iff_exists.mp hport
  obtain ⟨hfind, hexec⟩ := Option.filter_eq_some_iff.mp hq
  refine ⟨q, List.mem_filter.mpr ⟨List.mem_of_find?_eq_some hfind, hexec⟩, ?_⟩
  have hid : (q.id == port) = true := List.find?_some (p := fun p : Port => p.id == port) hfind
  exact (beq_iff_eq.mp hid).trans (beq_iff_eq.mp hp).symm

theorem failInvocation_routed (hw : e.Welcomes e') (i : Invocation) (err : Raised)
    (hf : ∀ f ∈ s'.frames, f.Routed S R) : e.Stays (Routed S R) (e'.failInvocation s' i err) := by
  rw [Engine.failInvocation_eq]
  split
  · exact goes_routed hw hf trivial
  · have hreport : e.Welcomes (e'.report s'.scope i (err.atInvocation s'.scope.trigger i)).2 := hw
    exact goes_routed hreport hf trivial

theorem walk_routed (hg : e.Guides S R) {agenda : List String} (hagenda : ∀ id ∈ agenda, R id)
    (hf : ∀ f ∈ s.frames, f.Routed S R) : e.Stays (Routed S R) (e.walk s agenda) := by
  have hsame : e.Welcomes e := .of_eq rfl
  have hcases := e.walk_cases s agenda
  generalize e.walk s agenda = t at hcases ⊢
  cases hcases with
  | done | stopped | unknown => exact goes_routed hsame hf trivial
  | @invokes node _ n k _ _ hn =>
    obtain ⟨hnode, hrest⟩ := List.forall_mem_cons.mp hagenda
    exact goes_routed hsame (List.forall_mem_cons.mpr ⟨hrest, hf⟩) ⟨hg.sees node n k hn, fun _ => hnode⟩
  | @passes node _ n k _ hn =>
    obtain ⟨-, hrest⟩ := List.forall_mem_cons.mp hagenda
    refine goes_routed (.of_eq rfl) hf fun id hid => ?_
    exact (List.mem_append.mp hid).elim (hg.execTargets (hg.sees node n k hn) none id) (hrest id)

theorem awaitFor_routed (hg : e.Guides S R) {i : Invocation} (hi : S i.node i.kind) {w : Wait}
    {k : Except Raised w.Reply → Script} (hf : ∀ f ∈ s.frames, f.Routed S R) :
    e.Stays (Routed S R) (e.awaitFor s i w k) := by
  have hsame : e.Welcomes e := .of_eq rfl
  have hframes {j : Invocation} {w : Wait} {k : Except Raised w.Reply → Script} (hj : S j.node j.kind) :
      ∀ f ∈ Frame.behavior j w k :: s.frames, f.Routed S R := List.forall_mem_cons.mpr ⟨hj, hf⟩
  cases w with
  | pull port => exact goes_routed hsame (hframes hi) trivial
  | advance port =>
    simp only [Engine.awaitFor]
    split
    · exact goes_routed hsame hf hi
    · next hport => exact goes_routed hsame (hframes hi) (hg.destinations hi (by rw [hport]; rfl))
  | checkpoint => exact parks_routed (.of_eq rfl) (hframes hi) trivial
  | sleep seconds =>
    simp only [Engine.awaitFor]
    split
    · exact goes_routed hsame hf hi
    · exact parks_routed (.of_eq rfl) (hframes hi) trivial

theorem behave_routed (hg : e.Guides S R) {i : Invocation} (hi : S i.node i.kind) (script : Script)
    (hf : ∀ f ∈ s.frames, f.Routed S R) : e.Stays (Routed S R) (e.behave s i script) := by
  have hsame : e.Welcomes e := .of_eq rfl
  cases script with
  | finish v =>
    refine goes_routed (.of_eq ?_) hf hi
    dsimp only
    split <;> rfl
  | fail err => exact failInvocation_routed hsame i err hf
  | again state =>
    simp only [Engine.behave]
    split
    · exact goes_routed hsame hf hi
    · exact failInvocation_routed hsame i _ hf
  | ask q k =>
    refine goes_routed (e.welcomes_perform i s.scope q) hf ?_
    show S (e.perform i s.scope q).invocation.node (e.perform i s.scope q).invocation.kind
    rwa [perform_node, perform_kind]
  | edit c k => exact goes_routed (Engine.Tended.command e c).strands hf hi
  | wait w k => exact awaitFor_routed hg hi hf

theorem routed_outputResult (sc : Scope) (node port : String) (ds : Dependencies) :
    (Engine.outputResult sc node port ds).Routed S R := by
  unfold Engine.outputResult
  split <;> trivial

theorem routed_literalResult (p : Port) (v : Value) : (Engine.literalResult p v).Routed S R := by
  unfold Engine.literalResult
  split <;> trivial

theorem pullInput_routed (node port : String) (hf : ∀ f ∈ s.frames, f.Routed S R) :
    e.Stays (Routed S R) (e.pullInput s node port) := by
  have hsame : e.Welcomes e := .of_eq rfl
  have hcases := e.pullInput_cases s node port
  generalize e.pullInput s node port = t at hcases ⊢
  cases hcases with
  | literal => exact goes_routed hsame hf (routed_literalResult _ _)
  | _ => exact goes_routed hsame hf trivial

theorem pullOutput_routed (hg : e.Guides S R) (node port : String) (hf : ∀ f ∈ s.frames, f.Routed S R) :
    e.Stays (Routed S R) (e.pullOutput s node port) := by
  have hsame : e.Welcomes e := .of_eq rfl
  have hcases := e.pullOutput_cases s node port
  generalize e.pullOutput s node port = t at hcases ⊢
  cases hcases with
  | current => exact goes_routed hsame hf (routed_outputResult _ _ _ _)
  | @runs m k hn =>
    have hm : m.id = node := Engine.id_of_nodeWithKind hn
    have hinvoke : (Signal.call (.invoke { serial := m.serial, node := m.id, kind := k, mode := .pull })).Routed S R :=
      ⟨hm ▸ hg.sees node m k hn, nofun⟩
    have hframes : ∀ f ∈ Frame.output m.id port m.serial :: s.frames, f.Routed S R :=
      List.forall_mem_cons.mpr ⟨trivial, hf⟩
    have hcases := e.runForOutput_cases s m k port
    generalize e.runForOutput s m k port = t at hcases ⊢
    cases hcases with
    | hops => exact parks_routed (.of_eq rfl) (List.forall_mem_cons.mpr ⟨trivial, hframes⟩) hinvoke
    | nests => exact goes_routed hsame hframes hinvoke
  | _ => exact goes_routed hsame hf trivial

theorem continueFrom_routed (hg : e.Guides S R) {i : Invocation} (hi : S i.node i.kind) (v : Value)
    {rest : List String} (hrest : ∀ id ∈ rest, R id) (hf : ∀ f ∈ s.frames, f.Routed S R) :
    e.Stays (Routed S R) (e.continueFrom s i v rest) := by
  have hsame : e.Welcomes e := .of_eq rfl
  have hfollow (sc : Scope) (exit : Option String) : e.Stays (Routed S R)
      (e.go { s with scope := sc } (.call (.walk (e.onward i exit ++ rest)))) := by
    refine goes_routed hsame hf fun id hid => ?_
    rcases List.mem_append.mp hid with hid | hid
    · obtain ⟨port, hid⟩ := Engine.execTargets_of_onward hid
      exact hg.execTargets hi _ id hid
    · exact hrest id hid
  unfold Engine.continueFrom
  dsimp only
  split
  · split
    · exact hfollow _ (some _)
    · exact goes_routed (.of_eq rfl) hf trivial
  · exact hfollow _ _
  · exact hfollow _ _

theorem resume_routed {i : Invocation} (hi : S i.node i.kind) {w : Wait} {k : Except Raised w.Reply → Script}
    (r : Result) (hf : ∀ f ∈ s.frames, f.Routed S R) : e.Stays (Routed S R) (e.resumeBehavior s i w k r) := by
  have hsame : e.Welcomes e := .of_eq rfl
  unfold Engine.resumeBehavior
  split <;> exact goes_routed hsame hf hi

theorem back_routed (hg : e.Guides S R) {id : Nat} {sc : Scope} {f : Frame} {fs : List Frame} {r : Result} {b : Book}
    (hsits : Sits b (⟨id, sc, f :: fs⟩, .turn (.back r))) (hp : Routed S R (⟨id, sc, f :: fs⟩, .turn (.back r)))
    (hinside : ¬∀ g ∈ f :: fs, g.Outer) : e.Stays (Routed S R) (e.back ⟨id, sc, fs⟩ f r) := by
  have hsame : e.Welcomes e := .of_eq rfl
  obtain ⟨hhead, hf⟩ := List.forall_mem_cons.mp hp.frames
  cases f with
  | behavior i w k => exact resume_routed hhead r hf
  | walk rest =>
    cases r with
    | invoked v i => exact continueFrom_routed hg hp.parked v hhead hf
    | _ => exact goes_routed hsame hf hhead
  | output node port serial =>
    cases r with
    | invoked v i => exact goes_routed (.of_eq rfl) hf (routed_outputResult _ _ _ _)
    | _ => exact goes_routed hsame hf trivial
  | hop => exact parks_routed (.of_eq rfl) hf hp.parked
  | trigger node origin => exact .go (.of_eq rfl) (.inl (hsits.outer_below_trigger rfl))
  | value => exact goes_routed hsame hf trivial
  | _ => exact absurd (hsits.outer_of_outer rfl trivial) hinside

theorem raise_routed {id : Nat} {sc : Scope} {f : Frame} {fs : List Frame} {err : Raised} {b : Book}
    (hsits : Sits b (⟨id, sc, f :: fs⟩, .turn (.raise err))) (hp : ∀ g ∈ f :: fs, g.Routed S R)
    (hinside : ¬∀ g ∈ f :: fs, g.Outer) : e.Stays (Routed S R) (e.raise ⟨id, sc, fs⟩ f err) := by
  have hsame : e.Welcomes e := .of_eq rfl
  obtain ⟨hhead, hf⟩ := List.forall_mem_cons.mp hp
  cases f with
  | behavior i w k => exact goes_routed hsame hf hhead
  | trigger node origin =>
    have hout := hsits.outer_below_trigger rfl
    cases err with
    | failure f => exact .go (.of_eq rfl) (.inl hout)
    | fault f => exact .go hsame (.inl hout)
    | mute f => exact .go hsame (.inl hout)
  | hop => exact parks_routed (.of_eq rfl) hf trivial
  | walk | output | value => exact goes_routed hsame hf trivial
  | _ => exact absurd (hsits.outer_of_outer rfl trivial) hinside

/-- A turn keeps to the routes that the engine gives. -/
theorem turn_routed {b : Book} (hg : e.Guides S R) (hsits : Sits b (s, .turn sig)) (hp : Routed S R (s, .turn sig))
    (hinside : ¬∀ f ∈ s.frames, f.Outer) : e.Stays (Routed S R) (e.turn s sig) := by
  obtain ⟨id, sc, frames⟩ := s
  cases sig with
  | call c =>
    cases c with
    | walk agenda => exact walk_routed hg hp.parked hp.frames
    | invoke i =>
      show e.Stays _ (e.invoke _ i)
      unfold Engine.invoke
      split
      · exact goes_routed (.of_eq rfl) hp.frames hp.parked.1
      · exact failInvocation_routed (.of_eq rfl) i _ hp.frames
    | behave i script => exact behave_routed hg hp.parked script hp.frames
    | input node port => exact pullInput_routed node port hp.frames
    | output node port => exact pullOutput_routed hg node port hp.frames
    | _ => exact absurd (hsits.outer_of_call trivial) hinside
  | back r =>
    cases frames with
    | nil => exact (hinside (by simp)).elim
    | cons f fs => exact back_routed hg hsits hp hinside
  | raise err =>
    cases frames with
    | nil => exact (hinside (by simp)).elim
    | cons f fs => exact raise_routed hsits hp.frames hinside

end Turns

/-! ## Runs -/

section Runs

variable (run : Nat → Engine.Turn) (T k : Nat)

/-- Whether a node was looked up and found to be of a kind, before a step and not before a trigger began. -/
def Seen (id : String) (kind : Kind Behavior) : Prop :=
  ∃ j < k, T ≤ (run j).engine.nextTrigger ∧ ∃ n, (run j).engine.nodeWithKind id = .ok (n, kind)

/-- Whether an edge was in the graph, before a step, and control flow leaves its source by it: by the kind that
its source had when control flow got there, not before a trigger began. -/
def Crossed (x : Edge) : Prop :=
  ∃ i j, i ≤ j ∧ j < k ∧ T ≤ (run i).engine.nextTrigger ∧ x ∈ (run j).engine.graph.edges ∧
    ∃ n kind, (run i).engine.nodeWithKind x.source = .ok (n, kind) ∧ kind.Leads x.sourcePort

end Runs

/-- Whether the next turn begins a trigger, with a node or with an output of it. -/
def Engine.Turn.Launches (t : Engine.Turn) (T : Nat) (node : String) (port : Option String) : Prop :=
  t.engine.nextTrigger = T ∧ ∃ s origin seeds, t.next = some (s, .call (.trigger node origin port seeds))

/-- How control flow gets to nodes in a trigger. -/
inductive Reached (run : Nat → Engine.Turn) (T k : Nat) : String → Prop
  | origin {a : Nat} {node : String} (ha : a < k) (h : (run a).Launches T node none) : Reached run T k node
  | crossed {x : Edge} (h : Crossed run T k x) : Reached run T k x.dest
  | fired {a : Nat} {x : Edge} (ha : a < k) (h : (run a).Launches T x.source (some x.sourcePort))
      (hx : x ∈ (run a).engine.graph.edges) : Reached run T k x.dest

section Runs

variable {run : Nat → Engine.Turn} {n T k : Nat}

theorem Seen.succ {id : String} {kind : Kind Behavior} (h : Seen run T k id kind) : Seen run T (k + 1) id kind := by
  obtain ⟨j, hj, h⟩ := h
  exact ⟨j, Nat.lt_succ_of_lt hj, h⟩

theorem Reached.succ {id : String} (h : Reached run T k id) : Reached run T (k + 1) id := by
  cases h with
  | origin ha h => exact .origin (Nat.lt_succ_of_lt ha) h
  | crossed h =>
    obtain ⟨i, j, hij, hj, h⟩ := h
    exact .crossed ⟨i, j, hij, Nat.lt_succ_of_lt hj, h⟩
  | fired ha h hx => exact .fired (Nat.lt_succ_of_lt ha) h hx

/-- The engine of a step gives the routes up to the next one. -/
theorem guides_run (hT : T ≤ (run k).engine.nextTrigger) :
    (run k).engine.Guides (Seen run T (k + 1)) (Reached run T (k + 1)) where
  sees id m kind hm := ⟨k, Nat.lt_succ_self k, hT, m, hm⟩
  crosses := by
    rintro x hx kind ⟨i, hi, hTi, m, hm⟩ hleads
    exact .crossed ⟨i, k, Nat.le_of_lt_succ hi, Nat.lt_succ_self k, hTi, hx, m, kind, hm, hleads⟩

/-- A trigger begins with its node, or with what the edges of an output lead to. -/
theorem Reached.of_firstAgenda {node : String} {port : Option String} (h : (run k).Launches T node port) :
    ∀ id ∈ (run k).engine.firstAgenda node port, Reached run T (k + 1) id := by
  intro id hid
  cases port with
  | none =>
    rw [List.mem_singleton.mp hid]
    exact .origin (Nat.lt_succ_self k) h
  | some p =>
    obtain ⟨x, hout, rfl⟩ := List.mem_map.mp hid
    obtain ⟨hx, hsource⟩ := List.mem_filter.mp hout
    obtain ⟨hnode, hport⟩ := Bool.and_eq_true_iff.mp hsource
    obtain rfl := beq_iff_eq.mp hnode
    obtain rfl : x.sourcePort = p := beq_iff_eq.mp hport
    exact .fired (Nat.lt_succ_self k) h hx

theorem routed_of_born {s : Strand} {x : Strand × Parked} (hn : (run k).next = some (s, sig))
    (hT : (run k).engine.nextTrigger = T) (h : Born (run k).engine s sig x) (hf : ∀ f ∈ s.frames, f.Outer) :
    Routed (Seen run T (k + 1)) (Reached run T (k + 1)) x := by
  have hframes {f : Frame} (h : f.Routed (Seen run T (k + 1)) (Reached run T (k + 1))) :
      ∀ g ∈ f :: s.frames, g.Routed (Seen run T (k + 1)) (Reached run T (k + 1)) :=
    List.forall_mem_cons.mpr ⟨h, fun g hg => (hf g hg).routed⟩
  cases h with
  | trigger _ => exact ⟨hframes trivial, Reached.of_firstAgenda ⟨hT, _, _, _, hn⟩⟩
  | value => exact ⟨hframes trivial, trivial⟩

theorem Routed.unpark {s : Strand} {q : Parked} (h : Routed S R (s, q)) (e : Engine) :
    Routed S R (s, .turn (e.unpark q).1) := by
  refine ⟨h.frames, ?_⟩
  cases q with
  | turn sig => exact h.parked
  | sleep id => trivial
  | task id =>
    simp only [Parked.Routed, Engine.unpark]
    split <;> trivial
  | gather id =>
    simp only [Parked.Routed, Engine.unpark]
    split <;> trivial

/-- All along a run, the strand of a trigger keeps to the routes. -/
theorem routed_run (hopens : Opens (run 0)) (hplays : ∀ k < n, Play (run k) (run (k + 1))) (hT : T ≠ 0) (hk : k ≤ n) :
    During T (Routed (Seen run T k) (Reached run T k)) (run k) := by
  refine during_run (P := fun k => Routed (Seen run T k) (Reached run T k)) hopens hplays hT ?_ ?_ ?_ ?_ hk
  · intro k hk s sig x hn hnext hborn
    obtain ⟨L, hL⟩ := orderly_run hopens hplays hk.le
    exact routed_of_born hn hnext hborn (hborn.outer (hL.placed _ (Engine.Turn.mem_population_of_next hn)).sits)
  · intro k hk s sig hn hsT hinside hp
    obtain ⟨L, hL⟩ := orderly_run hopens hplays hk.le
    have hplaced := hL.placed _ (Engine.Turn.mem_population_of_next hn)
    have hknown : T < (run k).engine.nextTrigger := hsT ▸ hplaced.known
    exact turn_routed (guides_run hknown.le) hplaced.sits (hp.mono (fun _ _ => Seen.succ) fun _ => Reached.succ) hinside
  · exact fun k _ _ _ x hp => hp.mono (fun _ _ => Seen.succ) fun _ => Reached.succ
  · exact fun k _ s p e hp => hp.unpark e

/-- By what turns control flow starts a node. -/
theorem Engine.starts_of_told {node kind : String} (hmem : Notice.nodeStarted T node kind .exec ∈ e.told s sig) :
    (∃ rest, sig = .call (.walk (node :: rest))) ∨ ∃ i, sig = .call (.invoke i) ∧ i.mode = .exec ∧ i.node = node := by
  rcases List.mem_append.mp hmem with hmem | hmem
  · unfold Engine.progress at hmem
    split at hmem
    · split at hmem
      · cases List.mem_singleton.mp hmem
      · cases hmem
    · repeat' split at hmem
      · rcases List.mem_cons.mp hmem with heq | hmem
        · obtain ⟨-, rfl, -⟩ := Notice.nodeStarted.inj heq
          exact .inl ⟨_, rfl⟩
        · cases List.mem_singleton.mp hmem
      all_goals cases hmem
    · obtain ⟨-, rfl, -, hmode⟩ := Notice.nodeStarted.inj (List.mem_singleton.mp hmem)
      exact .inr ⟨_, rfl, hmode.symm, rfl⟩
    · cases List.mem_singleton.mp hmem
    · cases List.mem_singleton.mp hmem
    · cases List.mem_singleton.mp hmem
    · split at hmem
      · cases List.mem_singleton.mp hmem
      · cases hmem
    · cases hmem
  · obtain ⟨x, -, hx⟩ := List.mem_map.mp hmem
    cases hx

/-- A node that control flow starts in a turn was reached. -/
theorem reached_of_toldOf (hopens : Opens (run 0)) (hplays : ∀ k < n, Play (run k) (run (k + 1))) (hk : k ≤ n)
    {node kind : String} (hmem : Notice.nodeStarted T node kind .exec ∈ (run k).toldOf T) : Reached run T k node := by
  obtain ⟨htold, -⟩ := List.mem_filter.mp hmem
  cases hn : (run k).next with
  | none =>
    rw [Engine.Turn.told_of_none hn] at htold
    cases htold
  | some x =>
    obtain ⟨s, sig⟩ := x
    rw [Engine.Turn.told_of_next hn] at htold
    obtain ⟨L, hL⟩ := orderly_run hopens hplays hk
    have hpop := Engine.Turn.mem_population_of_next hn
    have hsits := (hL.placed _ hpop).sits
    have hsT : s.scope.trigger = T := by
      rcases Engine.trigger?_of_mem_told htold with htrigger | ⟨_, _, _, _, -, heq⟩
      · exact (Option.some.inj htrigger).symm
      · cases heq
    have hstarts := Engine.starts_of_told htold
    have hinside : ¬∀ f ∈ s.frames, f.Outer := by
      intro hout
      have houter := hsits.outer_of_frames hout
      rcases hstarts with ⟨rest, rfl⟩ | ⟨i, rfl, -⟩ <;> exact houter
    have hT : T ≠ 0 := fun hzero => hinside (hsits.named (hsT.trans hzero))
    have hrouted := (routed_run hopens hplays hT hk _ hpop hsT).resolve_left hinside
    rcases hstarts with ⟨rest, rfl⟩ | ⟨i, rfl, hmode, rfl⟩
    · exact hrouted.parked node List.mem_cons_self
    · exact hrouted.parked.2 hmode

theorem reached_of_heard (hopens : Opens (run 0)) (hplays : ∀ k < n, Play (run k) (run (k + 1))) (hk : k ≤ n)
    {node kind : String} (hmem : Notice.nodeStarted T node kind .exec ∈ (run k).engine.heard T) :
    Reached run T k node := by
  induction k with
  | zero =>
    obtain ⟨config, registry, graph, shortest, requests, -, heq⟩ := hopens
    rw [heq] at hmem
    cases requests <;> cases hmem
  | succ k ih =>
    rw [heard_step (hplays k hk).step] at hmem
    rcases List.mem_append.mp hmem with hmem | hmem
    · exact (ih (Nat.le_of_succ_le hk) hmem).succ
    · exact (reached_of_toldOf hopens hplays (Nat.le_of_succ_le hk) hmem).succ

/-- Every node that control flow starts in a trigger is the one that the trigger began with, or the end of an
edge that leaves its source by a control flow output, or else the trigger began with an output of a node, which
is no control flow output, and the node is the end of an edge that leaves by it. -/
theorem exec_reached (hopens : Opens (run 0)) (hplays : ∀ k < n, Play (run k) (run (k + 1))) {node kind : String}
    (hmem : Notice.nodeStarted T node kind .exec ∈ (run n).engine.heard T) :
    (∃ a < n, (run a).Launches T node none) ∨ (∃ x, Crossed run T n x ∧ x.dest = node) ∨
      ∃ a < n, ∃ x ∈ (run a).engine.graph.edges, x.dest = node ∧ (run a).Launches T x.source (some x.sourcePort) ∧
        ∀ m k, (run a).engine.nodeWithKind x.source = .ok (m, k) → ¬k.Leads x.sourcePort := by
  cases reached_of_heard hopens hplays le_rfl hmem with
  | origin ha h => exact .inl ⟨_, ha, h⟩
  | crossed h => exact .inr (.inl ⟨_, h, rfl⟩)
  | @fired a x ha h hx =>
    by_cases hleads : ∃ m k, (run a).engine.nodeWithKind x.source = .ok (m, k) ∧ k.Leads x.sourcePort
    · obtain ⟨m, k, hm, hleads⟩ := hleads
      exact .inr (.inl ⟨x, ⟨a, a, le_rfl, ha, h.1.ge, hx, m, k, hm, hleads⟩, rfl⟩)
    · refine .inr (.inr ⟨a, ha, x, hx, rfl, h, fun m k hm hk => hleads ⟨m, k, hm, hk⟩⟩)

end Runs

/-! ## A trigger from a control flow output, and one from a data output -/

/-- A node with a control flow output and a data output, each wired to a node, and a trigger from one of
them. -/
def firingSession (port : String) : Engine.Turn :=
  opening (.initial {}
    { kinds := [.sketch "bell" .statement [{ id := "exec", valueType := .exec }]
          [Library.leads "exec", Library.yields "value" .any] none,
        .sketch "task" .statement [{ id := "exec", valueType := .exec }, { id := "in" }] [] none] }
    { nodes := [{ serial := 0, id := "b", kind := "bell" }, { serial := 1, id := "t", kind := "task" },
        { serial := 2, id := "u", kind := "task" }]
      edges := [⟨"b", "exec", "t", "exec"⟩, ⟨"b", "value", "u", "in"⟩]
      nextSerial := 3 } 0.01)
    [.runNode "t", .command (.fire "b" port []), .join]

/-- The state after a number of steps of that session. -/
def firing (port : String) (n : Nat) : Engine.Turn := (follow n (firingSession port, fun _ => {})).1

/-- The trigger that a turn begins: its node, and the output it begins with. -/
def Engine.Turn.launch? (t : Engine.Turn) : Option (String × Option String) :=
  match t.next with
  | some (_, .call (.trigger node _ port _)) => some (node, port)
  | _ => none

theorem Engine.Turn.Launches.launch? {t : Engine.Turn} {T : Nat} {node : String} {port : Option String}
    (h : t.Launches T node port) : t.launch? = some (node, port) := by
  obtain ⟨-, s, origin, seeds, hn⟩ := h
  simp only [Engine.Turn.launch?, hn]

/-- A trigger from a control flow output starts the node at the end of its edge. -/
theorem exec_reached_task : Notice.nodeStarted 2 "t" "task" .exec ∈ (firing "exec" 13).engine.heard 2 ∧
    ∃ x, Crossed (firing "exec") 2 13 x ∧ x.dest = "t" := by
  have hopens : Opens (firing "exec" 0) := by
    show Opens (firingSession "exec")
    refine ⟨_, _, _, _, _, ?_, rfl⟩
    exact ⟨by decide, by decide⟩
  have hgoes : ∀ k < 13, (Engine.advance (firing "exec" k)).isSome = true := by decide +kernel
  have hplays : ∀ k < 13, Play (firing "exec" k) (firing "exec" (k + 1)) :=
    fun k hk => .of_advance (advance_follow (hgoes k hk))
  have hmem : Notice.nodeStarted 2 "t" "task" .exec ∈ (firing "exec" 13).engine.heard 2 := by
    have hheard : (firing "exec" 13).engine.heard 2 = [.triggerStarted 2 "b" .event,
        .nodeStarted 2 "t" "task" .exec, .nodeFinished 2 "t" "task" []] := by with_unfolding_all rfl
    rw [hheard]
    exact .tail _ (.head _)
  refine ⟨hmem, ?_⟩
  have hlaunch : ∀ a < 13, (firing "exec" a).engine.nextTrigger = 2 →
      (firing "exec" a).launch? = none ∨ a = 11 := by decide +kernel
  have hlast : (firing "exec" 11).launch? = some ("b", some "exec") := by decide +kernel
  have heleven {a : Nat} {node : String} {port : Option String} (ha : a < 13)
      (h : (firing "exec" a).Launches 2 node port) : a = 11 ∧ node = "b" ∧ port = some "exec" := by
    rcases hlaunch a ha h.1 with hnone | rfl
    · cases h.launch?.symm.trans hnone
    · cases h.launch?.symm.trans hlast
      exact ⟨rfl, rfl, rfl⟩
  rcases exec_reached hopens hplays hmem with ⟨a, ha, h⟩ | h | ⟨a, ha, x, -, -, h, hleads⟩
  · cases (heleven ha h).2.2
  · exact h
  · obtain ⟨rfl, hsource, hport⟩ := heleven ha h
    rw [hsource, Option.some.inj hport] at hleads
    obtain ⟨m, k, hm, hk⟩ : ∃ m k, (firing "exec" 11).engine.nodeWithKind "b" = .ok (m, k) ∧ k.Leads "exec" := by
      with_unfolding_all exact ⟨_, _, rfl, Library.leads "exec", .head _, rfl⟩
    exact absurd hk (hleads m k hm)

/-- Whether some edge to a node leaves its source by a control flow output, by the current kinds. -/
def Engine.controls (e : Engine) (id : String) : Bool :=
  e.graph.edges.any fun x => x.dest == id && match e.nodeWithKind x.source with
    | .ok (_, k) => (k.execOutputs.map Port.id).contains x.sourcePort
    | .error _ => false

/-- A trigger from a data output starts the node at the end of its edge, to which no control flow leads. -/
theorem exec_of_data_edge : (firing "value" 11).Launches 2 "b" (some "value") ∧
    Notice.nodeStarted 2 "u" "task" .exec ∈ (firing "value" 13).engine.heard 2 ∧
    ∀ k ≤ 13, (firing "value" k).engine.controls "u" = false := by
  refine ⟨?_, ?_, by decide +kernel⟩
  · with_unfolding_all exact ⟨rfl, _, _, _, rfl⟩
  · have hheard : (firing "value" 13).engine.heard 2 = [.triggerStarted 2 "b" .event,
        .nodeStarted 2 "u" "task" .exec, .nodeFinished 2 "u" "task" []] := by with_unfolding_all rfl
    rw [hheard]
    exact .tail _ (.head _)

end Patchbay
