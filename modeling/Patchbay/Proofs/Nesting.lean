import Mathlib.Data.List.Chain
import Patchbay.Proofs.Abiding
import Patchbay.Proofs.Cycles
import Patchbay.Proofs.Present

/-!
# Nested resolutions

The outputs being resolved in a trigger are the frames that wait for their nodes: the path of the scope lists them,
outermost first, and the marks of the scope are their nodes. Each output but the outermost is wired to a data input
of the node of the one before it, because whoever pulls is the node that runs for the innermost output. A node that
only carries data has no control flow output, so no control flow begins while an output is being resolved.

Contents:
* `Program.DataEdge`, `Program.Joined`: edges of data, and outputs that one of them joins.
* `outputsIn`: the outputs that frames wait for.
* `Scope.Lists`: that a scope lists the outputs being resolved.
* `Linked`: that each output is wired to the one that waits for it.
* `Nested`: the invariant of a strand in a trigger.

Results:
* `Nested.turn`: a strand in a trigger keeps the invariant, or ends its trigger.
* `nested_run`: it holds at every moment of a trigger.
* `Linked.isChain`, `Linked.length_le`: the path is a chain of edges of data, and within the bound.
* `cyclic_of_isChain`: a chain that comes back to a node is a cycle of data.
-/

namespace Patchbay

/-! ## Edges of data -/

namespace Program

/-- Whether an edge of a program carries data, from a data output to a data input. -/
structure DataEdge (p : Program) (x : Edge) : Prop where
  mem : x ∈ p.graph.edges
  source : ∃ n k q, p.nodeWithKind x.source = .ok (n, k) ∧ k.outputPort x.sourcePort = some q ∧ q.isExec = false
  dest : ∃ n k q, p.nodeWithKind x.dest = .ok (n, k) ∧ k.dataInput x.destPort = some q

/-- Whether an edge of data leads from the second output to the node of the first one. -/
def Joined (p : Program) (a b : String × String) : Prop :=
  ∃ x, p.DataEdge x ∧ x.dest = a.1 ∧ x.source = b.1 ∧ x.sourcePort = b.2

/-- Whether an edge leads from an output, which need not exist, to a data input of a node. -/
def Wants (p : Program) (node : String) (o : String × String) : Prop :=
  ∃ x ∈ p.graph.edges, x.dest = node ∧ x.source = o.1 ∧ x.sourcePort = o.2 ∧
    ∃ n k q, p.nodeWithKind x.dest = .ok (n, k) ∧ k.dataInput x.destPort = some q

/-- Whether an output is a data output of a node that only carries data. -/
def Computes (p : Program) (o : String × String) : Prop :=
  ∃ n k q, p.nodeWithKind o.1 = .ok (n, k) ∧ k.dataOnly = true ∧ k.outputPort o.2 = some q ∧ q.isExec = false

/-- Whether the bound on nested resolutions leaves room for one more. -/
def RoomAbove (p : Program) (length : Nat) : Prop :=
  Value.related? .ge (.int length) p.config.maxPullDepth ≠ some true

section Edges

variable {p : Program} {e : Engine} {a b o : String × String} {node : String}

theorem Wants.joined (h : p.Wants a.1 b) (hb : p.Computes b) : p.Joined a b := by
  obtain ⟨x, hx, hdest, hsource, hport, hinput⟩ := h
  obtain ⟨n, k, q, hn, -, hq, hexec⟩ := hb
  rw [← hsource] at hn
  rw [← hport] at hq
  exact ⟨x, ⟨hx, ⟨n, k, q, hn, hq, hexec⟩, hinput⟩, hdest, hsource, hport⟩

theorem Computes.dataOnly (h : p.Computes o) : p.dataOnly o.1 = true := by
  obtain ⟨n, k, q, hn, hd, -⟩ := h
  exact dataOnly_of_nodeWithKind hn hd

theorem Computes.hasNode (h : p.Computes o) : ∃ n ∈ p.graph.nodes, n.id = o.1 := by
  obtain ⟨n, k, q, hn, -⟩ := h
  exact hasNode_of_nodeWithKind hn

/-- An edge of data is one that a check takes for a pull. -/
theorem DataEdge.feeds {x : Edge} (h : p.DataEdge x) : p.graph.Feeds p.registry x.dest x.destPort x.source := by
  obtain ⟨n, k, q, hn, hq, hexec⟩ := h.source
  obtain ⟨hnode, hkind⟩ := Graph.withKind_eq_ok_iff.mp hn
  refine ⟨x, h.mem, rfl, rfl, rfl, ?_⟩
  simp only [Graph.isExecEdge, hnode, hkind, Kind.execOutput, hq, Option.filter, hexec, Bool.false_eq_true, if_false,
    Option.isSome_none]

theorem Joined.feeds (h : p.Joined a b) : ∃ port, p.graph.Feeds p.registry a.1 port b.1 := by
  obtain ⟨x, hx, hdest, hsource, -⟩ := h
  refine ⟨x.destPort, ?_⟩
  rw [← hdest, ← hsource]
  exact hx.feeds

/-- A bound that is a whole number. -/
theorem roomAbove_iff {bound : Int} (hb : p.config.maxPullDepth.asInt? = some bound) (length : Nat) :
    p.RoomAbove length ↔ (length : Int) < bound := by
  have hrelated : Value.related? .ge (.int length) p.config.maxPullDepth =
      some (compare (length : Int) bound != .lt) := by
    cases hv : p.config.maxPullDepth with
    | int | bool =>
      rw [hv] at hb
      obtain rfl := Option.some.inj hb
      simp only [Value.related?, Value.relatedNumber?, Value.compareNumber, Value.asInt?, Option.map_some,
        Relation.holds]
    | _ => rw [hv] at hb; cases hb
  rw [RoomAbove, hrelated, ← Int.compare_eq_lt]
  simp

theorem roomAbove_iff_atDepthBound (hp : e.program = p) (sc : Scope) :
    p.RoomAbove sc.path.length ↔ e.atDepthBound sc = false := by
  have hconfig : p.config = e.config := by rw [← hp]; rfl
  simp [RoomAbove, Engine.atDepthBound, hconfig]

end Edges

end Program

/-! ## Chains of edges of data -/

/-- A chain of edges of data that comes back to a node is a cycle of data. -/
theorem cyclic_of_isChain {p : Program} {path : List (String × String)} {o : String × String}
    (h : (path ++ [o]).IsChain p.Joined) (hmem : o.1 ∈ path.map Prod.fst) :
    ∃ u, Relation.TransGen (fun u v => ∃ port, p.graph.Feeds p.registry u port v) u u := by
  obtain ⟨a, ha, hnode⟩ := List.mem_map.mp hmem
  have hpairs : (path ++ [o]).Pairwise (Relation.TransGen p.Joined) :=
    List.isChain_iff_pairwise.mp (h.imp fun _ _ => .single)
  have hgen : Relation.TransGen p.Joined a o :=
    (List.pairwise_append.mp hpairs).2.2 a ha o (List.mem_singleton_self o)
  have hback : Relation.TransGen (fun u v => ∃ port, p.graph.Feeds p.registry u port v) a.1 o.1 :=
    hgen.lift Prod.fst fun _ _ hjoined => hjoined.feeds
  rw [hnode] at hback
  exact ⟨o.1, hback⟩

/-! ## Requests for an output -/

/-- Whether a cause is that resolutions are nested in a circle or too deep. -/
def Cause.OfNesting : Cause → Prop
  | .cyclic _ => True
  | .tooDeep _ _ _ => True
  | _ => False

/-- Whether a signal hands on a value, or an error that is not about how resolutions nest. -/
def Signal.Answers : Signal → Prop
  | .back (.pulled _ _) => True
  | .raise err => err.Within fun c => ¬c.OfNesting
  | _ => False

theorem Signal.answers_outputResult (sc : Scope) (node port : String) (ds : Dependencies) :
    (Engine.outputResult sc node port ds).Answers := by
  unfold Engine.outputResult
  split
  · trivial
  · exact id

/-- A node that is not found is an error about the node or its kind. -/
theorem Engine.answers_nodeWithKind {e : Engine} {node : String} {err : Raised} (h : e.nodeWithKind node = .error err) :
    (Signal.raise err).Answers := by
  simp only [Engine.nodeWithKind, Graph.requireNode, Registry.lookup, bind, Except.bind, pure, Except.pure] at h
  cases hn : e.graph.node? node with
  | none =>
    rw [hn] at h
    obtain rfl := Except.error.inj h
    exact id
  | some n =>
    rw [hn] at h
    dsimp only at h
    cases hk : e.registry.find? n.kind with
    | none =>
      rw [hk] at h
      obtain rfl := Except.error.inj h
      exact id
    | some k =>
      rw [hk] at h
      cases h

/-- What a request for an output comes to: an answer at once; a refusal, because the node is being resolved or because
the path is as long as it may be; or a run of the node. -/
inductive Requested (p : Program) (e : Engine) (s : Strand) (node port : String) : Engine.Turn → Prop
  | answered {sig : Signal} (h : sig.Answers) : Requested p e s node port (e.go s sig)
  | circular (hc : p.Computes (node, port)) (hbusy : s.scope.isResolving node = true) :
      Requested p e s node port (e.go s (.raise (.cause (.cyclic (s.scope.path ++ [(node, port)])))))
  | deep (hc : p.Computes (node, port)) (hidle : s.scope.isResolving node = false)
      (hfull : ¬p.RoomAbove s.scope.path.length) : Requested p e s node port (e.go s (.raise (e.tooDeep node port)))
  | runs {n : Node} {k : Kind Behavior} (hc : p.Computes (node, port)) (hidle : s.scope.isResolving node = false)
      (hroom : p.RoomAbove s.scope.path.length) (hn : e.nodeWithKind node = .ok (n, k)) (hd : k.dataOnly = true) :
      Requested p e s node port (e.runForOutput s n k port)

theorem Engine.requested {p : Program} {e : Engine} (hp : e.program = p)
    (hshaped : ∀ k ∈ p.registry.kinds, k.Shaped) (s : Strand) (node port : String) :
    Requested p e s node port (e.pullOutput s node port) := by
  have hcomputes {n : Node} {k : Kind Behavior} (hn : e.nodeWithKind node = .ok (n, k))
      (hport : k.outputPort port ≠ none) (hd : k.dataOnly = true) : p.Computes (node, port) := by
    have hpn : p.nodeWithKind node = .ok (n.bare, k) := by
      rw [← hp, e.nodeWithKind_program, hn]
      rfl
    obtain ⟨q, hq⟩ := Option.ne_none_iff_exists'.mp hport
    exact ⟨n.bare, k, q, hpn, hd, hq, hshaped k (Program.mem_kinds hpn) hd q (List.mem_of_find?_eq_some hq)⟩
  have hcases := e.pullOutput_cases s node port
  generalize e.pullOutput s node port = t at hcases ⊢
  cases hcases with
  | unknown hn => exact .answered (Engine.answers_nodeWithKind hn)
  | portless | unpublished => exact .answered id
  | published => exact .answered trivial
  | current => exact .answered (Signal.answers_outputResult _ _ _ _)
  | circular hn hport hd _ hbusy => exact .circular (hcomputes hn hport hd) hbusy
  | deep hn hport hd _ hidle hfull =>
    refine .deep (hcomputes hn hport hd) hidle fun hroom => ?_
    rw [Program.roomAbove_iff_atDepthBound hp, hfull] at hroom
    cases hroom
  | runs hn hport hd _ hidle hroom =>
    exact .runs (hcomputes hn hport hd) hidle ((Program.roomAbove_iff_atDepthBound hp _).mpr hroom) hn hd

/-! ## Outputs being resolved -/

/-- The output whose node a frame waits for. -/
def Frame.output? : Frame → Option (String × String)
  | .output node port _ => some (node, port)
  | _ => none

/-- The outputs whose nodes frames wait for, innermost first. -/
def outputsIn (fs : List Frame) : List (String × String) := fs.filterMap Frame.output?

theorem outputsIn_output (node port : String) (serial : Nat) (fs : List Frame) :
    outputsIn (.output node port serial :: fs) = (node, port) :: outputsIn fs := rfl

theorem outputsIn_of_outer {fs : List Frame} (h : ∀ f ∈ fs, f.Outer) : outputsIn fs = [] := by
  refine List.filterMap_eq_nil_iff.mpr fun f hf => ?_
  have hout := h f hf
  cases f with
  | output => exact hout.elim
  | _ => rfl

/-- Whether a scope lists outputs, given innermost first, as those being resolved. -/
structure Scope.Lists (sc : Scope) (os : List (String × String)) : Prop where
  path : sc.path = os.reverse
  resolving : sc.resolving = os.map Prod.fst

namespace Scope.Lists

variable {sc sc' : Scope} {os : List (String × String)} {node port : String}

theorem of_eq (h : sc.Lists os) (hp : sc'.path = sc.path) (hr : sc'.resolving = sc.resolving) : sc'.Lists os :=
  ⟨hp.trans h.path, hr.trans h.resolving⟩

theorem of_extends (h : sc.Lists os) (hx : sc.Extends sc') : sc'.Lists os := h.of_eq hx.path hx.resolving

theorem notMem_of_idle (h : sc.Lists os) (hidle : sc.isResolving node = false) : node ∉ os.map Prod.fst := by
  rw [← h.resolving]
  simpa [Scope.isResolving] using hidle

/-- A resolution begins. -/
theorem enter (h : sc.Lists os) (hidle : sc.isResolving node = false) :
    (sc.enter node port).Lists ((node, port) :: os) := by
  refine ⟨?_, ?_⟩
  · rw [Scope.enter, h.path, List.reverse_cons]
  · rw [Scope.enter, h.resolving, List.insert_of_not_mem (h.notMem_of_idle hidle), List.map_cons]

/-- The resolution begun last ends. -/
theorem leave (h : sc.Lists ((node, port) :: os)) (hnew : node ∉ os.map Prod.fst) : (sc.leave node).Lists os := by
  refine ⟨?_, ?_⟩
  · rw [Scope.leave, h.path, List.reverse_cons, List.dropLast_concat]
  · have hresolving : sc.resolving = (os.map Prod.fst).insert node := by
      rw [h.resolving, List.insert_of_not_mem hnew, List.map_cons]
    rw [Scope.leave, hresolving]
    exact Scope.resolving_leave_enter hnew

end Scope.Lists

/-! ## Frames -/

/-- Whether an invocation is for the innermost of the outputs being resolved, if there are any. It then continues no
control flow. -/
def Invocation.IsFor (i : Invocation) (os : List (String × String)) : Prop :=
  ∀ o ∈ os.head?, o.1 = i.node ∧ ∀ port, i.kind.execOutput port = none

/-- Whether a frame may stand above frames that wait for the nodes of some outputs: an invocation is for the innermost
one, control flow has none below it, and a further output is wired to the innermost one and within the bound. -/
def Frame.StandsOn (p : Program) (os : List (String × String)) : Frame → Prop
  | .behavior i _ _ => i.IsFor os
  | .walk _ => os = []
  | .output node port _ => p.Computes (node, port) ∧ p.RoomAbove os.length ∧ ∀ o ∈ os.head?, p.Wants o.1 (node, port)
  | _ => True

/-- Whether each frame may stand above the ones below it. -/
def Linked (p : Program) : List Frame → Prop
  | [] => True
  | f :: fs => f.StandsOn p (outputsIn fs) ∧ Linked p fs

section Frames

variable {p : Program} {fs : List Frame}

theorem linked_of_outer (h : ∀ f ∈ fs, f.Outer) : Linked p fs := by
  induction fs with
  | nil => trivial
  | cons f fs ih =>
    obtain ⟨hout, hrest⟩ := List.forall_mem_cons.mp h
    refine ⟨?_, ih hrest⟩
    cases f with
    | behavior | walk | output => exact hout.elim
    | _ => trivial

theorem Linked.computes (h : Linked p fs) : ∀ o ∈ outputsIn fs, p.Computes o := by
  induction fs with
  | nil => exact List.forall_mem_nil _
  | cons f fs ih =>
    cases f with
    | output node port serial =>
      rw [outputsIn_output]
      exact List.forall_mem_cons.mpr ⟨h.1.1, ih h.2⟩
    | _ => exact ih h.2

/-- Each output but the outermost is wired to the node of the one before it. -/
theorem Linked.isChain (h : Linked p fs) : (outputsIn fs).reverse.IsChain p.Joined := by
  rw [List.isChain_reverse]
  induction fs with
  | nil => exact .nil
  | cons f fs ih =>
    cases f with
    | output node port serial =>
      obtain ⟨⟨hcomputes, -, hwired⟩, hrest⟩ := h
      rw [outputsIn_output, List.isChain_cons]
      exact ⟨fun o ho => (hwired o ho).joined hcomputes, ih hrest⟩
    | _ => exact ih h.2

theorem Linked.length_le (h : Linked p fs) {bound : Nat} (hb : p.config.maxPullDepth.asInt? = some (bound : Int)) :
    (outputsIn fs).length ≤ bound := by
  induction fs with
  | nil => exact Nat.zero_le bound
  | cons f fs ih =>
    cases f with
    | output node port serial =>
      have hroom := (Program.roomAbove_iff hb _).mp h.1.2.1
      rw [outputsIn_output, List.length_cons]
      omega
    | _ => exact ih h.2

end Frames

/-! ## Strands -/

/-- Whether a strand may go on with a signal above frames that wait for the nodes of some outputs. -/
def Signal.StandsOn (p : Program) (os : List (String × String)) : Signal → Prop
  | .call (.walk _) => os = []
  | .call (.invoke i) => i.IsFor os
  | .call (.behave i _) => i.IsFor os
  | .call (.input node _) => ∀ o ∈ os.head?, o.1 = node
  | .call (.output node port) => ∀ o ∈ os.head?, p.Wants o.1 (node, port)
  | _ => True

/-- Whether a strand may wait above frames that wait for the nodes of some outputs. -/
def Parked.StandsOn (p : Program) (os : List (String × String)) : Parked → Prop
  | .turn sig => sig.StandsOn p os
  | _ => True

/-- The invariant of a strand in a trigger: its scope lists the outputs being resolved, each of which is wired to the
one that waits for it. -/
structure Nested (p : Program) (x : Strand × Parked) : Prop where
  lists : x.1.scope.Lists (outputsIn x.1.frames)
  linked : Linked p x.1.frames
  next : x.2.StandsOn p (outputsIn x.1.frames)

section Turns

variable {p : Program} {e e' : Engine} {s : Strand} {i : Invocation}

theorem Nested.unpark {q : Parked} (h : Nested p (s, q)) (e : Engine) : Nested p (s, .turn (e.unpark q).1) := by
  refine ⟨h.lists, h.linked, ?_⟩
  cases q with
  | turn sig => exact h.next
  | sleep id => trivial
  | task id | gather id =>
    simp only [Engine.unpark]
    split <;> trivial

/-- The strand goes on. -/
theorem goes_nested (hw : e.Welcomes e') {s' : Strand} {sig : Signal} (hs : s'.scope.Lists (outputsIn s'.frames))
    (hl : Linked p s'.frames) (hsig : sig.StandsOn p (outputsIn s'.frames)) :
    e.Stays (Nested p) (e'.go s' sig) :=
  .go hw (.inr ⟨hs, hl, hsig⟩)

/-- The strand waits. -/
theorem parks_nested (hw : e.Welcomes e') {s' : Strand} {q : Parked} (hs : s'.scope.Lists (outputsIn s'.frames))
    (hl : Linked p s'.frames) (hq : q.StandsOn p (outputsIn s'.frames)) :
    e.Stays (Nested p) ⟨e'.park s' q, none⟩ :=
  .park hw (.inr ⟨hs, hl, hq⟩)

theorem failInvocation_nested (hw : e.Welcomes e') (hs : s.scope.Lists (outputsIn s.frames)) (hl : Linked p s.frames)
    (i : Invocation) (err : Raised) : e.Stays (Nested p) (e'.failInvocation s i err) := by
  rw [Engine.failInvocation_eq]
  split
  · exact goes_nested hw hs hl trivial
  · exact goes_nested hw hs hl trivial

theorem walk_nested (hs : s.scope.Lists (outputsIn s.frames)) (hl : Linked p s.frames) (hnone : outputsIn s.frames = [])
    (agenda : List String) : e.Stays (Nested p) (e.walk s agenda) := by
  have hsame : e.Welcomes e := .of_eq rfl
  have hcases := e.walk_cases s agenda
  generalize e.walk s agenda = t at hcases ⊢
  cases hcases with
  | done | stopped | unknown => exact goes_nested hsame hs hl trivial
  | @invokes _ rest =>
    refine goes_nested hsame hs ⟨hnone, hl⟩ fun o ho => ?_
    have hempty : outputsIn (.walk rest :: s.frames) = [] := hnone
    rw [hempty] at ho
    cases ho
  | passes => exact goes_nested (.of_eq rfl) (hs.of_eq rfl rfl) hl hnone

theorem invoke_nested (hs : s.scope.Lists (outputsIn s.frames)) (hl : Linked p s.frames)
    (hi : i.IsFor (outputsIn s.frames)) : e.Stays (Nested p) (e.invoke s i) := by
  unfold Engine.invoke
  dsimp only
  split
  · exact goes_nested (.of_eq rfl) hs hl hi
  · exact failInvocation_nested (.of_eq rfl) hs hl i _

theorem awaitFor_nested (hs : s.scope.Lists (outputsIn s.frames)) (hl : Linked p s.frames)
    (hi : i.IsFor (outputsIn s.frames)) (w : Wait) (k : Except Raised w.Reply → Script) :
    e.Stays (Nested p) (e.awaitFor s i w k) := by
  have hsame : e.Welcomes e := .of_eq rfl
  cases w with
  | pull port => exact goes_nested hsame hs ⟨hi, hl⟩ fun o ho => (hi o ho).1
  | advance port =>
    simp only [Engine.awaitFor]
    split
    · exact goes_nested hsame hs hl hi
    · next q hport =>
      -- a kind that has the output is not that of a node which a value is awaited from
      have hnone : outputsIn s.frames = [] := by
        rw [← List.head?_eq_none_iff, Option.eq_none_iff_forall_not_mem]
        intro o ho
        rw [(hi o ho).2 port] at hport
        cases hport
      exact goes_nested hsame hs ⟨hi, hl⟩ hnone
  | checkpoint => exact parks_nested (.of_eq rfl) hs ⟨hi, hl⟩ trivial
  | sleep seconds =>
    simp only [Engine.awaitFor]
    split
    · exact goes_nested hsame hs hl hi
    · exact parks_nested (.of_eq rfl) hs ⟨hi, hl⟩ trivial

theorem Scope.Lists.perform {os : List (String × String)} (h : s.scope.Lists os) (e : Engine) (i : Invocation)
    (q : Query) : (e.perform i s.scope q).scope.Lists os := by
  cases q with
  | memoize port v => exact h.of_extends (.publish s.scope i.node (.str port) v)
  | _ => exact h

theorem behave_nested (hs : s.scope.Lists (outputsIn s.frames)) (hl : Linked p s.frames)
    (hi : i.IsFor (outputsIn s.frames)) (script : Script) : e.Stays (Nested p) (e.behave s i script) := by
  cases script with
  | finish v =>
    refine goes_nested (.of_eq ?_) (hs.of_eq rfl rfl) hl trivial
    dsimp only
    split <;> rfl
  | fail err => exact failInvocation_nested (.of_eq rfl) hs hl i err
  | again state =>
    simp only [Engine.behave]
    split
    · exact goes_nested (.of_eq rfl) hs hl hi
    · exact failInvocation_nested (.of_eq rfl) hs hl i _
  | ask q k =>
    refine goes_nested (e.welcomes_perform i s.scope q) (hs.perform e i q) hl ?_
    show (e.perform i s.scope q).invocation.IsFor (outputsIn s.frames)
    rw [Invocation.IsFor, perform_node, perform_kind]
    exact hi
  | edit c k => exact goes_nested (Engine.Tended.command e c).strands hs hl hi
  | wait w k => exact awaitFor_nested hs hl hi w k

/-- The input of a node is wired, or has something of its own. -/
theorem pullInput_nested (hp : e.program = p) (hs : s.scope.Lists (outputsIn s.frames)) (hl : Linked p s.frames)
    {node : String} (hnode : ∀ o ∈ (outputsIn s.frames).head?, o.1 = node) (port : String) :
    e.Stays (Nested p) (e.pullInput s node port) := by
  have hsame : e.Welcomes e := .of_eq rfl
  have hcases := e.pullInput_cases s node port
  generalize e.pullInput s node port = t at hcases ⊢
  cases hcases with
  | unknown | portless | null | missing => exact goes_nested hsame hs hl trivial
  | @wired n k q x hn hq hx =>
    refine goes_nested hsame hs hl fun o ho => ?_
    obtain ⟨hdest, hport⟩ : x.dest = node ∧ x.destPort = port := by
      simpa [Edge.endsAt] using List.find?_some hx
    have hmem : x ∈ p.graph.edges := hp ▸ List.mem_of_find?_eq_some hx
    rw [hnode o ho]
    refine ⟨x, hmem, hdest, rfl, rfl, n.bare, k, q, ?_, ?_⟩
    · rw [hdest, ← hp, e.nodeWithKind_program, hn]
      rfl
    · rw [hport, hq]
  | @literal _ _ q v =>
    have hliteral : (Engine.literalResult q v).StandsOn p (outputsIn s.frames) := by
      unfold Engine.literalResult
      split <;> trivial
    exact goes_nested hsame hs hl hliteral

theorem Signal.Answers.standsOn {sig : Signal} (h : sig.Answers) (os : List (String × String)) : sig.StandsOn p os := by
  cases sig with
  | call c => exact h.elim
  | back | raise => trivial

/-- A node that only carries data begins to run for one of its outputs. -/
theorem runForOutput_nested (hshaped : ∀ k ∈ p.registry.kinds, k.Shaped) (hs : s.scope.Lists (outputsIn s.frames))
    (hl : Linked p s.frames) {node port : String} (hwired : ∀ o ∈ (outputsIn s.frames).head?, p.Wants o.1 (node, port))
    {n : Node} {k : Kind Behavior} (hc : p.Computes (node, port)) (hidle : s.scope.isResolving node = false)
    (hroom : p.RoomAbove s.scope.path.length) (hp : e.program = p) (hn : e.nodeWithKind node = .ok (n, k))
    (hd : k.dataOnly = true) : e.Stays (Nested p) (e.runForOutput s n k port) := by
  obtain rfl : n.id = node := Engine.id_of_nodeWithKind hn
  obtain ⟨m, hm, -⟩ := Engine.runs_of_nodeWithKind hp hn .pull
  have hreset : (s.scope.resetNode n.id).Lists (outputsIn s.frames) := hs.of_eq rfl rfl
  have hlists : ((s.scope.resetNode n.id).enter n.id port).Lists ((n.id, port) :: outputsIn s.frames) :=
    hreset.enter hidle
  have hlinked : Linked p (.output n.id port n.serial :: s.frames) := by
    refine ⟨⟨hc, ?_, hwired⟩, hl⟩
    rwa [hs.path, List.length_reverse] at hroom
  have hfor : ({ serial := n.serial, node := n.id, kind := k, mode := .pull } : Invocation).IsFor
      ((n.id, port) :: outputsIn s.frames) := by
    rintro o ⟨⟩
    exact ⟨rfl, (hshaped k (Program.mem_kinds hm)).execOutput hd⟩
  have hcases := e.runForOutput_cases s n k port
  generalize e.runForOutput s n k port = t at hcases ⊢
  cases hcases with
  | hops => exact parks_nested (.of_eq rfl) hlists ⟨trivial, hlinked⟩ hfor
  | nests => exact goes_nested (.of_eq rfl) hlists hlinked hfor

/-- An output is resolved. -/
theorem pullOutput_nested (hp : e.program = p) (hshaped : ∀ k ∈ p.registry.kinds, k.Shaped)
    (hs : s.scope.Lists (outputsIn s.frames)) (hl : Linked p s.frames) {node port : String}
    (hwired : ∀ o ∈ (outputsIn s.frames).head?, p.Wants o.1 (node, port)) :
    e.Stays (Nested p) (e.pullOutput s node port) := by
  have hsame : e.Welcomes e := .of_eq rfl
  have hrequested := e.requested hp hshaped s node port
  generalize e.pullOutput s node port = t at hrequested ⊢
  cases hrequested with
  | answered h => exact goes_nested hsame hs hl (h.standsOn _)
  | circular => exact goes_nested hsame hs hl trivial
  | deep => exact goes_nested hsame hs hl trivial
  | runs hc hidle hroom hn hd => exact runForOutput_nested hshaped hs hl hwired hc hidle hroom hp hn hd

theorem continueFrom_nested (hs : s.scope.Lists (outputsIn s.frames)) (hl : Linked p s.frames)
    (hnone : outputsIn s.frames = []) (i : Invocation) (v : Value) (rest : List String) :
    e.Stays (Nested p) (e.continueFrom s i v rest) := by
  have hsame : e.Welcomes e := .of_eq rfl
  unfold Engine.continueFrom
  cases v with
  | str port =>
    dsimp only
    split
    · exact goes_nested hsame hs hl hnone
    · exact goes_nested (.of_eq rfl) hs hl trivial
  | dict es => exact goes_nested hsame (hs.of_extends (.publishAll i.node es s.scope)) hl hnone
  | _ => exact goes_nested hsame hs hl hnone

theorem resumeBehavior_nested (hs : s.scope.Lists (outputsIn s.frames)) (hl : Linked p s.frames)
    (hi : i.IsFor (outputsIn s.frames)) (w : Wait) (k : Except Raised w.Reply → Script) (r : Result) :
    e.Stays (Nested p) (e.resumeBehavior s i w k r) := by
  have hsame : e.Welcomes e := .of_eq rfl
  unfold Engine.resumeBehavior
  split <;> exact goes_nested hsame hs hl hi

/-- Only the end of its node reaches a frame that waits for an output. -/
theorem Sits.eq_invoked {b : Book} {id : Nat} {sc : Scope} {node port : String} {serial : Nat} {fs : List Frame}
    {r : Result} (h : Sits b (⟨id, sc, .output node port serial :: fs⟩, .turn (.back r))) :
    ∃ v i, r = .invoked v i := by
  obtain ⟨nodes, -, hfits⟩ := h.fits
  cases hfits with
  | invoked => exact ⟨_, _, rfl⟩
  | answers hs =>
    generalize b.running = as at hs
    cases hs with
    | outer hout => exact (hout _ List.mem_cons_self).elim
  | walked hs | pulled hs | woken hs =>
    generalize b.running = as at hs
    cases hs

/-- The node of the innermost output is on the path once. -/
theorem Scope.Lists.notMem {sc : Scope} {os : List (String × String)} {node port : String} {b : Book}
    (h : sc.Lists ((node, port) :: os)) (hb : sc.Booked b) : node ∉ os.map Prod.fst := by
  have hnodup := hb.nodup
  rw [h.path, List.map_reverse, List.nodup_reverse, List.map_cons, List.nodup_cons] at hnodup
  exact hnodup.1

theorem back_nested {id : Nat} {sc : Scope} {f : Frame} {fs : List Frame} {r : Result} {b : Book}
    (hsits : Sits b (⟨id, sc, f :: fs⟩, .turn (.back r))) (hs : sc.Lists (outputsIn (f :: fs)))
    (hl : Linked p (f :: fs)) (hinside : ¬∀ g ∈ f :: fs, g.Outer) :
    e.Stays (Nested p) (e.back ⟨id, sc, fs⟩ f r) := by
  have hsame : e.Welcomes e := .of_eq rfl
  obtain ⟨hf, hl⟩ := hl
  cases f with
  | behavior i w k => exact resumeBehavior_nested (s := ⟨id, sc, fs⟩) hs hl hf w k r
  | walk rest =>
    cases r with
    | invoked v i => exact continueFrom_nested (s := ⟨id, sc, fs⟩) hs hl hf i v rest
    | _ => exact goes_nested hsame hs hl hf
  | output node port serial =>
    obtain ⟨v, i, rfl⟩ := hsits.eq_invoked
    have hleft := hs.leave (hs.notMem hsits.booked)
    exact goes_nested (.of_eq rfl) (hleft.of_eq rfl rfl) hl ((Signal.answers_outputResult _ _ _ _).standsOn _)
  | hop => exact parks_nested (.of_eq rfl) hs hl trivial
  | trigger node origin => exact .go (.of_eq rfl) (.inl (hsits.outer_below_trigger rfl))
  | value => exact goes_nested hsame hs hl trivial
  | _ => exact absurd (hsits.outer_of_outer rfl trivial) hinside

theorem raise_nested {id : Nat} {sc : Scope} {f : Frame} {fs : List Frame} {err : Raised} {b : Book}
    (hsits : Sits b (⟨id, sc, f :: fs⟩, .turn (.raise err))) (hs : sc.Lists (outputsIn (f :: fs)))
    (hl : Linked p (f :: fs)) (hinside : ¬∀ g ∈ f :: fs, g.Outer) :
    e.Stays (Nested p) (e.raise ⟨id, sc, fs⟩ f err) := by
  have hsame : e.Welcomes e := .of_eq rfl
  obtain ⟨hf, hl⟩ := hl
  cases f with
  | behavior i w k => exact goes_nested hsame hs hl hf
  | output node port serial => exact goes_nested hsame (hs.leave (hs.notMem hsits.booked)) hl trivial
  | hop => exact parks_nested (.of_eq rfl) hs hl trivial
  | trigger node origin =>
    have hout := hsits.outer_below_trigger rfl
    cases err with
    | failure f => exact .go (.of_eq rfl) (.inl hout)
    | fault f => exact .go hsame (.inl hout)
    | mute f => exact .go hsame (.inl hout)
  | walk | value => exact goes_nested hsame hs hl trivial
  | _ => exact absurd (hsits.outer_of_outer rfl trivial) hinside

/-- A turn of a strand in a trigger. -/
theorem Nested.turn {sig : Signal} {b : Book} (hp : e.program = p) (hshaped : ∀ k ∈ p.registry.kinds, k.Shaped)
    (hsits : Sits b (s, .turn sig)) (h : Nested p (s, .turn sig)) (hinside : ¬∀ f ∈ s.frames, f.Outer) :
    e.Stays (Nested p) (e.turn s sig) := by
  obtain ⟨hs, hl, hsig⟩ := h
  obtain ⟨id, sc, frames⟩ := s
  cases sig with
  | call c =>
    cases c with
    | walk agenda => exact walk_nested hs hl hsig agenda
    | invoke i => exact invoke_nested hs hl hsig
    | behave i script => exact behave_nested hs hl hsig script
    | input node port => exact pullInput_nested hp hs hl hsig port
    | output node port => exact pullOutput_nested hp hshaped hs hl hsig
    | trigger | run | request => exact absurd (hsits.outer_of_call trivial) hinside
  | back r =>
    cases frames with
    | nil => exact .ended (.of_eq rfl)
    | cons f fs => exact back_nested hsits hs hl hinside
  | raise err =>
    cases frames with
    | nil => exact .ended (.of_eq rfl)
    | cons f fs => exact raise_nested hsits hs hl hinside

end Turns

/-! ## Triggers -/

section Runs

variable {p : Program} {run : Nat → Engine.Turn} {n T : Nat}

/-- A strand begins its trigger without any output in progress. -/
theorem Born.nested {e : Engine} {s : Strand} {sig : Signal} {x : Strand × Parked} (h : Born e s sig x) {b : Book}
    (hsits : Sits b (s, .turn sig)) : Nested p x := by
  have hout := h.outer hsits
  have hnone := outputsIn_of_outer hout
  cases h with
  | @trigger node origin port seeds _ =>
    have hempty : outputsIn (.trigger node origin :: s.frames) = [] := hnone
    have hstart : ({ trigger := e.nextTrigger } : Scope).Lists [] := ⟨rfl, rfl⟩
    refine ⟨?_, ⟨trivial, linked_of_outer hout⟩, hempty⟩
    rw [hempty]
    exact hstart.of_extends (.publishAll node seeds _)
  | value =>
    have hempty : outputsIn (.value :: s.frames) = [] := hnone
    refine ⟨?_, ⟨trivial, linked_of_outer hout⟩, fun o ho => ?_⟩
    · rw [hempty]
      exact ⟨rfl, rfl⟩
    · rw [hempty] at ho
      cases ho

/-- A strand outside triggers resolves nothing. -/
theorem Sits.lists_of_outer {b : Book} {x : Strand × Parked} (h : Sits b x) (hout : ∀ f ∈ x.1.frames, f.Outer) :
    x.1.scope.Lists [] := by
  have hnodes {l : Level} {fs : List Frame} {nodes : List String} {as : List Account} (hs : Stacked l fs nodes as)
      (hout : ∀ f ∈ fs, f.Outer) : nodes = [] := by
    cases hs with
    | outer => rfl
    | _ => exact (hout _ List.mem_cons_self).elim
  obtain ⟨s, q⟩ := x
  obtain ⟨nodes, hpath, hfits⟩ := h.fits
  have hempty : nodes = [] := by
    cases hfits with
    | begins _ hs | answers hs | joins hs | gathers hs | walks hs | walked hs | invokes _ _ hs | behaves _ _ hs
    | invoked _ _ hs | input hs | output hs | pulled hs _ | woken hs | sleeps hs | raised hs => exact hnodes hs hout
  rw [hempty, List.reverse_nil, List.map_eq_nil_iff] at hpath
  refine ⟨hpath, List.eq_nil_iff_forall_not_mem.mpr fun node hmem => ?_⟩
  have hbusy := (h.booked.marked node).mp (by simpa [Scope.isResolving] using hmem)
  rw [hpath] at hbusy
  cases hbusy

/-- Whether a trigger is in progress: a strand is inside it. -/
def Engine.Turn.Hosts (t : Engine.Turn) (T : Nat) : Prop :=
  ∃ x ∈ t.population, x.1.scope.trigger = T ∧ ¬∀ f ∈ x.1.frames, f.Outer

/-- The invariant holds at every moment of a trigger, if the program stays as it is while it is in progress. -/
theorem nested_run (hopens : Opens (run 0)) (hplays : ∀ k < n, Play (run k) (run (k + 1))) (hT : T ≠ 0)
    (hshaped : ∀ k ∈ p.registry.kinds, k.Shaped)
    (hprogram : ∀ k < n, (run k).Hosts T → (run k).engine.program = p) {k : Nat} (hk : k ≤ n) :
    During T (Nested p) (run k) := by
  have hsits {k : Nat} (hk : k < n) {s : Strand} {sig : Signal} (hn : (run k).next = some (s, sig)) :
      ∃ b, Sits b (s, .turn sig) := by
    obtain ⟨L, hL⟩ := orderly_run hopens hplays hk.le
    exact ⟨_, (hL.placed _ (Engine.Turn.mem_population_of_next hn)).sits⟩
  refine during_run (P := fun _ => Nested p) hopens hplays hT ?_ ?_ (fun _ _ _ _ _ hx => hx)
    (fun _ _ _ _ e hx => hx.unpark e) hk
  · intro k hk s sig x hn _ hborn
    obtain ⟨b, hb⟩ := hsits hk hn
    exact hborn.nested hb
  · intro k hk s sig hn hsT hinside hx
    obtain ⟨b, hb⟩ := hsits hk hn
    have hhosts : (run k).Hosts T := ⟨_, Engine.Turn.mem_population_of_next hn, hsT, hinside⟩
    exact hx.turn (hprogram k hk hhosts) hshaped hb hinside

end Runs

end Patchbay
