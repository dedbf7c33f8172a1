import Mathlib.Data.List.Nodup
import Patchbay.Proofs.Ledger
import Patchbay.Proofs.Outcomes
import Patchbay.Proofs.Upkeep

/-!
# The frames of a strand

The things that a strand has in progress follow a grammar. A request or a task is at the bottom; a
trigger above it has control flow in progress, and a request for a value has a pull. An invocation is
above control flow that reached its node or above an output that needs it, and above an invocation that
waits is what it waits for. The outputs in progress are the path of the scope, and the invocations are
those of the book.

`turn_goes` says once what a turn does to the strand that has it and to its scope; the invariants of a
whole engine follow from it.

Contents:
* `Stacked`, `Fits`: the grammar, and what a strand may do next at a place in it.
* `Moves`: how a turn may change a scope.
* `Goes`: what a turn does.

Results:
* `turn_goes`: every turn of a strand that fits.
-/

namespace Patchbay

/-! ## The grammar of frames -/

/-- Whether a frame is of a request, a run or a task. -/
def Frame.Outer : Frame → Prop
  | .arming _ _ _ => True
  | .gathering _ => True
  | .direct => True
  | .joining _ => True
  | .ticking _ => True
  | .advancing => True
  | .task _ => True
  | .session => True
  | _ => False

/-- What the frames of a strand wait for. -/
inductive Level where
  /-- a request, a run or a trigger -/
  | outer
  /-- control flow -/
  | flow
  /-- an invocation -/
  | invocation
  /-- a value -/
  | value
  /-- that time passes, or that others have run -/
  | pause

/-- The frames of a strand, the nodes whose outputs are in progress, and the accounts of the invocations
that wait, all innermost first. -/
inductive Stacked : Level → List Frame → List String → List Account → Prop
  | outer {fs : List Frame} (h : ∀ f ∈ fs, f.Outer) : Stacked .outer fs [] []
  | trigger {node : String} {origin : Origin} {fs : List Frame} (h : ∀ f ∈ fs, f.Outer) :
      Stacked .flow (.trigger node origin :: fs) [] []
  | value {fs : List Frame} (h : ∀ f ∈ fs, f.Outer) : Stacked .value (.value :: fs) [] []
  | pull {i : Invocation} {port : String} {k : Except Raised Value → Script} {fs : List Frame}
      {nodes : List String} {a : Account} {as : List Account} (ha : a.Covered i.dependencies)
      (h : Stacked .invocation fs nodes as) :
      Stacked .value (.behavior i (.pull port) k :: fs) nodes (a :: as)
  | advance {i : Invocation} {port : String} {k : Except Raised Unit → Script} {fs : List Frame}
      {nodes : List String} {a : Account} {as : List Account} (ha : a.Covered i.dependencies)
      (h : Stacked .invocation fs nodes as) :
      Stacked .flow (.behavior i (.advance port) k :: fs) nodes (a :: as)
  | checkpoint {i : Invocation} {k : Except Raised Bool → Script} {fs : List Frame}
      {nodes : List String} {a : Account} {as : List Account} (ha : a.Covered i.dependencies)
      (h : Stacked .invocation fs nodes as) :
      Stacked .pause (.behavior i .checkpoint k :: fs) nodes (a :: as)
  | sleep {i : Invocation} {seconds : Value} {k : Except Raised Bool → Script} {fs : List Frame}
      {nodes : List String} {a : Account} {as : List Account} (ha : a.Covered i.dependencies)
      (h : Stacked .invocation fs nodes as) :
      Stacked .pause (.behavior i (.sleep seconds) k :: fs) nodes (a :: as)
  | walk {agenda : List String} {fs : List Frame} {nodes : List String} {as : List Account}
      (h : Stacked .flow fs nodes as) : Stacked .invocation (.walk agenda :: fs) nodes as
  | output {node port : String} {serial : Nat} {fs : List Frame} {nodes : List String}
      {as : List Account} (h : Stacked .value fs nodes as) :
      Stacked .invocation (.output node port serial :: fs) (node :: nodes) as
  | hop {node port : String} {serial : Nat} {fs : List Frame} {nodes : List String}
      {as : List Account} (h : Stacked .value fs nodes as) :
      Stacked .invocation (.hop :: .output node port serial :: fs) (node :: nodes) as

/-- What a strand may wait for, or do next, at its place in the grammar. -/
inductive Fits (fs : List Frame) (nodes : List String) (b : Book) : Parked → Prop
  | begins {c : Call} (hc : c.Outer) (h : Stacked .outer fs nodes b.running) : Fits fs nodes b (.turn (.call c))
  | answers {r : Result} (h : Stacked .outer fs nodes b.running) : Fits fs nodes b (.turn (.back r))
  | joins {id : Nat} (h : Stacked .outer fs nodes b.running) : Fits fs nodes b (.task id)
  | gathers {id : Nat} (h : Stacked .outer fs nodes b.running) : Fits fs nodes b (.gather id)
  | walks {agenda : List String} (h : Stacked .flow fs nodes b.running) :
      Fits fs nodes b (.turn (.call (.walk agenda)))
  | walked {r : Result} (h : Stacked .flow fs nodes b.running) : Fits fs nodes b (.turn (.back r))
  | invokes {i : Invocation} {a : Account} {as : List Account} (hb : b.running = a :: as)
      (ha : a.Covered i.dependencies) (h : Stacked .invocation fs nodes as) :
      Fits fs nodes b (.turn (.call (.invoke i)))
  | behaves {i : Invocation} {script : Script} {a : Account} {as : List Account}
      (hb : b.running = a :: as) (ha : a.Covered i.dependencies) (h : Stacked .invocation fs nodes as) :
      Fits fs nodes b (.turn (.call (.behave i script)))
  | invoked {v : Value} {i : Invocation} {a : Account} {as : List Account} (hb : b.running = a :: as)
      (ha : a.Covered i.dependencies) (h : Stacked .invocation fs nodes as) :
      Fits fs nodes b (.turn (.back (.invoked v i)))
  | input {node port : String} (h : Stacked .value fs nodes b.running) :
      Fits fs nodes b (.turn (.call (.input node port)))
  | output {node port : String} (h : Stacked .value fs nodes b.running) :
      Fits fs nodes b (.turn (.call (.output node port)))
  | pulled {v : Value} {ds : Dependencies} (h : Stacked .value fs nodes b.running)
      (hd : b.last.Covered ds) : Fits fs nodes b (.turn (.back (.pulled v ds)))
  | woken {r : Result} (h : Stacked .pause fs nodes b.running) : Fits fs nodes b (.turn (.back r))
  | sleeps {id : Nat} (h : Stacked .pause fs nodes b.running) : Fits fs nodes b (.sleep id)
  | raised {l : Level} {err : Raised} (h : Stacked l fs nodes b.running) :
      Fits fs nodes b (.turn (.raise err))

/-- What a book and a scope agree on: the notes of every cached node cover its account, and no node is
cached whose outputs are in progress. Each of those nodes is on the path once, and no others are marked. -/
structure Scope.Booked (b : Book) (sc : Scope) : Prop where
  cached : ∀ node ds, sc.cached? node = some ds → (b.cached node).Covered ds
  apart : ∀ node ∈ sc.path.map Prod.fst, sc.cached? node = none
  nodup : (sc.path.map Prod.fst).Nodup
  marked : sc.Marked

/-- The invariant of a strand and the book of its trigger. -/
structure Sits (b : Book) (x : Strand × Parked) : Prop where
  fits : ∃ nodes, x.1.scope.path.map Prod.fst = nodes.reverse ∧ Fits x.1.frames nodes b x.2
  booked : x.1.scope.Booked b
  named : x.1.scope.trigger = 0 → ∀ f ∈ x.1.frames, f.Outer

/-- A strand that has not begun any trigger. -/
theorem Sits.of_outer {x : Strand × Parked} (hscope : x.1.scope = {}) (hframes : ∀ f ∈ x.1.frames, f.Outer)
    (hcall : ∃ c : Call, c.Outer ∧ x.2 = .turn (.call c)) : Sits {} x := by
  obtain ⟨c, hc, hp⟩ := hcall
  refine ⟨⟨[], by rw [hscope]; rfl, ?_⟩, ⟨fun node ds hn => ?_, fun y hy => ?_, ?_, ?_⟩, fun _ => hframes⟩
  · rw [hp]
    exact .begins hc (.outer hframes)
  · rw [hscope] at hn
    simp [Scope.cached?] at hn
  · rw [hscope] at hy
    simp at hy
  · rw [hscope]
    exact List.nodup_nil
  · rw [hscope]
    exact .nil rfl rfl

theorem Newcomer.sits {x : Strand × Parked} (h : Newcomer x) : Sits {} x := by
  refine .of_outer h.scope (fun f hf => ?_) h.call
  rw [h.frames, List.mem_singleton] at hf
  rw [hf]
  trivial

/-! ## What a turn may do -/

/-- Whether a strand is about to start a node by control flow. -/
def Signal.StartsExec : Signal → Prop
  | .call (.invoke i) => i.mode = .exec
  | _ => False

/-- Whether a strand waits to start a node by control flow. -/
def Parked.StartsExec : Parked → Prop
  | .turn sig => sig.StartsExec
  | _ => False

/-- Whether a strand is about to start a node, and what observers are then told. -/
def Announces : Strand × Parked → Notice → Prop
  | (s, .turn (.call (.invoke i))), n => n = .nodeStarted s.scope.trigger i.node i.kind.id i.mode
  | _, _ => False

/-- Whether control flow reaches a node while the engine runs, and what observers are then told. -/
def Reaches (e : Engine) (s : Strand) (sig : Signal) (n : Notice) : Prop :=
  e.running = true ∧ ∃ node rest x k, sig = .call (.walk (node :: rest)) ∧
    e.nodeWithKind node = .ok (x, k) ∧ n = .nodeStarted s.scope.trigger node k.id .exec

/-- Whether a signal is a request for a run, for a step or to run one node. -/
def Signal.BeginsRun : Signal → Prop
  | .call .run => True
  | .call (.request .step) => True
  | .call (.request (.runNode _)) => True
  | _ => False

/-- What a turn may tell observers of nodes that control flow starts, and whether it may begin a run. -/
structure Permit where
  starts : Notice → Prop
  begins : Prop

/-- What the turn of a strand may do. -/
def Engine.permit (e : Engine) (s : Strand) (sig : Signal) : Permit where
  starts n := Announces (s, .turn sig) n ∨ Reaches e s sig n
  begins := sig.BeginsRun

/-- A scope in which nothing but outputs, their epochs and the count of executions have changed. -/
structure Scope.Extends (sc sc' : Scope) : Prop where
  trigger : sc'.trigger = sc.trigger
  path : sc'.path = sc.path
  resolving : sc'.resolving = sc.resolving
  cached : sc'.cached = sc.cached
  epochs : ∀ node s, sc.epoch node (.str s) ≤ sc'.epoch node (.str s)

theorem Scope.Extends.refl (sc : Scope) : sc.Extends sc := ⟨rfl, rfl, rfl, rfl, fun _ _ => le_rfl⟩

theorem Scope.Extends.trans {sc sc' sc'' : Scope} (h : sc.Extends sc') (h' : sc'.Extends sc'') :
    sc.Extends sc'' :=
  ⟨h'.trigger.trans h.trigger, h'.path.trans h.path, h'.resolving.trans h.resolving, h'.cached.trans h.cached,
    fun node s => (h.epochs node s).trans (h'.epochs node s)⟩

theorem Scope.Extends.publish (sc : Scope) (node : String) (port v : Value) :
    sc.Extends (sc.publish node port v) :=
  ⟨rfl, rfl, rfl, rfl, fun other s => Scope.epoch_le_publish sc node other port v s⟩

/-- Publishing several outputs of a node. -/
theorem Scope.Extends.publishAll (node : String) (os : Dict) (sc : Scope) :
    sc.Extends (os.foldl (fun sc x => sc.publish node x.1 x.2) sc) := by
  induction os generalizing sc with
  | nil => exact .refl sc
  | cons x rest ih => exact (Scope.Extends.publish sc node x.1 x.2).trans (ih _)

/-- How a turn may change the scope of its strand, unless it opens a new one: it keeps what is cached and
what is in progress, or begins an output that is not cached or out of date, or stores the outputs of
the node in progress, or gives them up. -/
inductive Moves (e : Engine) (sc : Scope) : Scope → Prop
  | keeps {sc' : Scope} (h : sc.Extends sc') : Moves e sc sc'
  | opens (node port : String) (hidle : node ∉ sc.path.map Prod.fst)
      (hstale : ∀ ds, sc.cached? node = some ds → e.stillCurrent sc ds = false) :
      Moves e sc ((sc.resetNode node).enter node port)
  | stores (node : String) (os : Dict) (ds : Dependencies) (hbusy : node ∈ sc.path.map Prod.fst) :
      Moves e sc (((sc.leave node).withOutputs node os).cache node ds)
  | leaves (node : String) : Moves e sc (sc.leave node)

/-- A strand after a turn: in the scope it had, changed as a turn may change it, or in that of a new
trigger. -/
inductive Follows (e : Engine) (sc : Scope) (b : Book) (e' : Engine) (x : Strand × Parked) : Prop
  | moves (hm : Moves e sc x.1.scope) (hs : Sits b x)
  | fresh (ht : x.1.scope.trigger = e.nextTrigger) (hn : e.nextTrigger < e'.nextTrigger)
      (hs : Sits {} x)

/-- What an engine may become by a turn, the strand of the turn apart. -/
structure Turned (permit : Permit) (e e' : Engine) : Prop where
  store : Variables.Wrote e.store e'.store
  strands : ∃ news, e'.strands = news ++ e.strands ∧ ∀ x ∈ news, Newcomer x
  nextTrigger : e.nextTrigger ≤ e'.nextTrigger
  running : e'.running = true → e.running = true ∨ permit.begins
  trace : ∃ added, e'.trace.toList = e.trace.toList ++ added ∧ ∀ n ∈ added, n.StartsExec → permit.starts n

/-- All strands of an engine, the one that has the turn first. -/
def Engine.Turn.population (t : Engine.Turn) : List (Strand × Parked) :=
  (t.next.map fun x => (x.1, Parked.turn x.2)).toList ++ t.engine.strands

/-- What a turn does: to the strand that had it, which is left with a book, and to the engine. -/
structure Goes (permit : Permit) (e : Engine) (sc : Scope) (b : Book) (own : Option (Strand × Parked))
    (t : Engine.Turn) : Prop where
  population : ∃ news, t.population = own.toList ++ (news ++ e.strands) ∧ ∀ x ∈ news, Newcomer x
  store : Variables.Wrote e.store t.engine.store
  nextTrigger : e.nextTrigger ≤ t.engine.nextTrigger
  running : t.engine.running = true → e.running = true ∨ permit.begins
  trace : ∃ added, t.engine.trace.toList = e.trace.toList ++ added ∧
    ∀ n ∈ added, n.StartsExec → permit.starts n
  follows : ∀ x, own = some x → Follows e sc b t.engine x
  starts : ∀ x, own = some x → x.2.StartsExec →
    t.next.isSome = true ∧ t.engine.running = true ∧ ∀ n, Announces x n → permit.starts n

namespace Turned

variable {permit : Permit}

theorem refl (e : Engine) : Turned permit e e :=
  ⟨.refl, ⟨[], rfl, by simp⟩, le_rfl, .inl, ⟨[], by simp, by simp⟩⟩

theorem trans {e e' e'' : Engine} (h : Turned permit e e') (h' : Turned permit e' e'') :
    Turned permit e e'' := by
  obtain ⟨news, hs, hn⟩ := h.strands
  obtain ⟨news', hs', hn'⟩ := h'.strands
  obtain ⟨added, ht, ha⟩ := h.trace
  obtain ⟨added', ht', ha'⟩ := h'.trace
  refine ⟨h.store.trans h'.store, ⟨news' ++ news, ?_, fun x hx => ?_⟩,
    h.nextTrigger.trans h'.nextTrigger, fun hr => (h'.running hr).elim h.running .inr,
    ⟨added ++ added', ?_, fun n hn => ?_⟩⟩
  · rw [hs', hs, List.append_assoc]
  · exact (List.mem_append.mp hx).elim (hn' x) (hn x)
  · rw [ht', ht, List.append_assoc]
  · exact (List.mem_append.mp hn).elim (ha n) (ha' n)

theorem of_tended {e e' : Engine} (h : e.Tended e') : Turned permit e e' := by
  obtain ⟨added, ht, ha⟩ := h.trace
  exact ⟨h.store, h.strands, h.nextTrigger.ge, fun hr => .inl (h.running hr),
    ⟨added, ht, fun n hn hs => absurd hs (ha n hn)⟩⟩

/-- A change of anything else. -/
theorem of_eq {e e' : Engine} (hs : e'.store = e.store) (hp : e'.strands = e.strands)
    (ht : e.nextTrigger ≤ e'.nextTrigger) (hr : e'.running = e.running) (htr : e'.trace = e.trace) :
    Turned permit e e' := by
  refine ⟨?_, ⟨[], by simpa using hp, by simp⟩, ht, fun h => .inl (hr ▸ h), ⟨[], by simp [htr], by simp⟩⟩
  rw [hs]

/-- A run begins. -/
theorem beginRun (e : Engine) (hb : permit.begins) : Turned permit e e.beginRun :=
  ⟨.refl, ⟨[], rfl, by simp⟩, le_rfl, fun _ => .inr hb, ⟨[], by simp [Engine.beginRun], by simp⟩⟩

theorem emit (e : Engine) {n : Notice} (hn : n.StartsExec → permit.starts n) :
    Turned permit e (e.emit n) := by
  refine ⟨.refl, ⟨[], rfl, by simp⟩, le_rfl, .inl, ⟨[n], by simp [Engine.emit], fun x hx => ?_⟩⟩
  rw [List.mem_singleton.mp hx]
  exact hn

end Turned

namespace Goes

variable {permit : Permit} {e : Engine} {sc : Scope} {b : Book}

/-- The strand goes on at once. -/
theorem go {e' : Engine} {s' : Strand} {sig' : Signal} (h : Turned permit e e')
    (hf : Follows e sc b e' (s', .turn sig'))
    (hx : sig'.StartsExec → e'.running = true ∧ ∀ n, Announces (s', .turn sig') n → permit.starts n) :
    ∃ own, Goes permit e sc b own (e'.go s' sig') := by
  obtain ⟨news, hs, hn⟩ := h.strands
  refine ⟨some (s', .turn sig'), ⟨news, ?_, hn⟩, h.store, h.nextTrigger, h.running, h.trace, ?_, ?_⟩
  · simp only [Engine.Turn.population, Engine.go, hs, Option.map_some, Option.toList_some]
  · rintro x ⟨⟩
    exact hf
  · rintro x ⟨⟩ hstart
    exact ⟨rfl, hx hstart⟩

/-- The strand waits. -/
theorem park {e' : Engine} {s' : Strand} {p : Parked} (h : Turned permit e e')
    (hf : Follows e sc b (e'.park s' p) (s', p)) (hx : ¬p.StartsExec) :
    ∃ own, Goes permit e sc b own ⟨e'.park s' p, none⟩ := by
  obtain ⟨news, hs, hn⟩ := h.strands
  refine ⟨some (s', p), ⟨news, ?_, hn⟩, h.store, h.nextTrigger, h.running, h.trace, ?_, ?_⟩
  · simp only [Engine.Turn.population, Engine.park, hs, Option.map_none, Option.toList_none,
      Option.toList_some, List.nil_append, List.singleton_append]
  · rintro x ⟨⟩
    exact hf
  · rintro x ⟨⟩ hstart
    exact absurd hstart hx

theorem parkTurn {e' : Engine} {s' : Strand} {sig' : Signal} (h : Turned permit e e')
    (hf : Follows e sc b (e'.parkTurn s' sig') (s', .turn sig')) (hx : ¬sig'.StartsExec) :
    ∃ own, Goes permit e sc b own ⟨e'.parkTurn s' sig', none⟩ := by
  obtain ⟨news, hs, hn⟩ := h.strands
  refine ⟨some (s', .turn sig'), ⟨news, ?_, hn⟩, h.store, h.nextTrigger, h.running, h.trace, ?_, ?_⟩
  · simp only [Engine.Turn.population, Engine.parkTurn, Engine.soon, Engine.park, hs, Option.map_none,
      Option.toList_none, Option.toList_some, List.nil_append, List.singleton_append]
  · rintro x ⟨⟩
    exact hf
  · rintro x ⟨⟩ hstart
    exact absurd hstart hx

/-- The strand is over. -/
theorem ended {e' : Engine} (h : Turned permit e e') : ∃ own, Goes permit e sc b own ⟨e', none⟩ := by
  obtain ⟨news, hs, hn⟩ := h.strands
  refine ⟨none, ⟨news, ?_, hn⟩, h.store, h.nextTrigger, h.running, h.trace, ?_, ?_⟩
  · simp only [Engine.Turn.population, hs, Option.map_none, Option.toList_none, List.nil_append]
  · rintro x ⟨⟩
  · rintro x ⟨⟩

end Goes

/-! ## Inside a trigger -/

theorem Scope.Booked.of_eq {b b' : Book} {sc sc' : Scope} (h : sc.Booked b) (hb : b'.cached = b.cached)
    (hc : sc'.cached = sc.cached) (hp : sc'.path = sc.path) (hr : sc'.resolving = sc.resolving) :
    sc'.Booked b' := by
  refine ⟨fun node ds hn => ?_, fun node hn => ?_, by rw [hp]; exact h.nodup, h.marked.of_eq hp hr⟩
  · rw [Scope.cached?, hc] at hn
    rw [hb]
    exact h.cached node ds hn
  · rw [hp] at hn
    rw [Scope.cached?, hc]
    exact h.apart node hn

/-- The scope of a trigger in progress, with the nodes whose outputs are. -/
structure Inside (b : Book) (sc : Scope) (nodes : List String) : Prop where
  path : sc.path.map Prod.fst = nodes.reverse
  booked : sc.Booked b
  named : sc.trigger ≠ 0

/-- A turn inside a trigger that caches nothing, and begins and ends no output. -/
theorem Inside.follows {b b' : Book} {sc : Scope} {nodes : List String} (h : Inside b sc nodes)
    {e e' : Engine} {s' : Strand} {p : Parked} (hx : sc.Extends s'.scope) (hb : b'.cached = b.cached)
    (hf : Fits s'.frames nodes b' p) : Follows e sc b' e' (s', p) := by
  refine .moves (.keeps hx) ⟨⟨nodes, ?_, hf⟩, h.booked.of_eq hb hx.cached hx.path hx.resolving, fun ht => ?_⟩
  · rw [hx.path, h.path]
  · exact absurd (hx.trigger.symm.trans ht) h.named

section Values

variable {permit : Permit} {e : Engine} {s : Strand} {b : Book} {nodes : List String}

/-- Resolving an input. -/
theorem pullInput_goes (h : Inside b s.scope nodes) (hv : Stacked .value s.frames nodes b.running)
    (node port : String) :
    ∃ own, Goes permit e s.scope (b.hand {}) own (e.pullInput s node port) := by
  have hgo : ∀ {sig : Signal}, Fits s.frames nodes (b.hand {}) (.turn sig) → ¬sig.StartsExec →
      ∃ own, Goes permit e s.scope (b.hand {}) own (e.go s sig) :=
    fun hf hx => Goes.go (.refl e) (h.follows (.refl _) rfl hf) fun hs => absurd hs hx
  have hlit : ∀ (p : Port) (v : Value),
      ∃ own, Goes permit e s.scope (b.hand {}) own (e.go s (Engine.literalResult p v)) := by
    intro p v
    unfold Engine.literalResult
    split
    · exact hgo (.pulled hv (.empty [])) id
    · exact hgo (.raised hv) id
  have hcases := e.pullInput_cases s node port
  generalize e.pullInput s node port = t at hcases ⊢
  cases hcases with
  | unknown | portless | missing => exact hgo (.raised hv) id
  | wired => exact hgo (.output hv) id
  | literal => exact hlit _ _
  | null => exact hgo (.pulled hv (.empty [])) id

theorem Inside.opens (h : Inside b s.scope nodes) {node : String} (port : String)
    (hidle : s.scope.isResolving node = false) :
    Inside b.push ((s.scope.resetNode node).enter node port) (node :: nodes) := by
  have hn : node ∉ s.scope.path.map Prod.fst := by
    rw [← h.booked.marked node, hidle]
    exact Bool.false_ne_true
  have hpath : ((s.scope.resetNode node).enter node port).path.map Prod.fst =
      s.scope.path.map Prod.fst ++ [node] := by
    simp [Scope.enter, Scope.resetNode]
  have hmarked : (s.scope.resetNode node).Marked := h.booked.marked.of_eq rfl rfl
  refine ⟨?_, ⟨fun other ds hc => ?_, fun other ho => ?_, ?_, hmarked.enter node port⟩, h.named⟩
  · rw [hpath, h.path, List.reverse_cons]
  · by_cases hne : other = node
    · subst hne
      have hnone := Scope.cached?_resetNode_self s.scope other
      rw [show ((s.scope.resetNode other).enter other port).cached? other = none from hnone] at hc
      simp at hc
    · exact h.booked.cached other ds ((Scope.cached?_resetNode s.scope hne).symm.trans hc)
  · by_cases hne : other = node
    · rw [hne]
      exact Scope.cached?_resetNode_self s.scope node
    · rw [hpath, List.mem_append, List.mem_singleton] at ho
      exact (Scope.cached?_resetNode s.scope hne).trans (h.booked.apart other (ho.resolve_right hne))
  · rw [hpath, List.nodup_append]
    refine ⟨h.booked.nodup, List.pairwise_singleton _ node, fun a ha c hc => ?_⟩
    rw [List.mem_singleton.mp hc]
    rintro rfl
    exact hn ha

/-- Beginning to run a data-only node. -/
theorem runForOutput_goes (h : Inside b s.scope nodes) (hv : Stacked .value s.frames nodes b.running)
    {node : String} {n : Node} {k : Kind Behavior} (hn : e.nodeWithKind node = .ok (n, k))
    (port : String) (hidle : s.scope.isResolving node = false)
    (hstale : ∀ ds, s.scope.cached? node = some ds → e.stillCurrent s.scope ds = false) :
    ∃ own, Goes permit e s.scope b.push own (e.runForOutput s n k port) := by
  have hi := h.opens port hidle
  have hmoves : Moves e s.scope ((s.scope.resetNode node).enter node port) := by
    refine .opens node port ?_ hstale
    rw [← h.booked.marked node, hidle]
    exact Bool.false_ne_true
  have hfollows : ∀ {e' : Engine} {s' : Strand} {i : Invocation}, i.dependencies = [] →
      s'.scope = (s.scope.resetNode node).enter node port →
      Stacked .invocation s'.frames (node :: nodes) b.running →
      Follows e s.scope b.push e' (s', .turn (.call (.invoke i))) := by
    intro e' s' i hds hsc hst
    refine .moves (hsc ▸ hmoves) ⟨⟨node :: nodes, ?_, .invokes rfl ?_ hst⟩, hsc ▸ hi.booked, fun ht => ?_⟩
    · rw [hsc]
      exact hi.path
    · rw [hds]
      exact .empty []
    · rw [hsc] at ht
      exact absurd ht hi.named
  have hpull : ¬(Mode.pull = Mode.exec) := nofun
  simp only [Engine.runForOutput, Engine.id_of_nodeWithKind hn]
  split
  · exact Goes.parkTurn (.refl e) (hfollows rfl rfl (.hop hv)) hpull
  · exact Goes.go (.refl e) (hfollows rfl rfl (.output hv)) fun hs => absurd hs hpull

/-- Resolving an output. -/
theorem pullOutput_goes (h : Inside b s.scope nodes) (hv : Stacked .value s.frames nodes b.running)
    (node port : String) :
    ∃ own, Goes permit e s.scope (b.afterOutput e s.scope node port) own (e.pullOutput s node port) := by
  have hgo : ∀ {a : Account} {sig : Signal}, Fits s.frames nodes (b.hand a) (.turn sig) →
      ¬sig.StartsExec → ∃ own, Goes permit e s.scope (b.hand a) own (e.go s sig) :=
    fun hf hx => Goes.go (.refl e) (h.follows (.refl _) rfl hf) fun hs => absurd hs hx
  have hcases := e.pullOutput_cases s node port
  generalize e.pullOutput s node port = t at hcases ⊢
  cases hcases with
  | unknown | portless | circular | deep =>
    have hbook : b.afterOutput e s.scope node port = b.hand {} := by simp [Book.afterOutput, *]
    rw [hbook]
    exact hgo (.raised hv) id
  | published hn hport hdata =>
    have hbook : b.afterOutput e s.scope node port =
        b.hand { kept := [(.output node (.str port), s.scope.epoch node (.str port))] } := by
      simp [Book.afterOutput, *]
    rw [hbook]
    exact hgo (.pulled hv ⟨fun x hx => hx, fun x hx => ⟨x.2, hx⟩⟩) id
  | unpublished hn hport hdata =>
    have hbook : b.afterOutput e s.scope node port =
        b.hand { kept := [(.output node (.str port), s.scope.epoch node (.str port))] } := by
      simp [Book.afterOutput, *]
    rw [hbook]
    exact hgo (.raised hv) id
  | @current n k ds hn hport hdata hds =>
    have hbook : b.afterOutput e s.scope node port = b.hand (b.cached node) := by simp [Book.afterOutput, *]
    obtain ⟨hcached, -⟩ := Option.filter_eq_some_iff.mp hds
    rw [hbook, Engine.outputResult]
    split
    · exact hgo (.pulled hv (h.booked.cached node ds hcached)) id
    · exact hgo (.raised hv) id
  | runs hn hport hdata hds hidle =>
    have hbook : b.afterOutput e s.scope node port = b.push := by simp [Book.afterOutput, *]
    rw [hbook]
    refine runForOutput_goes h hv hn port hidle fun ds hcached => ?_
    rw [hcached, Option.filter_eq_none_iff] at hds
    exact Bool.eq_false_iff.mpr (hds ds rfl)

theorem Inside.path_leave {node : String} {sc : Scope} (h : Inside b sc (node :: nodes)) :
    (sc.leave node).path.map Prod.fst = nodes.reverse := by
  have hmap : (sc.leave node).path.map Prod.fst = (sc.path.map Prod.fst).dropLast := List.map_dropLast
  rw [hmap, h.path, List.reverse_cons, List.dropLast_concat]

theorem Inside.notMem {node : String} {sc : Scope} (h : Inside b sc (node :: nodes)) : node ∉ nodes := by
  have hnodup := h.booked.nodup
  rw [h.path, List.nodup_reverse] at hnodup
  exact (List.nodup_cons.mp hnodup).1

theorem Inside.marked_leave {node : String} {sc : Scope} (h : Inside b sc (node :: nodes)) :
    (sc.leave node).Marked := by
  have hpath : sc.path.map Prod.fst = nodes.reverse ++ [node] := h.path.trans List.reverse_cons
  exact h.booked.marked.leave hpath (List.mem_reverse.not.mpr h.notMem)

/-- The outputs of the node in progress are stored. -/
theorem Inside.stores {node : String} {a : Account} {as : List Account} {ds : Dependencies}
    (h : Inside b s.scope (node :: nodes)) (hb : b.running = a :: as) (ha : a.Covered ds) (os : Dict) :
    Inside (b.store node) (((s.scope.leave node).withOutputs node os).cache node ds) nodes := by
  have hpath := h.path_leave
  have hlast : (b.store node).cached node = a := by
    simp [Book.store, Book.pop, hb]
  have hnodup : (node :: nodes).Nodup := by
    have := h.booked.nodup
    rwa [h.path, List.nodup_reverse] at this
  refine ⟨hpath, ⟨fun other ds' hc => ?_, fun other ho => ?_, ?_, h.marked_leave.of_eq rfl rfl⟩, h.named⟩
  · rw [Scope.cached?_cache] at hc
    split at hc
    · next heq =>
      obtain rfl := Option.some.inj hc
      rw [heq, hlast]
      exact ha
    · next hne =>
      rw [show (b.store node).cached other = b.cached other from if_neg hne]
      exact h.booked.cached other ds' hc
  · rw [show (((s.scope.leave node).withOutputs node os).cache node ds).path = (s.scope.leave node).path from rfl,
      hpath, List.mem_reverse] at ho
    have hne : other ≠ node := fun heq => (List.nodup_cons.mp hnodup).1 (heq ▸ ho)
    rw [Scope.cached?_cache, if_neg hne]
    refine h.booked.apart other ?_
    rw [h.path, List.mem_reverse]
    exact List.mem_cons_of_mem node ho
  · rw [show (((s.scope.leave node).withOutputs node os).cache node ds).path = (s.scope.leave node).path from rfl,
      hpath, List.nodup_reverse]
    exact (List.nodup_cons.mp hnodup).2

theorem Inside.busy {node : String} {sc : Scope} (h : Inside b sc (node :: nodes)) :
    node ∈ sc.path.map Prod.fst := by
  rw [h.path, List.mem_reverse]
  exact List.mem_cons_self

/-- A data-only node has run. -/
theorem finishOutput_goes {node : String} {a : Account} {as : List Account} {i : Invocation}
    (h : Inside b s.scope (node :: nodes)) (hb : b.running = a :: as) (ha : a.Covered i.dependencies)
    (hv : Stacked .value s.frames nodes as) (port : String) (serial : Nat) (v : Value) :
    ∃ own, Goes permit e s.scope (b.store node) own (e.finishOutput s node port serial v i) := by
  have hi := fun os => h.stores hb ha os
  have hrun : (b.store node).running = as := by simp [Book.store, Book.pop, hb]
  have hlast : (b.store node).last = a := by simp [Book.store, Book.pop, hb]
  have hgo : ∀ {e' : Engine} {os : Dict} {sig : Signal}, Turned permit e e' →
      Fits s.frames nodes (b.store node) (.turn sig) → ¬sig.StartsExec →
      ∃ own, Goes permit e s.scope (b.store node) own
        (e'.go { s with scope := ((s.scope.leave node).withOutputs node os).cache node i.dependencies } sig) := by
    intro e' os sig ht hf hx
    refine Goes.go ht (.moves (.stores node os _ h.busy) ⟨⟨nodes, ?_, hf⟩, ?_, ?_⟩) fun hs => absurd hs hx
    · exact (hi os).path
    · exact (hi os).booked
    · exact fun ht => absurd ht h.named
  unfold Engine.finishOutput Engine.outputResult
  dsimp only
  split
  · refine hgo (.of_tended (.modifyNode e serial _)) (.pulled (hrun ▸ hv) (hlast ▸ ha)) id
  · exact hgo (.of_tended (.modifyNode e serial _)) (.raised (hrun ▸ hv)) id

/-- An output in progress is given up. -/
theorem leave_goes {node : String} (h : Inside b s.scope (node :: nodes))
    (hv : Stacked .value s.frames nodes b.running) (err : Raised) :
    ∃ own, Goes permit e s.scope b own (e.go { s with scope := s.scope.leave node } (.raise err)) := by
  have hpath := h.path_leave
  have hsub : List.Sublist ((s.scope.leave node).path.map Prod.fst) (s.scope.path.map Prod.fst) :=
    (List.dropLast_sublist _).map _
  refine Goes.go (.refl e) (.moves (.leaves node) ⟨⟨nodes, hpath, .raised hv⟩, ?_, ?_⟩) fun hs => hs.elim
  · exact ⟨h.booked.cached, fun other ho => h.booked.apart other (hsub.subset ho), h.booked.nodup.sublist hsub,
      h.marked_leave⟩
  · exact fun ht => absurd ht h.named

end Values

section Invocations

variable {permit : Permit} {e : Engine} {s : Strand} {b : Book} {nodes : List String} {i : Invocation}
  {a : Account} {as : List Account}

/-- An error ends an invocation. -/
theorem failInvocation_goes (h : Inside b s.scope nodes) (hb : b.running = a :: as)
    (hi : Stacked .invocation s.frames nodes as) (err : Raised) {e' : Engine} (ht : Turned permit e e') :
    ∃ own, Goes permit e s.scope b.pop own (e'.failInvocation s i err) := by
  have hrun : b.pop.running = as := by simp [Book.pop, hb]
  have hgo : ∀ {e' : Engine} {err : Raised}, Turned permit e e' →
      ∃ own, Goes permit e s.scope b.pop own (e'.go s (.raise err)) := by
    intro e' err ht
    exact Goes.go ht (h.follows (.refl _) rfl (.raised (hrun ▸ hi))) fun hs => hs.elim
  unfold Engine.failInvocation
  split
  · split
    · exact hgo ht
    · exact hgo (ht.trans (.of_tended (.report _ _ _ _)))
  · exact hgo (ht.trans (.of_tended (.report _ _ _ _)))
  · exact hgo ht

/-- A result ends an invocation. -/
theorem finishInvocation_goes (h : Inside b s.scope nodes) (hb : b.running = a :: as)
    (ha : a.Covered i.dependencies) (hi : Stacked .invocation s.frames nodes as) (v : Value) :
    ∃ own, Goes permit e s.scope b own (e.finishInvocation s i v) := by
  unfold Engine.finishInvocation
  dsimp only
  refine Goes.go (.of_tended ?_) (h.follows ⟨rfl, rfl, rfl, rfl, fun _ _ => le_rfl⟩ rfl (.invoked hb ha hi))
    fun hs => hs.elim
  refine Engine.Tended.trans ?_ (.emit _ id)
  split
  · exact .modifyNode e _ _
  · exact .refl e

/-- An invocation begins. -/
theorem invoke_goes (h : Inside b s.scope nodes) (hb : b.running = a :: as)
    (ha : a.Covered i.dependencies) (hi : Stacked .invocation s.frames nodes as)
    (hstarts : permit.starts (.nodeStarted s.scope.trigger i.node i.kind.id i.mode)) :
    ∃ own, Goes permit e s.scope (if i.kind.behavior.isNone then b.pop else b) own (e.invoke s i) := by
  have hemit : Turned permit e (e.emitStarted s.scope i) := .emit e fun _ => hstarts
  unfold Engine.invoke
  cases hk : i.kind.behavior with
  | none =>
    simp only [Option.isNone_none, if_true]
    exact failInvocation_goes h hb hi _ hemit
  | some bh =>
    simp only [Option.isNone_some, Bool.false_eq_true, if_false]
    exact Goes.go hemit (h.follows (.refl _) rfl (.behaves hb ha hi)) fun hs => hs.elim

/-- A question of a behaviour is answered. -/
theorem perform_goes (h : Inside b s.scope nodes) (hb : b.running = a :: as)
    (ha : a.Covered i.dependencies) (hi : Stacked .invocation s.frames nodes as) (q : Query)
    (k : Except Raised q.Reply → Script) :
    ∃ own, Goes permit e s.scope (b.afterScript e i (.ask q k)) own
      ((e.perform i s.scope q).engine.go { s with scope := (e.perform i s.scope q).scope }
        (.call (.behave (e.perform i s.scope q).invocation (k (e.perform i s.scope q).reply)))) := by
  have hgo : ∀ {e' : Engine} {sc' : Scope} {i' : Invocation} {script : Script}, e.Tended e' →
      s.scope.Extends sc' → i'.dependencies = i.dependencies →
      ∃ own, Goes permit e s.scope b own (e'.go { s with scope := sc' } (.call (.behave i' script))) := by
    intro e' sc' i' script ht hx hd
    exact Goes.go (.of_tended ht) (h.follows hx rfl (.behaves hb (hd ▸ ha) hi)) fun hs => hs.elim
  have hread : ∀ {d : Dependency} {version : Nat} {script : Script}, d.Textual →
      ∃ own, Goes permit e s.scope (b.note d version) own (e.go { s with scope := s.scope }
        (.call (.behave { i with dependencies := i.dependencies.note d version } script))) := by
    intro d version script hd
    have hrun : (b.note d version).running = { a with kept := (d, version) :: a.kept } :: as := by
      simp [Book.note, Book.onTop, hb]
    exact Goes.go (.refl e) (h.follows (.refl _) rfl (.behaves hrun (ha.note hd version) hi))
      fun hs => hs.elim
  cases q with
  | readVariable name => exact hread trivial
  | readVariables => exact hread trivial
  | memoize port v => exact hgo (.refl e) (.publish _ _ _ _) rfl
  | log level message => exact hgo (.emit e id) (.refl _) rfl
  | setVariable name v => exact hgo (.write (.set e.store name v)) (.refl _) rfl
  | keep key c => exact hgo (.modifyNode e _ _) (.refl _) rfl
  | _ => exact hgo (.of_eq rfl rfl rfl rfl rfl) (.refl _) rfl

/-- A behaviour begins to wait. -/
theorem awaitFor_goes (h : Inside b s.scope nodes) (hb : b.running = a :: as)
    (ha : a.Covered i.dependencies) (hi : Stacked .invocation s.frames nodes as) (w : Wait)
    (k : Except Raised w.Reply → Script) :
    ∃ own, Goes permit e s.scope b own (e.awaitFor s i w k) := by
  have hbehave : ∀ {script : Script},
      ∃ own, Goes permit e s.scope b own (e.go s (.call (.behave i script))) := fun {script} =>
    Goes.go (.refl e) (h.follows (.refl _) rfl (.behaves hb ha hi)) fun hs => hs.elim
  cases w with
  | pull port =>
    have hv : Stacked .value (.behavior i (.pull port) k :: s.frames) nodes b.running := hb ▸ .pull ha hi
    exact Goes.go (.refl e) (h.follows (.refl _) rfl (.input hv)) fun hs => hs.elim
  | advance port =>
    simp only [Engine.awaitFor]
    split
    · exact hbehave
    · have hf : Stacked .flow (.behavior { i with advanced := i.advanced ++ [port] } (.advance port) k ::
          s.frames) nodes b.running := hb ▸ .advance ha hi
      exact Goes.go (.refl e) (h.follows (.refl _) rfl (.walks hf)) fun hs => hs.elim
  | checkpoint =>
    have hp : Stacked .pause (.behavior i .checkpoint k :: s.frames) nodes b.running :=
      hb ▸ .checkpoint ha hi
    exact Goes.parkTurn (.refl e) (h.follows (.refl _) rfl (.woken hp)) id
  | sleep seconds =>
    simp only [Engine.awaitFor]
    split
    · exact hbehave
    · have hp : Stacked .pause (.behavior i (.sleep seconds) k :: s.frames) nodes b.running :=
        hb ▸ .sleep ha hi
      exact Goes.park (.of_eq rfl rfl le_rfl rfl rfl) (h.follows (.refl _) rfl (.sleeps hp)) id

/-- One step of a behaviour. -/
theorem behave_goes (h : Inside b s.scope nodes) (hb : b.running = a :: as)
    (ha : a.Covered i.dependencies) (hi : Stacked .invocation s.frames nodes as) (script : Script) :
    ∃ own, Goes permit e s.scope (b.afterScript e i script) own (e.behave s i script) := by
  cases script with
  | finish v => exact finishInvocation_goes h hb ha hi v
  | fail err => exact failInvocation_goes h hb hi err (.refl e)
  | again state =>
    unfold Engine.behave Book.afterScript
    cases hk : i.kind.behavior with
    | none =>
      simp only [Option.isNone_none, if_true]
      exact failInvocation_goes h hb hi _ (.refl e)
    | some bh =>
      simp only [Option.isNone_some, Bool.false_eq_true, if_false]
      exact Goes.go (.refl e) (h.follows (.refl _) rfl (.behaves hb ha hi)) fun hs => hs.elim
  | ask q k => exact perform_goes h hb ha hi q k
  | wait w k => exact awaitFor_goes h hb ha hi w k
  | edit c k =>
    exact Goes.go (.of_tended (.command e c)) (h.follows (.refl _) rfl (.behaves hb ha hi))
      fun hs => hs.elim

/-- The innermost invocation that waits goes on after a step of its book. -/
theorem goesOn (h : Inside b s.scope nodes) (b' : Book) (i : Invocation) (hc : b'.cached = b.cached)
    (hb : b'.running = a :: as) (ha : a.Covered i.dependencies)
    (hi : Stacked .invocation s.frames nodes as) (script : Script) :
    ∃ own, Goes permit e s.scope b' own (e.go s (.call (.behave i script))) :=
  Goes.go (.refl e) (h.follows (.refl _) hc (.behaves hb ha hi)) fun hs => hs.elim

/-- A behaviour goes on with the value that it pulled. -/
theorem pulled_goes (h : Inside b s.scope nodes) (hb : b.running = a :: as)
    (ha : a.Covered i.dependencies) (hi : Stacked .invocation s.frames nodes as) {ds : Dependencies}
    (hd : b.last.Covered ds) (ht : ∀ x ∈ ds, x.1.Textual) (port : String)
    (k : Except Raised Value → Script) (v : Value) :
    ∃ own, Goes permit e s.scope b.gain own (e.resumeBehavior s i (.pull port) k (.pulled v ds)) := by
  refine goesOn h b.gain { i with dependencies := i.dependencies.merge ds } rfl ?_
    (ha.merge hd ht (b.last.lost ++ a.lost)) hi _
  simp [Book.gain, Book.hand, Book.onTop, hb]

/-- A pull of a behaviour has failed. -/
theorem failedPull_goes (h : Inside b s.scope nodes) (hb : b.running = a :: as)
    (ha : a.Covered i.dependencies) (hi : Stacked .invocation s.frames nodes as) (script : Script) :
    ∃ own, Goes permit e s.scope b.lose own (e.go s (.call (.behave i script))) := by
  refine goesOn h b.lose i rfl ?_ (ha.lost (b.last.kept ++ b.last.lost ++ a.lost)) hi script
  simp [Book.lose, Book.hand, Book.onTop, hb]

end Invocations

/-! ## Control flow -/

section Flow

variable {permit : Permit} {e : Engine} {s : Strand} {b : Book} {nodes : List String}

/-- Control flow reaches a node. -/
theorem walk_goes (h : Inside b s.scope nodes) (hf : Stacked .flow s.frames nodes b.running)
    (agenda : List String) (hstarts : ∀ n, Reaches e s (.call (.walk agenda)) n → permit.starts n) :
    ∃ own, Goes permit e s.scope (b.after e s (.call (.walk agenda))) own (e.walk s agenda) := by
  have hcases := e.walk_cases s agenda
  generalize e.walk s agenda = t at hcases ⊢
  cases hcases with
  | done => exact Goes.go (.refl e) (h.follows (.refl _) rfl (.walked hf)) fun hs => hs.elim
  | stopped hrun =>
    simp only [Book.after, hrun]
    exact Goes.go (.refl e) (h.follows (.refl _) rfl (.walked hf)) fun hs => hs.elim
  | unknown hrun hn =>
    simp only [Book.after, hrun, hn]
    exact Goes.go (.refl e) (h.follows (.refl _) rfl (.raised hf)) fun hs => hs.elim
  | @invokes node rest n k _ hrun hn hb =>
    simp only [Book.after, hrun, hn, hb, Option.isSome_some, if_true]
    exact Goes.go (.refl e) (h.follows (.refl _) rfl (.invokes rfl (.empty []) (.walk hf)))
      fun _ => ⟨hrun, fun m hm => hstarts m ⟨hrun, node, rest, n, k, rfl, hn, hm⟩⟩
  | @passes node rest n k hrun hn hb =>
    simp only [Book.after, hrun, hn, hb, Option.isSome_none, Bool.false_eq_true, if_false]
    refine Goes.go ?_ (h.follows ⟨rfl, rfl, rfl, rfl, fun _ _ => le_rfl⟩ rfl (.walks hf)) fun hs => hs.elim
    exact (Turned.emit e fun _ => hstarts _ ⟨hrun, node, rest, n, k, rfl, hn, rfl⟩).trans (.of_tended (.emit _ id))

/-- Control flow goes on after a node. -/
theorem continueFrom_goes {i : Invocation} {a : Account} {as : List Account}
    (h : Inside b s.scope nodes) (hb : b.running = a :: as) (hf : Stacked .flow s.frames nodes as)
    (v : Value) (rest : List String) :
    ∃ own, Goes permit e s.scope b.pop own (e.continueFrom s i v rest) := by
  have hrun : b.pop.running = as := by simp [Book.pop, hb]
  have hwalk : ∀ {sc' : Scope} {agenda : List String}, s.scope.Extends sc' →
      ∃ own, Goes permit e s.scope b.pop own (e.go { s with scope := sc' } (.call (.walk agenda))) :=
    fun hx => Goes.go (.refl e) (h.follows hx rfl (.walks (hrun ▸ hf))) fun hs => hs.elim
  unfold Engine.continueFrom
  dsimp only
  split
  · split
    · exact hwalk (.refl _)
    · exact Goes.go (.of_tended (.report _ _ _ _)) (h.follows (.refl _) rfl (.raised (hrun ▸ hf)))
        fun hs => hs.elim
  · exact hwalk (.publishAll _ _ _)
  · exact hwalk (.refl _)

end Flow

/-! ## Outside triggers -/

/-- A strand that is in no trigger: its frames are of requests, runs and tasks. -/
structure Outside (b : Book) (s : Strand) : Prop where
  path : s.scope.path = []
  booked : s.scope.Booked b
  frames : ∀ f ∈ s.frames, f.Outer
  running : b.running = []

section Outer

variable {permit : Permit} {e : Engine} {s : Strand} {b : Book}

/-- A turn outside any trigger, which leaves the scope alone. -/
theorem Outside.follows (h : Outside b s) {e' : Engine} {s' : Strand} {p : Parked}
    (hsc : s'.scope = s.scope) (hfr : ∀ f ∈ s'.frames, f.Outer)
    (hf : Stacked .outer s'.frames [] b.running → Fits s'.frames [] b p) :
    Follows e s.scope b e' (s', p) := by
  refine .moves (.keeps (hsc ▸ .refl _)) ⟨⟨[], ?_, hf (h.running ▸ .outer hfr)⟩, hsc ▸ h.booked, fun _ => hfr⟩
  rw [hsc, h.path]
  rfl

theorem Outside.go (h : Outside b s) {e' : Engine} {sig : Signal} (ht : Turned permit e e')
    (hf : Stacked .outer s.frames [] b.running → Fits s.frames [] b (.turn sig))
    (hx : ¬sig.StartsExec) : ∃ own, Goes permit e s.scope b own (e'.go s sig) :=
  Goes.go ht (h.follows rfl h.frames hf) fun hs => absurd hs hx

/-- A strand outside triggers goes on above one more frame. -/
theorem Outside.nest (h : Outside b s) {e' : Engine} {f : Frame} {c : Call} (ht : Turned permit e e')
    (hf : f.Outer) (hc : c.Outer) : ∃ own, Goes permit e s.scope b own (e'.nest s f c) := by
  refine Goes.go ht (h.follows rfl (List.forall_mem_cons.mpr ⟨hf, h.frames⟩) (.begins hc)) fun hs => ?_
  cases c with
  | invoke i => exact hc.elim
  | _ => exact hs.elim

/-- A strand in the scope of a new trigger. -/
theorem follows_fresh (hpos : 0 < e.nextTrigger) {sc : Scope} {e' : Engine} {x : Strand × Parked}
    (hn : e.nextTrigger < e'.nextTrigger) (hx : ({ trigger := e.nextTrigger } : Scope).Extends x.1.scope)
    (hf : Fits x.1.frames [] {} x.2) : Follows e sc b e' x := by
  refine .fresh hx.trigger hn ⟨⟨[], ?_, hf⟩,
    ⟨fun node ds hc => ?_, fun node hm => ?_, ?_, .nil hx.path hx.resolving⟩, fun ht => ?_⟩
  · rw [hx.path]
    rfl
  · rw [Scope.cached?, hx.cached] at hc
    simp at hc
  · rw [hx.path] at hm
    simp at hm
  · rw [hx.path]
    exact List.nodup_nil
  · have htrigger : x.1.scope.trigger = e.nextTrigger := hx.trigger
    omega

/-- A root trigger begins. -/
theorem startTrigger_goes (h : Outside b s) (hpos : 0 < e.nextTrigger) (node : String) (origin : Origin)
    (port : Option String) (seeds : Dict) :
    ∃ own, Goes permit e s.scope b own (e.startTrigger s node origin port seeds) := by
  have hfresh : Turned permit e e.freshScope.2 := .of_eq rfl rfl (Nat.le_succ _) rfl rfl
  cases hrun : e.running with
  | false =>
    rw [Engine.startTrigger_refused hrun]
    exact h.go hfresh .answers id
  | true =>
    have harmed := Engine.armed_tended e.freshScope.2 node origin
    rw [Engine.startTrigger_eq e s node origin port seeds hrun]
    generalize e.freshScope.2.armed node origin = x at harmed ⊢
    obtain ⟨r, e₁⟩ := x
    cases r with
    | error err => exact h.go (hfresh.trans (.of_tended harmed)) .raised id
    | ok u =>
      have hx := Scope.Extends.publishAll node seeds { trigger := e.nextTrigger }
      have hn : e.nextTrigger < e₁.nextTrigger := by
        rw [show e₁.nextTrigger = e.nextTrigger + 1 from harmed.nextTrigger]
        exact Nat.lt_succ_self _
      refine Goes.go (hfresh.trans ((Turned.of_tended harmed).trans (.of_tended (.emit e₁ id)))) ?_
        fun hs => hs.elim
      exact follows_fresh hpos hn hx (.walks (.trigger h.frames))

/-- A root trigger ends. -/
theorem endTrigger_goes (h : Outside b s) (node : String) (origin : Origin) (error : Option Failure) :
    ∃ own, Goes permit e s.scope b own (e.endTrigger s node origin error) :=
  h.go (.of_tended (.emit e id)) .answers id

/-- The next part of a run. -/
theorem armNext_goes (h : Outside b s) {e' : Engine} (ht : Turned permit e e') (rest nodes : List String)
    (results : List TriggerResult) :
    ∃ own, Goes permit e s.scope b own (e'.armNext s rest nodes results) := by
  cases rest with
  | cons node rest => exact h.nest ht trivial trivial
  | nil =>
    have htended := (Engine.Tended.spawnStarts nodes e').trans (.gather _ (e'.spawnStarts nodes).1 s.id)
    exact Goes.park (ht.trans (.of_tended htended))
      (h.follows rfl (List.forall_mem_cons.mpr ⟨trivial, h.frames⟩) .gathers) id

/-- A run begins. -/
theorem startRun_goes (h : Outside b s) (hb : permit.begins) :
    ∃ own, Goes permit e s.scope b own (e.startRun s) := by
  unfold Engine.startRun
  split
  · exact h.go (.refl e) .raised id
  · refine armNext_goes h ?_ _ _ _
    exact (Turned.beginRun e hb).trans (.of_tended (.emit e.beginRun (n := .runStarted _) id))

theorem nextStep_turned (hb : permit.begins) {id : String} {e' : Engine} (h : e.nextStep = .ok (id, e')) :
    Turned permit e e' := by
  simp only [Engine.nextStep, bind, Except.bind, pure, Except.pure] at h
  split at h
  · simp only [Except.ok.injEq, Prod.mk.injEq] at h
    rw [← h.2]
    exact .of_eq rfl rfl le_rfl rfl rfl
  · split at h
    · simp at h
    · split at h
      · simp only [Except.ok.injEq, Prod.mk.injEq] at h
        rw [← h.2]
        exact (Turned.beginRun e hb).trans (.of_eq rfl rfl le_rfl rfl rfl)
      · simp [throw, throwThe, MonadExceptOf.throw] at h

theorem step_goes (h : Outside b s) (hb : permit.begins) : ∃ own, Goes permit e s.scope b own (e.step s) := by
  unfold Engine.step
  split
  · exact h.go (.of_eq rfl rfl le_rfl rfl rfl) .raised id
  · next heq => exact h.go (nextStep_turned hb heq) (.begins trivial) id

theorem join_goes (h : Outside b s) (results : List TriggerResult) :
    ∃ own, Goes permit e s.scope b own (e.join s results) := by
  unfold Engine.join
  split
  · exact h.go (.refl e) .answers id
  · exact Goes.park (.of_tended (.gather e e.inFlight s.id))
      (h.follows rfl (List.forall_mem_cons.mpr ⟨trivial, h.frames⟩) .gathers) id

theorem waitRun_goes (h : Outside b s) (name : String) :
    ∃ own, Goes permit e s.scope b own (e.waitRun s name) := by
  unfold Engine.waitRun
  split
  · exact h.go (.refl e) .raised id
  · split
    · exact h.go (.refl e) .answers id
    · exact h.go (.refl e) .raised id
    · exact Goes.park (.of_tended (.onDone e _ _)) (h.follows rfl h.frames .joins) id

theorem pass_goes (h : Outside b s) (ms : Value) : ∃ own, Goes permit e s.scope b own (e.pass s ms) := by
  have hfr : ∀ f ∈ Frame.advancing :: s.frames, f.Outer := List.forall_mem_cons.mpr ⟨trivial, h.frames⟩
  unfold Engine.pass
  dsimp only
  split
  · split
    · exact Goes.parkTurn (.refl e) (h.follows rfl hfr .answers) id
    · split
      · exact h.go (.refl e) .raised id
      · exact Goes.park (.of_eq rfl rfl le_rfl rfl rfl) (h.follows rfl hfr .answers) id
  · exact h.go (.refl e) .raised id
  · exact h.go (.refl e) .raised id

theorem tick_goes (h : Outside b s) (n : Nat) : ∃ own, Goes permit e s.scope b own (e.tick s n) := by
  cases n with
  | zero => exact h.go (.refl e) .answers id
  | succ n =>
    exact Goes.parkTurn (.refl e)
      (h.follows rfl (List.forall_mem_cons.mpr ⟨trivial, h.frames⟩) .answers) id

theorem request_goes (h : Outside b s) (hpos : 0 < e.nextTrigger) (r : Request)
    (hb : (Signal.call (.request r)).BeginsRun → permit.begins) :
    ∃ own, Goes permit e s.scope b own (e.request s r) := by
  cases r with
  | command c =>
    have htended := Engine.Tended.command e c
    rw [Engine.request_command]
    cases (e.command c).1 with
    | ok a => exact h.go (.of_tended htended) .answers id
    | error err => exact h.go (.of_tended htended) .raised id
  | run => exact h.go (.refl e) (.begins trivial) id
  | step => exact step_goes h (hb trivial)
  | runNode id =>
    refine h.nest ?_ trivial trivial
    split
    · exact .refl e
    · exact .beginRun e (hb trivial)
  | pull id port =>
    refine Goes.go (.of_eq rfl rfl (Nat.le_succ _) rfl rfl) ?_ fun hs => hs.elim
    exact follows_fresh hpos (Nat.lt_succ_self _) (.refl _) (.input (.value h.frames))
  | join => exact join_goes h []
  | startRun name =>
    refine h.go ?_ .answers id
    exact .of_tended ((Engine.Tended.startTask e (c := .run) trivial []).trans (.of_eq rfl rfl rfl rfl rfl))
  | waitRun name => exact waitRun_goes h name
  | tick n => exact tick_goes h n
  | advance ms => exact pass_goes h ms
  | refused err => exact h.go (.refl e) .raised id

theorem answerRequest_goes (h : Outside b s) (result : Except Raised Response) :
    ∃ own, Goes permit e s.scope b own (e.answerRequest s result) := by
  have hsession : ∀ f ∈ [Frame.session], f.Outer := by simp [Frame.Outer]
  unfold Engine.answerRequest Engine.nextRequest
  dsimp only
  split
  · exact Goes.ended (.of_eq rfl rfl le_rfl rfl rfl)
  · exact Goes.go (.of_eq rfl rfl le_rfl rfl rfl) (h.follows rfl hsession (.begins trivial)) fun hs => hs.elim

/-- A result reaches a frame outside triggers. -/
theorem back_goes (h : Outside b s) {f : Frame} (hf : f.Outer) (r : Result) :
    ∃ own, Goes permit e s.scope b own (e.back s f r) := by
  have hback : ∀ {r : Result}, ∃ own, Goes permit e s.scope b own (e.go s (.back r)) :=
    fun {r} => h.go (.refl e) .answers id
  cases f with
  | arming rest nodes results =>
    have harm : ∀ results, ∃ own, Goes permit e s.scope b own (e.armNext s rest nodes results) :=
      fun results => armNext_goes h (.refl e) rest nodes results
    cases r with
    | response x => cases x <;> exact harm _
    | _ => exact harm _
  | gathering results =>
    cases r with
    | response x => cases x <;> exact hback
    | _ => exact hback
  | direct =>
    cases r with
    | response x =>
      cases x with
      | trigger t =>
        simp only [Engine.back]
        split
        · exact h.go (.refl e) .raised id
        · exact hback
      | _ => exact hback
    | _ => exact hback
  | joining results =>
    cases r with
    | response x => cases x <;> exact join_goes h _
    | _ => exact join_goes h _
  | ticking n => cases r <;> exact tick_goes h n
  | advancing => cases r <;> exact hback
  | task id => cases r <;> exact Goes.ended (.of_tended (.completeTask e id _))
  | session => cases r <;> exact answerRequest_goes h _
  | _ => exact hf.elim

/-- An error reaches a frame outside triggers. -/
theorem raise_goes (h : Outside b s) {f : Frame} (hf : f.Outer) (err : Raised) :
    ∃ own, Goes permit e s.scope b own (e.raise s f err) := by
  cases f with
  | task id => exact Goes.ended (.of_tended (.completeTask e id _))
  | session => exact answerRequest_goes h _
  | behavior | walk | output | hop | trigger | value => exact hf.elim
  | _ => exact h.go (.refl e) .raised id

end Outer

/-! ## Turns -/

section Turns

variable {e : Engine} {s : Strand} {b : Book} {nodes : List String}

/-- Unless a strand waits outside triggers, its innermost frame is of a trigger. -/
theorem Stacked.not_outer {l : Level} {fs : List Frame} {as : List Account}
    (h : Stacked l fs nodes as) (hl : l ≠ .outer) : ¬∀ f ∈ fs, f.Outer := by
  intro hall
  cases h with
  | outer => exact hl rfl
  | _ => exact hall _ List.mem_cons_self

theorem Stacked.outer_frames {fs : List Frame} {as : List Account} (h : Stacked .outer fs nodes as) :
    ∀ f ∈ fs, f.Outer := by
  cases h with
  | outer hf => exact hf

theorem Sits.inside {p : Parked} (h : Sits b (s, p)) (hpath : s.scope.path.map Prod.fst = nodes.reverse)
    {l : Level} {as : List Account} (hs : Stacked l s.frames nodes as) (hl : l ≠ .outer) :
    Inside b s.scope nodes :=
  ⟨hpath, h.booked, fun ht => hs.not_outer hl (h.named ht)⟩

/-- What is below a trigger, or a request for a value, is outside triggers. -/
theorem Inside.below (h : Inside b s.scope []) (hb : b.running = []) (hf : ∀ f ∈ s.frames, f.Outer) :
    Outside b s :=
  ⟨List.map_eq_nil_iff.mp h.path, h.booked, hf, hb⟩

theorem Sits.outside {p : Parked} (h : Sits b (s, p)) (hpath : s.scope.path.map Prod.fst = nodes.reverse)
    (hs : Stacked .outer s.frames nodes b.running) : Outside b s := by
  generalize hb : b.running = as at hs
  cases hs with
  | outer hf => exact ⟨List.map_eq_nil_iff.mp hpath, h.booked, hf, hb⟩

theorem Sits.outside_cons {p : Parked} {f : Frame} (h : Sits b ({ s with frames := f :: s.frames }, p))
    (hpath : s.scope.path.map Prod.fst = nodes.reverse)
    (hs : Stacked .outer (f :: s.frames) nodes b.running) : Outside b s ∧ f.Outer := by
  have ho := h.outside hpath hs
  have hfr := List.forall_mem_cons.mp ho.frames
  exact ⟨⟨ho.path, ho.booked, hfr.2, ho.running⟩, hfr.1⟩

/-- A strand begins something. -/
theorem call_goes {c : Call} (h : Sits b (s, .turn (.call c))) (hpos : 0 < e.nextTrigger) :
    ∃ own, Goes (e.permit s (.call c)) e s.scope (b.after e s (.call c)) own (e.call s c) := by
  obtain ⟨nodes, hpath, hfits⟩ := h.fits
  cases hfits with
  | begins hc hs =>
    have ho := h.outside hpath hs
    cases c with
    | trigger node origin port seeds => exact startTrigger_goes ho hpos node origin port seeds
    | run => exact startRun_goes ho trivial
    | request r => exact request_goes ho hpos r fun hb => hb
    | _ => exact hc.elim
  | walks hs => exact walk_goes (h.inside hpath hs nofun) hs _ fun _ => .inr
  | invokes hb ha hs => exact invoke_goes (h.inside hpath hs nofun) hb ha hs (.inl rfl)
  | behaves hb ha hs => exact behave_goes (h.inside hpath hs nofun) hb ha hs _
  | input hs => exact pullInput_goes (h.inside hpath hs nofun) hs _ _
  | output hs => exact pullOutput_goes (h.inside hpath hs nofun) hs _ _

/-! ### Results -/

variable {permit : Permit} {f : Frame} {as : List Account}

/-- Control flow has come to its end. -/
theorem back_flow_goes (h : Inside b s.scope nodes) (hb : b.running = as)
    (hs : Stacked .flow (f :: s.frames) nodes as) (r : Result) :
    ∃ own, Goes permit e s.scope (b.afterBack f r) own (e.back s f r) := by
  cases hs with
  | trigger ho => exact endTrigger_goes (h.below hb ho) _ _ none
  | advance ha hi => exact goesOn h b _ rfl hb ha hi _

/-- An invocation has ended with a result. -/
theorem back_invocation_goes (h : Inside b s.scope nodes) {a : Account} (hb : b.running = a :: as)
    {i : Invocation} (ha : a.Covered i.dependencies) (hs : Stacked .invocation (f :: s.frames) nodes as)
    (v : Value) :
    ∃ own, Goes permit e s.scope (b.afterBack f (.invoked v i)) own (e.back s f (.invoked v i)) := by
  obtain ⟨id, sc, fs⟩ := s
  cases hs with
  | walk hf => exact continueFrom_goes h hb hf v _
  | output hv => exact finishOutput_goes h hb ha hv _ _ v
  | hop hv =>
    exact Goes.parkTurn (.refl e) (h.follows (.refl _) rfl (.invoked hb ha (.output hv))) fun hs => hs.elim

/-- A value has been resolved. -/
theorem back_value_goes (h : Inside b s.scope nodes) (hb : b.running = as)
    (hs : Stacked .value (f :: s.frames) nodes as) {ds : Dependencies} (hd : b.last.Covered ds)
    (ht : ∀ x ∈ b.last.kept, x.1.Textual) (v : Value) :
    ∃ own, Goes permit e s.scope (b.afterBack f (.pulled v ds)) own (e.back s f (.pulled v ds)) := by
  cases hs with
  | value ho => exact (h.below hb ho).go (.refl e) .answers id
  | pull ha hi => exact pulled_goes h hb ha hi hd (fun x hx => ht x (hd.kept x hx)) _ _ v

/-- A behaviour goes on after a pause. -/
theorem back_pause_goes (h : Inside b s.scope nodes) (hb : b.running = as)
    (hs : Stacked .pause (f :: s.frames) nodes as) (r : Result) :
    ∃ own, Goes permit e s.scope (b.afterBack f r) own (e.back s f r) := by
  cases hs with
  | checkpoint ha hi => exact goesOn h b _ rfl hb ha hi _
  | sleep ha hi => cases r <;> exact goesOn h b _ rfl hb ha hi _

/-- A result reaches the innermost frame. -/
theorem return_goes {r : Result} (h : Sits b ({ s with frames := f :: s.frames }, .turn (.back r)))
    (ht : ∀ x ∈ b.last.kept, x.1.Textual) :
    ∃ own, Goes permit e s.scope (b.afterBack f r) own (e.back s f r) := by
  obtain ⟨nodes, hpath, hfits⟩ := h.fits
  have hin : ∀ {l : Level} {as : List Account}, Stacked l (f :: s.frames) nodes as → l ≠ .outer →
      Inside b s.scope nodes := h.inside hpath
  cases hfits with
  | answers hs =>
    obtain ⟨ho, hf⟩ := h.outside_cons hpath hs
    have hb : b.afterBack f r = b := by
      cases f <;> first | rfl | exact hf.elim
    rw [hb]
    exact back_goes ho hf r
  | walked hs => exact back_flow_goes (hin hs nofun) rfl hs r
  | invoked hb ha hs => exact back_invocation_goes (hin hs nofun) hb ha hs _
  | pulled hs hd => exact back_value_goes (hin hs nofun) rfl hs hd ht _
  | woken hs => exact back_pause_goes (hin hs nofun) rfl hs r

/-! ### Errors -/

/-- An error reaches a frame inside a trigger. -/
theorem raise_inside_goes (h : Inside b s.scope nodes) (hb : b.running = as) {l : Level}
    (hs : Stacked l (f :: s.frames) nodes as) (hl : l ≠ .outer) (err : Raised) :
    ∃ own, Goes permit e s.scope (b.after e { s with frames := f :: s.frames } (.raise err)) own
      (e.raise s f err) := by
  obtain ⟨id, sc, fs⟩ := s
  cases hs with
  | outer => exact absurd rfl hl
  | trigger ho =>
    cases err with
    | failure x => exact endTrigger_goes (h.below hb ho) _ _ (some x)
    | fault x => exact (h.below hb ho).go (.refl e) .raised fun hs => hs.elim
    | mute x => exact (h.below hb ho).go (.refl e) .raised fun hs => hs.elim
  | value ho => exact (h.below hb ho).go (.refl e) .raised fun hs => hs.elim
  | pull ha hi => exact failedPull_goes h hb ha hi _
  | advance ha hi => exact goesOn h b _ rfl hb ha hi _
  | checkpoint ha hi => exact goesOn h b _ rfl hb ha hi _
  | sleep ha hi => exact goesOn h b _ rfl hb ha hi _
  | walk hf => exact Goes.go (.refl e) (h.follows (.refl _) rfl (.raised (hb ▸ hf))) fun hs => hs.elim
  | output hv => exact leave_goes h (hb ▸ hv) err
  | hop hv =>
    rw [← hb] at hv
    exact Goes.parkTurn (.refl e) (h.follows (.refl _) rfl (.raised (.output hv))) fun hs => hs.elim

/-- An error reaches the innermost frame. -/
theorem throw_goes {err : Raised} (h : Sits b ({ s with frames := f :: s.frames }, .turn (.raise err))) :
    ∃ own, Goes permit e s.scope (b.after e { s with frames := f :: s.frames } (.raise err)) own
      (e.raise s f err) := by
  obtain ⟨nodes, hpath, hfits⟩ := h.fits
  have hin : ∀ {l : Level} {as : List Account}, Stacked l (f :: s.frames) nodes as → l ≠ .outer →
      Inside b s.scope nodes := h.inside hpath
  cases hfits with
  | @raised l _ hs =>
    by_cases hl : l = .outer
    · subst hl
      obtain ⟨ho, hf⟩ := h.outside_cons hpath hs
      have hb : b.after e { s with frames := f :: s.frames } (.raise err) = b := by
        cases f <;> first | rfl | exact hf.elim
      rw [hb]
      exact raise_goes ho hf err
    · exact raise_inside_goes (hin hs hl) rfl hs hl err

/-- What a turn does. -/
theorem turn_goes {sig : Signal} (h : Sits b (s, .turn sig)) (ht : ∀ x ∈ b.last.kept, x.1.Textual)
    (hpos : 0 < e.nextTrigger) :
    ∃ own, Goes (e.permit s sig) e s.scope (b.after e s sig) own (e.turn s sig) := by
  obtain ⟨id, sc, fs⟩ := s
  cases sig with
  | call c => exact call_goes h hpos
  | back r =>
    cases fs with
    | nil => exact Goes.ended (.refl e)
    | cons f fs => exact return_goes (s := ⟨id, sc, fs⟩) h ht
  | raise err =>
    cases fs with
    | nil => exact Goes.ended (.refl e)
    | cons f fs => exact throw_goes (s := ⟨id, sc, fs⟩) h

end Turns

end Patchbay
