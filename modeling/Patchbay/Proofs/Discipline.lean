import Mathlib.Tactic.IntervalCases
import Patchbay.Proofs.Unwinding

/-!
# The discipline of resolutions

Resolutions are nested like the calls of a stack. At every moment of a trigger its path has each node once, the marks of
its scope are the nodes of the path, an edge of data leads to each output from the one it is resolved for, and the path
is no longer than the bound. A resolution leaves path and marks as it found them, whether it ends with a value or an
error, so that an error that a behaviour handles does not stand in the way of later pulls; and it ends, whatever the
graph is like, because each nested one marks one more node.

Contents:
* `Scope.Disciplined`: that path and marks are in order.

Results:
* `resolution_discipline`: resolutions keep the discipline, and end; refusals tell of a cycle, or of a graph with more
  data-only nodes than the bound.
-/

namespace Patchbay

/-- Whether the path of a scope and its marks are in order, for a program and a bound on nested resolutions. -/
structure Scope.Disciplined (p : Program) (bound : Nat) (sc : Scope) : Prop where
  nodup : (sc.path.map Prod.fst).Nodup
  marks : ∀ node, node ∈ sc.resolving ↔ node ∈ sc.path.map Prod.fst
  chain : sc.path.IsChain p.Joined
  length_le : sc.path.length ≤ bound

section Discipline

variable {p : Program} {e : Engine} {s : Strand} {node port : String} {fs : List Frame}

/-! ## Scopes -/

/-- Frames that are linked, with nodes that differ, keep the discipline. -/
theorem Linked.disciplined {sc : Scope} {bound : Nat} (h : Linked p fs) (hs : sc.Lists (outputsIn fs))
    (hnodup : (sc.path.map Prod.fst).Nodup) (hbound : p.config.maxPullDepth.asInt? = some (bound : Int)) :
    sc.Disciplined p bound := by
  refine ⟨hnodup, fun node => ?_, ?_, ?_⟩
  · rw [hs.resolving, hs.path, List.map_reverse, List.mem_reverse]
  · rw [hs.path]
    exact h.isChain
  · rw [hs.path, List.length_reverse]
    exact h.length_le hbound

/-- An output that is wanted by the innermost one continues the path. -/
theorem Linked.isChain_append {sc : Scope} (h : Linked p fs) (hs : sc.Lists (outputsIn fs))
    (hc : p.Computes (node, port)) (hwanted : ∀ o ∈ (outputsIn fs).head?, p.Wants o.1 (node, port)) :
    (sc.path ++ [(node, port)]).IsChain p.Joined := by
  rw [hs.path, ← List.reverse_cons, List.isChain_reverse, List.isChain_cons]
  exact ⟨fun o ho => (hwanted o ho).joined hc, List.isChain_reverse.mp h.isChain⟩

/-- While a data-only node is not being resolved, the path is shorter than the list of data-only nodes. -/
theorem Linked.length_lt {sc : Scope} (h : Linked p fs) (hs : sc.Lists (outputsIn fs))
    (hnodup : (sc.path.map Prod.fst).Nodup) (hc : p.Computes (node, port)) (hidle : sc.isResolving node = false) :
    sc.path.length < (p.graph.nodes.filter fun n => p.dataOnly n.id).length := by
  have hdistinct : (node :: (outputsIn fs).map Prod.fst).Nodup := by
    rw [hs.path, List.map_reverse, List.nodup_reverse] at hnodup
    exact List.nodup_cons.mpr ⟨hs.notMem_of_idle hidle, hnodup⟩
  have hlisted {o : String × String} (ho : p.Computes o) :
      o.1 ∈ (p.graph.nodes.filter fun n => p.dataOnly n.id).map Node.id := by
    obtain ⟨n, hn, hid⟩ := ho.hasNode
    exact List.mem_map.mpr ⟨n, List.mem_filter.mpr ⟨hn, by rw [hid]; exact ho.dataOnly⟩, hid⟩
  have hsubset : node :: (outputsIn fs).map Prod.fst ⊆
      (p.graph.nodes.filter fun n => p.dataOnly n.id).map Node.id := by
    refine List.cons_subset.mpr ⟨hlisted hc, fun u hu => ?_⟩
    obtain ⟨o, ho, rfl⟩ := List.mem_map.mp hu
    exact hlisted (h.computes o ho)
  have hle := (hdistinct.subperm hsubset).length_le
  rw [List.length_cons, List.length_map, List.length_map] at hle
  rw [hs.path, List.length_reverse]
  exact hle

/-! ## Refusals -/

/-- What a request for an output that is refused was refused for. -/
theorem Requested.refused {t : Engine.Turn} (h : Requested p e s node port t) {s' : Strand} {f : Failure}
    (hn : t.next = some (s', .raise (.failure f))) (hf : f.cause.OfNesting) :
    p.Computes (node, port) ∧
      ((s.scope.isResolving node = true ∧ f.cause = .cyclic (s.scope.path ++ [(node, port)])) ∨
        (s.scope.isResolving node = false ∧ ¬p.RoomAbove s.scope.path.length ∧ ∀ path, f.cause ≠ .cyclic path)) := by
  cases h with
  | answered hanswers =>
    obtain ⟨rfl, rfl⟩ := Prod.mk.inj (Option.some.inj hn)
    exact absurd hf hanswers
  | circular hc hbusy =>
    have herr : Raised.cause (.cyclic (s.scope.path ++ [(node, port)])) = .failure f :=
      Signal.raise.inj (Prod.mk.inj (Option.some.inj hn)).2
    obtain rfl := Raised.failure.inj herr
    exact ⟨hc, .inl ⟨hbusy, rfl⟩⟩
  | deep hc hidle hfull =>
    refine ⟨hc, .inr ⟨hidle, hfull, fun path hcause => ?_⟩⟩
    have herr : e.tooDeep node port = .failure f := Signal.raise.inj (Prod.mk.inj (Option.some.inj hn)).2
    unfold Engine.tooDeep at herr
    split at herr
    · obtain rfl := Raised.failure.inj herr
      cases hcause
    · cases herr
  | runs hc hidle hroom hnode hd =>
    unfold Engine.runForOutput at hn
    dsimp only at hn
    split at hn <;> cases hn

end Discipline

/-! ## Sessions -/

section Sessions

variable {p : Program} {run : Nat → Engine.Turn} {T : Nat}

/-- A strand that asks for an output is inside its trigger. -/
theorem inside_of_output {lo : Nat → Dependency → Nat} {L : Ledger} {t : Engine.Turn} (h : Orderly lo L t)
    {s : Strand} {node port : String} (hn : t.next = some (s, .call (.output node port))) :
    ¬∀ f ∈ s.frames, f.Outer :=
  (h.placed _ (Engine.Turn.mem_population_of_next hn)).sits.outer_of_frames

/-- What is inside a trigger at any moment of a session that goes on. -/
theorem nested_of_inside (hopens : Opens (run 0)) (hbeats : ∀ k, Beat (run k) (run (k + 1)))
    (hprogram : ∀ k, (run k).Hosts T → (run k).engine.program = p) (hshaped : ∀ k ∈ p.registry.kinds, k.Shaped)
    {k : Nat} {x : Strand × Parked} (hx : x ∈ (run k).population) (hxT : x.1.scope.trigger = T)
    (hinside : ¬∀ f ∈ x.1.frames, f.Outer) : Nested p x := by
  obtain ⟨L, hL⟩ := orderly_onward hopens hbeats k
  have hT : T ≠ 0 := fun hzero => hinside ((hL.placed x hx).sits.named (hxT.trans hzero))
  have hplays : ∀ j < k, Play (run j) (run (j + 1)) := fun j _ => (hbeats j).play
  have hduring := nested_run hopens hplays hT hshaped (fun j _ => hprogram j) le_rfl
  exact (hduring x hx hxT).resolve_left hinside

/-- Path and marks are in order at any moment. -/
theorem disciplined_run (hopens : Opens (run 0)) (hbeats : ∀ k, Beat (run k) (run (k + 1)))
    (hprogram : ∀ k, (run k).Hosts T → (run k).engine.program = p) (hshaped : ∀ k ∈ p.registry.kinds, k.Shaped)
    {bound : Nat} (hbound : p.config.maxPullDepth.asInt? = some (bound : Int)) {k : Nat} {x : Strand × Parked}
    (hx : x ∈ (run k).population) (hxT : x.1.scope.trigger = T) : x.1.scope.Disciplined p bound := by
  obtain ⟨L, hL⟩ := orderly_onward hopens hbeats k
  have hsits := (hL.placed x hx).sits
  by_cases hout : ∀ f ∈ x.1.frames, f.Outer
  · have hnone : Linked p [] := trivial
    exact hnone.disciplined (hsits.lists_of_outer hout) hsits.booked.nodup hbound
  · have hn := nested_of_inside hopens hbeats hprogram hshaped hx hxT hout
    exact hn.linked.disciplined hn.lists hsits.booked.nodup hbound

/-- A resolution leaves path and marks as it found them. -/
theorem Resolves.restores {j k : Nat} {s s' : Strand} {node port : String} {sig : Signal}
    (h : Resolves run j k s s' node port sig) (hopens : Opens (run 0)) (hbeats : ∀ k, Beat (run k) (run (k + 1)))
    (hprogram : ∀ k, (run k).Hosts T → (run k).engine.program = p) (hshaped : ∀ k ∈ p.registry.kinds, k.Shaped)
    (hsT : s.scope.trigger = T) :
    s'.scope.path = s.scope.path ∧ s'.scope.resolving = s.scope.resolving := by
  obtain ⟨L, hL⟩ := orderly_onward hopens hbeats j
  have hinside := inside_of_output hL h.begins
  have hbegins := (nested_of_inside hopens hbeats hprogram hshaped
    (Engine.Turn.mem_population_of_next h.begins) hsT hinside).lists
  have hends := (nested_of_inside hopens hbeats hprogram hshaped
    (Engine.Turn.mem_population_of_next h.ends) (h.trigger.trans hsT) (h.frames ▸ hinside)).lists
  rw [h.frames] at hends
  exact ⟨hends.path.trans hbegins.path.symm, hends.resolving.trans hbegins.resolving.symm⟩

/-- A resolution ends, unless its strand is left waiting. -/
theorem exists_resolves (hopens : Opens (run 0)) (hbeats : ∀ k, Beat (run k) (run (k + 1)))
    (hprogram : ∀ k, (run k).Hosts T → (run k).engine.program = p) (hshaped : ∀ k ∈ p.registry.kinds, k.Shaped)
    (hhalting : p.Halting) {k : Nat} {s : Strand} {node port : String}
    (hn : (run k).next = some (s, .call (.output node port))) (hsT : s.scope.trigger = T) :
    (∃ l s' sig, Resolves run k l s s' node port sig ∧ sig.EndsPull) ∨ ∃ l, k ≤ l ∧ LeftWaiting run l s.id := by
  obtain ⟨L, hL⟩ := orderly_onward hopens hbeats k
  have hmem := Engine.Turn.mem_population_of_next hn
  have hinside := inside_of_output hL hn
  have hx := nested_of_inside hopens hbeats hprogram hshaped hmem hsT hinside
  have hp := hprogram k ⟨_, hmem, hsT, hinside⟩
  have hrun : run k = (run k).engine.go s (.call (.output node port)) := congrArg (Engine.Turn.mk _) hn
  have hunwinds := unwinds_output hshaped hhalting _ (run k).engine s node port hp hx.lists
  rcases hunwinds.comes hopens hbeats hprogram hinside hrun hsT with ⟨l, s', sig, hends, -, hpull⟩ | hleft
  · have hlt : k < l := by
      refine Nat.lt_of_le_of_ne hends.le fun heq => ?_
      subst heq
      obtain ⟨-, rfl⟩ := Prod.mk.inj (Option.some.inj (hn.symm.trans hends.ends))
      exact hends.ended
    refine .inl ⟨l, s', sig, ⟨hlt, hn, hends.ends, hends.trigger.trans hsT.symm, hends.frames, hends.ended, ?_⟩, hpull⟩
    exact fun m hkm hml s'' sig'' hm hsame => hends.first m hkm.le hml s'' sig'' hm (hsame.trans hsT)
  · exact .inr hleft

/-- The path that a refusal for a circle carries comes back to a node of it, along edges of data. -/
theorem Nested.path_of_refused {e : Engine} {s : Strand} {node port : String} {t : Engine.Turn}
    (hx : Nested p (s, .turn (.call (.output node port)))) (h : Requested p e s node port t) {s' : Strand} {f : Failure}
    (hn : t.next = some (s', .raise (.failure f))) {path : List (String × String)} (hf : f.cause = .cyclic path) :
    (∃ earlier last, path = earlier ++ [last] ∧ last.1 ∈ earlier.map Prod.fst) ∧ path.IsChain p.Joined ∧
      ∃ u, Relation.TransGen (fun u v => ∃ port, p.graph.Feeds p.registry u port v) u u := by
  obtain ⟨hc, hwhy⟩ := h.refused hn (by rw [hf]; trivial)
  obtain ⟨hbusy, hpath⟩ := hwhy.resolve_right fun hdeep => hdeep.2.2 path hf
  obtain rfl := Cause.cyclic.inj (hf.symm.trans hpath)
  have hchain := hx.linked.isChain_append hx.lists hc hx.next
  have hagain : node ∈ s.scope.path.map Prod.fst := by
    rw [hx.lists.path, List.map_reverse, List.mem_reverse, ← hx.lists.resolving]
    simpa [Scope.isResolving] using hbusy
  exact ⟨⟨s.scope.path, (node, port), rfl, hagain⟩, hchain, cyclic_of_isChain hchain hagain⟩

/-- Where the bound covers the data-only nodes, no refusal is for depth. -/
theorem Nested.not_tooDeep {e : Engine} {s : Strand} {node port : String} {t : Engine.Turn}
    (hx : Nested p (s, .turn (.call (.output node port)))) (hnodup : (s.scope.path.map Prod.fst).Nodup)
    (h : Requested p e s node port t) {s' : Strand} {f : Failure} (hn : t.next = some (s', .raise (.failure f)))
    {bound : Nat} (hbound : p.config.maxPullDepth.asInt? = some (bound : Int))
    (hfew : (p.graph.nodes.filter fun n => p.dataOnly n.id).length ≤ bound) (depth m q : String) :
    f.cause ≠ .tooDeep depth m q := by
  intro hf
  obtain ⟨hc, ⟨-, hpath⟩ | ⟨hidle, hfull, -⟩⟩ := h.refused hn (by rw [hf]; trivial)
  · cases hf.symm.trans hpath
  · have hlt := hx.linked.length_lt hx.lists hnodup hc hidle
    refine hfull ((Program.roomAbove_iff hbound _).mpr ?_)
    exact Int.ofNat_lt.mpr (hlt.trans_le hfew)

/-- Resolutions keep the discipline of a stack, and end, if the program stays as it is while the trigger is in progress
and the behaviours of its data-only nodes halt. At any moment path and marks are in order; a resolution leaves them as
it found them; it ends with a value or an error, unless the session leaves its strand waiting for ever; a refusal for a
circle carries a path that comes back to a node of it, so that the graph has a cycle of data; and where there are no
more data-only nodes than the bound, no refusal is for depth. -/
theorem resolution_discipline (hopens : Opens (run 0)) (hbeats : ∀ k, Beat (run k) (run (k + 1)))
    (hprogram : ∀ k, (run k).Hosts T → (run k).engine.program = p) (hshaped : ∀ k ∈ p.registry.kinds, k.Shaped)
    (hhalting : p.Halting) {bound : Nat} (hbound : p.config.maxPullDepth.asInt? = some (bound : Int)) :
    (∀ k, ∀ x ∈ (run k).population, x.1.scope.trigger = T → x.1.scope.Disciplined p bound) ∧
      (∀ j k s s' node port sig, s.scope.trigger = T → Resolves run j k s s' node port sig →
        s'.scope.path = s.scope.path ∧ s'.scope.resolving = s.scope.resolving) ∧
      ∀ k s node port, (run k).next = some (s, .call (.output node port)) → s.scope.trigger = T →
        ((∃ l s' sig, Resolves run k l s s' node port sig ∧ sig.EndsPull) ∨ ∃ l, k ≤ l ∧ LeftWaiting run l s.id) ∧
        ∀ s' f, (run (k + 1)).next = some (s', .raise (.failure f)) →
          (∀ path, f.cause = .cyclic path →
            (∃ earlier last, path = earlier ++ [last] ∧ last.1 ∈ earlier.map Prod.fst) ∧ path.IsChain p.Joined ∧
            ∃ u, Relation.TransGen (fun u v => ∃ port, p.graph.Feeds p.registry u port v) u u) ∧
          ((p.graph.nodes.filter fun n => p.dataOnly n.id).length ≤ bound →
            ∀ depth m q, f.cause ≠ .tooDeep depth m q) := by
  refine ⟨fun k x hx hxT => disciplined_run hopens hbeats hprogram hshaped hbound hx hxT,
    fun j k s s' node port sig hsT hres => hres.restores hopens hbeats hprogram hshaped hsT,
    fun k s node port hn hsT => ⟨exists_resolves hopens hbeats hprogram hshaped hhalting hn hsT, fun s' f hraise => ?_⟩⟩
  obtain ⟨L, hL⟩ := orderly_onward hopens hbeats k
  have hmem := Engine.Turn.mem_population_of_next hn
  have hinside := inside_of_output hL hn
  have hx := nested_of_inside hopens hbeats hprogram hshaped hmem hsT hinside
  have hrequested := (run k).engine.requested (hprogram k ⟨_, hmem, hsT, hinside⟩) hshaped s node port
  rw [(hbeats k).play.eq_turn hn] at hraise
  exact ⟨fun path hcause => hx.path_of_refused hrequested hraise hcause,
    fun hfew => hx.not_tooDeep (hL.placed _ hmem).sits.booked.nodup hrequested hraise hbound hfew⟩

end Sessions

/-! ## A ring -/

/-- A session goes on, by a turn or a job, or else by a request. -/
def Engine.Turn.onward (t : Engine.Turn) : Engine.Turn :=
  match Engine.advance t with
  | some t' => t'
  | none => { t.engine with nextStrand := t.engine.nextStrand + 1 }.go
      { id := t.engine.nextStrand, frames := [.session] } (.call (.request (.tick 0)))

theorem Beat.onward (t : Engine.Turn) : Beat t t.onward := by
  unfold Engine.Turn.onward
  split
  · next h => exact .of_advance h
  · next h =>
    refine .request ?_ _
    cases hn : t.next with
    | none => rfl
    | some x => simp [Engine.advance, hn] at h

/-- Two relays that are wired in a ring, and a third one that is asked for its input, which comes from the ring. -/
def ringSession : Engine.Turn :=
  opening (.initial {}
    { kinds := [.sketch "relay" .expression [{ id := "in" }] [Library.yields "value" .any] (some relayed)] }
    { nodes := [{ serial := 0, id := "x", kind := "relay" }, { serial := 1, id := "y", kind := "relay" },
        { serial := 2, id := "z", kind := "relay" }]
      edges := [⟨"x", "value", "y", "in"⟩, ⟨"y", "value", "x", "in"⟩, ⟨"x", "value", "z", "in"⟩]
      nextSerial := 3 } 0.01)
    [.pull "z" "in"]

/-- The state after a number of steps of that session, which never ends. -/
def circling (k : Nat) : Engine.Turn := k.repeat Engine.Turn.onward ringSession

theorem opens_circling : Opens (circling 0) := by
  show Opens ringSession
  refine ⟨_, _, _, _, _, ?_, rfl⟩
  exact ⟨by decide, by decide⟩

theorem beat_circling (k : Nat) : Beat (circling k) (circling (k + 1)) := .onward _

/-- The pull is over after 18 steps. -/
theorem over_circling {k : Nat} (hk : 18 ≤ k) : Over 1 (circling k) := by
  induction k, hk using Nat.le_induction with
  | base =>
    refine ⟨by decide +kernel, fun x hx _ => .inl ?_⟩
    have hone : ∃ s sig, (circling 18).population = [(s, .turn sig)] ∧ s.frames = [.session] := ⟨_, _, rfl, rfl⟩
    obtain ⟨s, sig, hpopulation, hframes⟩ := hone
    rw [hpopulation, List.mem_singleton] at hx
    subst hx
    rw [hframes]
    exact List.forall_mem_singleton.mpr trivial
  | succ k _ ih =>
    obtain ⟨L, hL⟩ := orderly_onward opens_circling beat_circling k
    exact ih.step hL (by decide) (beat_circling k).play.step

/-- The strand of the pull is gone after 19 steps. -/
theorem gone_circling {k : Nat} (hk : 19 ≤ k) :
    0 < (circling k).engine.nextStrand ∧ ∀ x ∈ (circling k).population, x.1.id ≠ 0 := by
  induction k, hk using Nat.le_induction with
  | base =>
    have hnone : (circling 19).population = [] := rfl
    rw [hnone]
    exact ⟨by decide +kernel, List.forall_mem_nil _⟩
  | succ k _ ih =>
    have hbeat := beat_circling k
    exact ⟨ih.1.trans_le hbeat.nextStrand_le, hbeat.absent ih.1 ih.2⟩

/-- The resolution that the ring is entered by ends with the path as it was. On the way, the third node of the path is
the first one again. -/
theorem resolution_discipline_ring :
    (∃ s l s' sig, (circling 2).next = some (s, .call (.output "x" "value")) ∧
      Resolves circling 2 l s s' "x" "value" sig ∧ sig.EndsPull ∧ s'.scope.path = []) ∧
    ∃ s s' f path, (circling 10).next = some (s, .call (.output "x" "value")) ∧
      s.scope.path = [("x", "value"), ("y", "value")] ∧ (circling 11).next = some (s', .raise (.failure f)) ∧
      f.cause = .cyclic path ∧ path = [("x", "value"), ("y", "value"), ("x", "value")] ∧
      path.IsChain ringSession.engine.program.Joined ∧ s'.scope.Disciplined ringSession.engine.program 10000 := by
  have hprogram : ∀ k, (circling k).Hosts 1 → (circling k).engine.program = ringSession.engine.program := by
    intro k hhosts
    by_cases hk : k < 18
    · interval_cases k <;> rfl
    · obtain ⟨x, hx, hxT, hinside⟩ := hhosts
      exact (hinside (((over_circling (Nat.le_of_not_lt hk)).outside x hx hxT).resolve_right id)).elim
  have hhalting : ringSession.engine.program.Halting := by
    intro k hk _ b hb
    rw [List.mem_singleton.mp hk] at hb
    obtain rfl := Option.some.inj hb
    refine .wait fun r => ?_
    cases r with
    | ok v => exact .finish v
    | error err => exact .fail err
  have hbound : ringSession.engine.program.config.maxPullDepth.asInt? = some ((10000 : Nat) : Int) := rfl
  obtain ⟨hmoments, hrestores, hrequests⟩ :=
    resolution_discipline opens_circling beat_circling hprogram (by decide) hhalting hbound
  constructor
  · obtain ⟨s, hn, hT, hid, hpath⟩ : ∃ s, (circling 2).next = some (s, .call (.output "x" "value")) ∧
        s.scope.trigger = 1 ∧ s.id = 0 ∧ s.scope.path = [] := ⟨_, rfl, rfl, rfl, rfl⟩
    rcases (hrequests 2 s "x" "value" hn hT).1 with ⟨l, s', sig, hres, hpull⟩ | ⟨l, -, x, hxid, -, hwaits⟩
    · exact ⟨s, l, s', sig, hn, hres, hpull, (hrestores _ _ _ _ _ _ _ hT hres).1.trans hpath⟩
    · have hmem := (hwaits (l + 19) (Nat.le_add_right l 19)).1
      exact absurd (hxid.trans hid) ((gone_circling (Nat.le_add_left 19 l)).2 x (Staffed.mem_population hmem))
  · obtain ⟨s, s', f, path, hn, hpath, hraise, hf, hcircle, hT, hT'⟩ : ∃ s s' f path,
        (circling 10).next = some (s, .call (.output "x" "value")) ∧
        s.scope.path = [("x", "value"), ("y", "value")] ∧
        (circling 11).next = some (s', .raise (.failure f)) ∧ f.cause = .cyclic path ∧
        path = [("x", "value"), ("y", "value"), ("x", "value")] ∧ s.scope.trigger = 1 ∧ s'.scope.trigger = 1 :=
      ⟨_, _, _, _, rfl, rfl, rfl, rfl, rfl, rfl, rfl⟩
    obtain ⟨-, hchain, -⟩ := ((hrequests 10 s "x" "value" hn hT).2 s' f hraise).1 path hf
    exact ⟨s, s', f, path, hn, hpath, hraise, hf, hcircle, hchain,
      hmoments 11 _ (Engine.Turn.mem_population_of_next hraise) hT'⟩

end Patchbay
