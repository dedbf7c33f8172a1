import Patchbay.Proofs.Present
import Patchbay.Proofs.Seats

/-!
# What is reported of an invocation

When an invocation ends, observers are told which outputs its node has, and the node shows its outputs. The result is
recorded one turn later: control flow publishes a mapping that the behaviour returned, a pull merges what it yielded.
So observers do not hear of the outputs that come with the result itself, and a node that control flow reached shows a
returned mapping alone, without what its behaviour had put out before. What a pull records the node shows in full.

Contents:
* `Invocation.adds`, `Invocation.shows`: the outputs that a result adds, and those that the node shows.
* `Agrees`: whether what was reported agrees with the outputs of the node in the trigger.
* `Reported`: what observers were told, and what the node shows, before a result is recorded.

Results:
* `Dict.keys_update_iff`, `Dict.alike_update_iff`: when an update adds no key, and when it makes no difference.
* `reported_run`: what was reported, all along a run.
* `reported_agrees_iff`: when it agrees with what is recorded.
-/

namespace Patchbay

/-! ## Dictionaries -/

namespace Dict

/-- Whether two dictionaries have the same ports, with the same values. -/
def Alike (d d' : Dict) : Prop := ∀ port : String, d.get? (.str port) = d'.get? (.str port)

theorem keys_set (d : Dict) (k v : Value) :
    (d.set k v).map Prod.fst = if d.has k then d.map Prod.fst else d.map Prod.fst ++ [k] := by
  induction d with
  | nil => rfl
  | cons e rest ih =>
    rw [set]
    by_cases hk : Value.same k e.1 = true
    · simp [has, hk]
    · have hhas : has (e :: rest) k = has rest k := by simp [has, hk]
      rw [if_neg hk, hhas, List.map_cons, ih]
      split <;> rfl

theorem has_congr {d d' : Dict} (h : d.map Prod.fst = d'.map Prod.fst) (k : Value) : d.has k = d'.has k := by
  have hkeys : ∀ d : Dict, d.has k = (d.map Prod.fst).any fun x => Value.same k x := fun d => by
    simp [has, List.any_map, Function.comp_def]
  rw [hkeys, hkeys, h]

theorem length_le_update (d es : Dict) : d.length ≤ (d.update es).length := by
  induction es generalizing d with
  | nil => exact le_refl _
  | cons x rest ih =>
    have hset : d.length ≤ (d.set x.1 x.2).length := by
      rw [← List.length_map Prod.fst, ← List.length_map Prod.fst, keys_set]
      split <;> simp
    exact hset.trans (ih (d.set x.1 x.2))

/-- An update adds no key when all of its keys are there. -/
theorem keys_update_iff (d es : Dict) :
    (d.update es).map Prod.fst = d.map Prod.fst ↔ ∀ x ∈ es, d.has x.1 = true := by
  induction es generalizing d with
  | nil => simp [update]
  | cons x rest ih =>
    rw [List.forall_mem_cons]
    have hupdate : d.update (x :: rest) = (d.set x.1 x.2).update rest := rfl
    have hkeys := keys_set d x.1 x.2
    by_cases hx : d.has x.1 = true
    · rw [if_pos hx] at hkeys
      have hsame : ∀ y : Value × Value, (d.set x.1 x.2).has y.1 = d.has y.1 := fun y => has_congr hkeys y.1
      rw [hupdate, ← hkeys, ih]
      simp only [hsame, hx, true_and]
    · refine iff_of_false (fun h => ?_) fun h => hx h.1
      rw [if_neg hx] at hkeys
      have hlength := congrArg List.length hkeys
      have hmore := length_le_update (d.set x.1 x.2) rest
      have hsame := congrArg List.length h
      rw [hupdate] at hsame
      simp only [List.length_map, List.length_append, List.length_singleton] at hlength hsame
      omega

/-- What a mapping without repetitions puts under a text, it puts there whatever there was before. -/
theorem get?_update_of_nodup {es : Dict} (h : (es.map Prod.fst).Nodup) (d : Dict) (s : String) :
    (d.update es).get? (.str s) = (es.get? (.str s)).or (d.get? (.str s)) := by
  induction es generalizing d with
  | nil => rfl
  | cons x rest ih =>
    obtain ⟨k, v⟩ := x
    obtain ⟨hk, hrest⟩ := List.nodup_cons.mp h
    have hupdate : (d.update ((k, v) :: rest)).get? (.str s) = (get? rest (.str s)).or ((d.set k v).get? (.str s)) :=
      ih hrest (d.set k v)
    rw [hupdate]
    by_cases hks : k = .str s
    · subst hks
      have hnone : get? rest (.str s) = none := by
        rw [get?, Option.map_eq_none_iff, List.find?_eq_none]
        intro e he hsame
        exact hk (List.mem_map.mpr ⟨e, he, Value.str_same_iff.mp hsame⟩)
      rw [hnone, get?_set_self]
      simp [get?, Value.same]
    · have hother : Value.same (.str s) k = false := by
        rw [← Bool.not_eq_true, Value.str_same_iff]
        exact hks
      rw [get?_set_of_ne d v hks]
      simp [get?, hother]

/-- A mapping without repetitions is what an update by it makes of a dictionary when it leaves out none of the ports
there. -/
theorem alike_update_iff {es : Dict} (h : (es.map Prod.fst).Nodup) (d : Dict) :
    es.Alike (d.update es) ↔
      ∀ port : String, (d.get? (.str port)).isSome = true → (es.get? (.str port)).isSome = true := by
  refine forall_congr' fun port => ?_
  rw [get?_update_of_nodup h]
  cases es.get? (.str port) with
  | none => cases d.get? (.str port) <;> simp
  | some v => simp

end Dict

/-! ## What a result comes to -/

/-- The outputs that the result of an invocation adds. A mapping adds its entries; another value is an output only to a
pull of a node that has one data output. -/
def Invocation.adds (i : Invocation) : Value → Dict
  | .dict es => es
  | .null => []
  | v => if i.mode = .pull then match i.kind.dataOutputs with
      | [p] => [(.str p.id, v)]
      | _ => []
    else []

/-- The outputs that the node of an invocation shows once the result is recorded: where control flow goes on a mapping
that was returned, and otherwise the outputs of the node in the trigger. -/
def Invocation.shows (i : Invocation) (before : Dict) (v : Value) : Dict :=
  match i.mode, v with
  | .exec, .dict es => es
  | _, v => before.update (i.adds v)

/-- Whether what is reported of a node agrees with its outputs in a trigger: the outputs that it shows, if it has any
there, and the ports that observers were told of. -/
def Agrees (sc : Scope) (node : String) (shown : Dict) (present : List Value) : Prop :=
  (sc.hasOutputs node = true → shown.Alike (sc.outputsOf node)) ∧ present = (sc.outputsOf node).map Prod.fst

theorem Invocation.shows_of_dict {i : Invocation} (hmode : i.mode = .exec) (before es : Dict) :
    i.shows before (.dict es) = es := by
  simp only [shows, hmode]

theorem Invocation.shows_of_not {i : Invocation} {v : Value} (h : ¬(i.mode = .exec ∧ ∃ es : Dict, v = .dict es))
    (before : Dict) : i.shows before v = before.update (i.adds v) := by
  unfold shows
  split
  · next es hmode => exact absurd ⟨hmode, es, rfl⟩ h
  · rfl

theorem mergedOutputs_eq {i : Invocation} (hmode : i.mode = .pull) (before : Dict) (v : Value) :
    Engine.mergedOutputs i.kind before v = before.update (i.adds v) := by
  unfold Engine.mergedOutputs Invocation.adds
  cases v with
  | dict | null => rfl
  | _ =>
    dsimp only
    rw [if_pos hmode]
    rcases i.kind.dataOutputs with _ | ⟨p, _ | ⟨q, rest⟩⟩ <;> rfl

theorem Scope.hasOutputs_of_ne_nil {sc : Scope} {node : String} (h : sc.outputsOf node ≠ []) :
    sc.hasOutputs node = true := by
  by_contra hnone
  refine h ?_
  have hlookup : sc.outputs.lookup node = none := by
    refine List.lookup_eq_none_iff.mpr fun x hx => ?_
    have hne : ¬(x.1 == node) = true := List.any_eq_false.mp (Bool.eq_false_of_not_eq_true hnone) x hx
    exact bne_iff_ne.mpr fun h => hne (beq_iff_eq.mpr h.symm)
  rw [outputsOf, hlookup]
  rfl

/-! ## Before the result is recorded -/

namespace Engine

/-- A change to the node with a serial is seen at that node. -/
theorem nodeBySerial?_modifyNode (e : Engine) (serial : Nat) {f : Node → Node} (hf : ∀ n, (f n).serial = n.serial) :
    (e.modifyNode serial f).nodeBySerial? serial = (e.nodeBySerial? serial).map f := by
  have hfind : ∀ ns : List Node, ((ns.map fun n => if n.serial == serial then f n else n).find? fun n =>
      n.serial == serial) = (ns.find? fun n => n.serial == serial).map f := by
    intro ns
    have hsame : ((fun n : Node => n.serial == serial) ∘ fun n => if n.serial == serial then f n else n) =
        fun n => n.serial == serial := by
      funext n
      dsimp only [Function.comp_apply]
      split
      · rw [hf]
      · rfl
    rw [List.find?_map, hsame]
    cases hn : ns.find? fun n => n.serial == serial with
    | none => rfl
    | some n => exact congrArg some (if_pos (List.find?_some (p := fun n : Node => n.serial == serial) hn))
  simp only [modifyNode, nodeBySerial?, hfind]
  cases e.graph.nodes.find? fun n => n.serial == serial <;> rfl

theorem heard_emit (e : Engine) (T : Nat) {m : Notice} (hm : m.trigger? = some T) :
    (e.emit m).heard T = e.heard T ++ [m] := by
  simp [heard, emit, hm]

end Engine

/-- What has been reported of an invocation that ended with a result, before the result is recorded. The last that
observers heard of the trigger is that the node finished, with the outputs that it had. Where control flow goes on the
result is recorded by the next turn, and the node shows the outputs that come with it. -/
structure Reported (t : Engine.Turn) (s : Strand) (v : Value) (i : Invocation) : Prop where
  heard : (t.engine.heard s.scope.trigger).getLast? =
    some (.nodeFinished s.scope.trigger i.node i.kind.id ((s.scope.outputsOf i.node).map Prod.fst))
  shown : i.mode = .exec → t.next = some (s, .back (.invoked v i)) ∧
    ∀ os, Engine.shownOutputs? s.scope i.node v = some os →
      ∀ n, t.engine.nodeBySerial? i.serial = some n → n.lastOutputs = os

/-- An invocation ends: it is reported. -/
theorem reported_finish (e : Engine) (s : Strand) (i : Invocation) (v : Value) :
    Reported (e.finishInvocation s i v) { s with scope := { s.scope with executed := s.scope.executed + 1 } } v i := by
  refine ⟨?_, fun _ => ⟨rfl, fun os hos n hn => ?_⟩⟩
  · unfold Engine.finishInvocation Engine.emitFinished
    dsimp only [Engine.go]
    rw [Engine.heard_emit _ _ rfl, List.getLast?_concat]
  · have hos' : Engine.shownOutputs? { s.scope with executed := s.scope.executed + 1 } i.node v = some os := hos
    unfold Engine.finishInvocation at hn
    simp only [hos'] at hn
    have hnode : (e.modifyNode i.serial fun n => { n with lastOutputs := os }).nodeBySerial? i.serial = some n := hn
    rw [Engine.nodeBySerial?_modifyNode e i.serial (f := fun n => { n with lastOutputs := os }) fun _ => rfl] at hnode
    obtain ⟨m, -, rfl⟩ := Option.map_eq_some_iff.mp hnode
    rfl

/-! ## When the result is recorded -/

/-- Whether a result reaches what began the invocation: control flow, or a pull. -/
def RecordsOn : List Frame → Prop
  | .walk _ :: _ => True
  | .output _ _ _ :: _ => True
  | _ => False

theorem RecordsOn.inside {fs : List Frame} (h : RecordsOn fs) : ¬∀ f ∈ fs, f.Outer := by
  cases fs with
  | nil => exact h.elim
  | cons f fs =>
    intro hout
    have hf := hout f List.mem_cons_self
    cases f with
    | walk | output => exact hf.elim
    | _ => exact h.elim

/-- Where control flow goes on only a mapping adds outputs. -/
theorem Invocation.adds_of_exec {i : Invocation} (hmode : i.mode = .exec) {v : Value} (h : ∀ es, v ≠ .dict es) :
    i.adds v = [] := by
  have hpull : i.mode ≠ .pull := by rw [hmode]; exact nofun
  cases v with
  | dict es => exact absurd rfl (h es)
  | null => rfl
  | _ => exact if_neg hpull

/-- Control flow publishes the entries of a mapping that was returned, and nothing else. -/
theorem continueFrom_records (e : Engine) (s : Strand) {i : Invocation} (hmode : i.mode = .exec) (v : Value)
    (rest : List String) : ∃ t sig, (e.continueFrom s i v rest).next = some (t, sig) ∧
      t.scope.outputsOf i.node = (s.scope.outputsOf i.node).update (i.adds v) ∧
      ((∀ es, v ≠ .dict es) → t.scope = s.scope) ∧
      ∀ n, (e.continueFrom s i v rest).engine.nodeBySerial? i.serial = some n →
        ∃ m, e.nodeBySerial? i.serial = some m ∧ n.lastOutputs = m.lastOutputs := by
  have hnone (h : ∀ es, v ≠ .dict es) : s.scope.outputsOf i.node = (s.scope.outputsOf i.node).update (i.adds v) := by
    rw [i.adds_of_exec hmode h]
    rfl
  unfold Engine.continueFrom
  dsimp only
  split
  · next port =>
    split
    · exact ⟨_, _, rfl, hnone nofun, fun _ => rfl, fun n hn => ⟨n, hn, rfl⟩⟩
    · next hport =>
      refine ⟨_, _, rfl, hnone nofun, fun _ => rfl, fun n hn => ?_⟩
      let f : Failure := {
        cause := .notAnExecOutput i.node port i.kind.id
        node := some i.node
        trigger := some (.serial s.scope.trigger) }
      have hreport : (e.modifyNode i.serial fun n => { n with error := some f.message }).nodeBySerial? i.serial =
          some n := hn
      rw [Engine.nodeBySerial?_modifyNode e i.serial (f := fun n => { n with error := some f.message }) fun _ => rfl]
        at hreport
      obtain ⟨m, hm, rfl⟩ := Option.map_eq_some_iff.mp hreport
      exact ⟨m, hm, rfl⟩
  · next es =>
    exact ⟨_, _, rfl, Scope.outputsOf_publishAll_self i.node es s.scope, fun h => absurd rfl (h es),
      fun n hn => ⟨n, hn, rfl⟩⟩
  · next hdict =>
    exact ⟨_, _, rfl, hnone fun es h => hdict es h, fun _ => rfl, fun n hn => ⟨n, hn, rfl⟩⟩

/-- A pull stores what it has merged, and lets the node show it. -/
theorem finishOutput_records (e : Engine) (s : Strand) {i : Invocation} (hmode : i.mode = .pull) (port : String)
    (v : Value) : ∃ t sig, (e.finishOutput s i.node port i.serial v i).next = some (t, sig) ∧
      t.scope.outputsOf i.node = (s.scope.outputsOf i.node).update (i.adds v) ∧
      ∀ n, (e.finishOutput s i.node port i.serial v i).engine.nodeBySerial? i.serial = some n →
        n.lastOutputs = (s.scope.outputsOf i.node).update (i.adds v) := by
  refine ⟨_, _, rfl, ?_, fun n hn => ?_⟩
  · rw [← mergedOutputs_eq hmode]
    exact (Scope.outputsOf_withOutputs (s.scope.leave i.node) i.node i.node _).trans (if_pos rfl)
  · rw [← mergedOutputs_eq hmode]
    have hstored : (e.modifyNode i.serial fun n =>
        { n with lastOutputs := Engine.mergedOutputs i.kind (s.scope.outputsOf i.node) v }).nodeBySerial? i.serial =
          some n := hn
    rw [Engine.nodeBySerial?_modifyNode e i.serial
      (f := fun n => { n with lastOutputs := Engine.mergedOutputs i.kind (s.scope.outputsOf i.node) v })
      fun _ => rfl] at hstored
    obtain ⟨m, -, rfl⟩ := Option.map_eq_some_iff.mp hstored
    rfl

/-! ## Runs -/

section Runs

variable {run : Nat → Engine.Turn} {n k : Nat} {s : Strand} {sig : Signal} {v : Value} {i : Invocation}

/-- Whether what has been reported of the invocation that a strand of a trigger has ended, if it has, is as it should
be. -/
def Mirrored (T : Nat) (t : Engine.Turn) (x : Strand × Parked) : Prop :=
  ∀ v i, x.2 = .turn (.back (.invoked v i)) → x.1.scope.trigger = T → Reported t x.1 v i

/-- By a turn of the strand itself. -/
theorem turn_mirrored {t : Engine.Turn} {T : Nat} {b : Book} (hsits : Sits b (s, .turn sig))
    (hseats : Sedate (s, .turn sig)) (hinside : ¬∀ f ∈ s.frames, f.Outer) (h : Mirrored T t (s, .turn sig)) :
    t.engine.Stays (Mirrored T (t.engine.turn s sig)) (t.engine.turn s sig) := by
  by_cases hends : ∃ v i, sig.Ends s v i
  · obtain ⟨v, i, rfl | ⟨rfl, fs, hfs⟩⟩ := hends
    · -- the invocation ends by this turn
      refine .go (.of_eq ?_) (.inr fun v' i' hsig _ => ?_)
      · dsimp only
        split <;> rfl
      · cases hsig
        exact reported_finish t.engine s i v
    · -- the result leaves the task that it was on
      obtain ⟨id, sc, frames⟩ := s
      obtain rfl : frames = .hop :: fs := hfs
      refine .park (.of_eq rfl) (.inr fun v' i' hsig hT => ?_)
      cases hsig
      have hold := h v i rfl hT
      refine ⟨hold.heard, fun hmode => ?_⟩
      cases hseats.next _ rfl with
      | hop hpull => rw [hmode] at hpull; cases hpull
  · refine (turn_reseats hsits hseats hinside).mono fun x hx => hx.imp_right fun hx v i hsig _ => ?_
    exact absurd ⟨v, i, hx.source v i hsig⟩ hends

/-- By another step. -/
theorem Mirrored.other {T : Nat} {t t' : Engine.Turn} (hs : Step t t') (hknown : T < t.engine.nextTrigger)
    (hother : ∀ s sig, t.next = some (s, sig) → s.scope.trigger ≠ T) {x : Strand × Parked} (h : Mirrored T t x) :
    Mirrored T t' x := by
  intro v i hsig hT
  have hold := h v i hsig hT
  refine ⟨?_, fun hmode => absurd hT (hother _ _ (hold.shown hmode).1)⟩
  rw [heard_step hs, hT, Engine.Turn.toldOf_eq_nil hknown hother, List.append_nil, ← hT]
  exact hold.heard

/-- All along a run, what has been reported of an invocation before its result is recorded is as it should be. -/
theorem reported_run (hopens : Opens (run 0)) (hplays : ∀ k < n, Play (run k) (run (k + 1))) {T : Nat} (hT : T ≠ 0)
    (hk : k ≤ n) : During T (Mirrored T (run k)) (run k) := by
  refine during_run (P := fun k => Mirrored T (run k)) hopens hplays hT ?_ ?_ ?_ ?_ hk
  · intro k hk s sig x hn hnext hborn v i hsig
    cases hborn <;> cases hsig
  · intro k hk s sig hn hsT hinside h
    obtain ⟨L, hL⟩ := orderly_run hopens hplays hk.le
    have hmem := Engine.Turn.mem_population_of_next hn
    have hseats := (sedate_run hopens hplays hT hk.le _ hmem hsT).resolve_left hinside
    rw [(hplays k hk).eq_turn hn]
    exact turn_mirrored (hL.placed _ hmem).sits hseats hinside h
  · exact fun k hk hknown hother x h => h.other (hplays k hk).step hknown hother
  · intro k _ s q e h v i hsig
    by_cases hq : ∀ sig, q ≠ .turn sig
    · exact absurd (Parked.turn.inj hsig) ((plain_unpark e hq).ne_invoked v i)
    · obtain ⟨sig, hsig'⟩ := not_forall.mp hq
      obtain rfl := not_not.mp hsig'
      exact h v i hsig

/-- What was reported agrees with the outputs of the node in the trigger when the result adds none that the node did
not have and, where control flow goes on, leaves out none that it has. -/
theorem agrees_iff {sc : Scope} {before : Dict} (hout : sc.outputsOf i.node = before.update (i.adds v))
    (hdict : ∀ es : Dict, v = .dict es → (es.map Prod.fst).Nodup) :
    Agrees sc i.node (i.shows before v) (before.map Prod.fst) ↔
      (∀ x ∈ i.adds v, before.has x.1 = true) ∧ (i.mode = .exec → ∀ es : Dict, v = .dict es → ∀ port : String,
        (before.get? (.str port)).isSome = true → (es.get? (.str port)).isSome = true) := by
  unfold Agrees
  rw [hout, eq_comm (a := before.map Prod.fst), Dict.keys_update_iff, and_comm]
  refine and_congr_right fun _ => ?_
  by_cases hmapping : i.mode = .exec ∧ ∃ es : Dict, v = .dict es
  · obtain ⟨hmode, es, rfl⟩ := hmapping
    have hnodup := hdict es rfl
    have hadds : i.adds (.dict es) = es := rfl
    rw [i.shows_of_dict hmode, hadds, Dict.alike_update_iff hnodup]
    refine ⟨fun h _ es' hes port hport => ?_, fun h _ port hport => h hmode es rfl port hport⟩
    obtain rfl : es = es' := Value.dict.inj hes
    refine h (Scope.hasOutputs_of_ne_nil fun hnil => ?_) port hport
    have hget := Dict.get?_update_of_nodup hnodup before port
    have hempty : before.update es = [] := hout.symm.trans hnil
    rw [hempty] at hget
    have hnone : before.get? (.str port) = none := (Option.or_eq_none_iff.mp hget.symm).2
    rw [hnone] at hport
    cases hport
  · rw [i.shows_of_not hmapping]
    exact iff_of_true (fun _ _ => rfl) fun hmode es hv => absurd ⟨hmode, es, hv⟩ hmapping

/-- When the result of an invocation is recorded, observers have heard last that the node finished with the outputs that
it had, and the node shows its outputs. This agrees with the outputs of the node in the trigger exactly when the result
adds no outputs that the node did not have, and a mapping that control flow publishes leaves out none that it has. -/
theorem reported_agrees_iff (hopens : Opens (run 0)) (hplays : ∀ k < n, Play (run k) (run (k + 1))) (hk : k < n)
    (hnext : (run k).next = some (s, .back (.invoked v i))) (hrecords : RecordsOn s.frames)
    (hdict : ∀ es : Dict, v = .dict es → (es.map Prod.fst).Nodup) :
    ∃ t sig present, (run (k + 1)).next = some (t, sig) ∧
      ((run k).engine.heard s.scope.trigger).getLast? =
        some (.nodeFinished s.scope.trigger i.node i.kind.id present) ∧
      (t.scope.hasOutputs i.node = true → ∀ m, (run (k + 1)).engine.nodeBySerial? i.serial = some m →
        m.lastOutputs = i.shows (s.scope.outputsOf i.node) v) ∧
      (Agrees t.scope i.node (i.shows (s.scope.outputsOf i.node) v) present ↔
        (∀ x ∈ i.adds v, (s.scope.outputsOf i.node).has x.1 = true) ∧
          (i.mode = .exec → ∀ es : Dict, v = .dict es → ∀ port : String,
            ((s.scope.outputsOf i.node).get? (.str port)).isSome = true →
              (es.get? (.str port)).isSome = true)) := by
  obtain ⟨L, hL⟩ := orderly_run hopens hplays hk.le
  have hmem := Engine.Turn.mem_population_of_next hnext
  have hinside := hrecords.inside
  have hT : s.scope.trigger ≠ 0 := fun hzero => hinside ((hL.placed _ hmem).sits.named hzero)
  have hreported := (reported_run hopens hplays hT hk.le _ hmem rfl).resolve_left hinside v i rfl rfl
  have hseat : Seat i s.frames := ((sedate_run hopens hplays hT hk.le _ hmem rfl).resolve_left hinside).next _ rfl
  rw [(hplays k hk).eq_turn hnext]
  obtain ⟨id, sc, frames⟩ := s
  cases hseat with
  | flow hmode rest fs =>
    have hturn : (run k).engine.turn ⟨id, sc, .walk rest :: fs⟩ (.back (.invoked v i)) =
        (run k).engine.continueFrom ⟨id, sc, fs⟩ i v rest := rfl
    obtain ⟨t, sig, ht, hout, hsame, hnode⟩ := continueFrom_records (run k).engine ⟨id, sc, fs⟩ hmode v rest
    rw [hturn]
    refine ⟨t, sig, _, ht, hreported.heard, fun hhas m hm => ?_, agrees_iff hout hdict⟩
    obtain ⟨m', hm', hlast⟩ := hnode m hm
    rw [hlast]
    refine (hreported.shown hmode).2 _ ?_ m' hm'
    -- a node that runs shows the mapping it returns or, if it returns none, what it has published
    by_cases hv : ∃ es : Dict, v = .dict es
    · obtain ⟨es, rfl⟩ := hv
      rw [i.shows_of_dict hmode]
      rfl
    · have hscope := hsame fun es h => hv ⟨es, h⟩
      rw [i.shows_of_not fun h => hv h.2, i.adds_of_exec hmode fun es h => hv ⟨es, h⟩]
      rw [hscope] at hhas
      cases v with
      | dict es => exact absurd ⟨es, rfl⟩ hv
      | _ => exact if_pos hhas
  | pull hmode port fs =>
    have hturn : (run k).engine.turn ⟨id, sc, .output i.node port i.serial :: fs⟩ (.back (.invoked v i)) =
        (run k).engine.finishOutput ⟨id, sc, fs⟩ i.node port i.serial v i := rfl
    obtain ⟨t, sig, ht, hout, hnode⟩ := finishOutput_records (run k).engine ⟨id, sc, fs⟩ hmode port v
    rw [hturn]
    refine ⟨t, sig, _, ht, hreported.heard, fun _ m hm => ?_, agrees_iff hout hdict⟩
    have hexec : ¬(i.mode = .exec ∧ ∃ es : Dict, v = .dict es) := fun h => by
      rw [hmode] at h
      cases h.1
    rw [hnode m hm, i.shows_of_not hexec]
  | hop => exact hrecords.elim

end Runs

/-! ## A node that returns an output -/

/-- A node that puts out `a` and then returns an output. -/
def mirrorSession (port : String) : Engine.Turn :=
  opening (.initial {}
    { kinds := [.sketch "source" .statement [{ id := "exec", valueType := .exec }]
        [Library.leads "exec", Library.yields "a" .any, Library.yields "b" .any]
        (some fun _ => .ask (.memoize "a" (.int 1)) fun _ => .finish (.dict [(.str port, .int 2)]))] }
    { nodes := [{ serial := 0, id := "n", kind := "source" }], nextSerial := 1 } 0.01)
    [.runNode "n"]

/-- The state after a number of steps of that session. -/
def mirroring (port : String) (n : Nat) : Engine.Turn := (follow n (mirrorSession port, fun _ => {})).1

/-- A node that returns the output that it has: what is reported agrees. -/
theorem reported_agrees_again : ∃ t sig present, (mirroring "a" 7).next = some (t, sig) ∧
    ((mirroring "a" 6).engine.heard 1).getLast? = some (.nodeFinished 1 "n" "source" present) ∧
    Agrees t.scope "n" [(.str "a", .int 2)] present := by
  have hopens : Opens (mirroring "a" 0) := by
    show Opens (mirrorSession "a")
    refine ⟨_, _, _, _, _, ?_, rfl⟩
    exact ⟨by decide, by decide⟩
  have hgoes : ∀ k < 7, (Engine.advance (mirroring "a" k)).isSome = true := by decide +kernel
  have hplays : ∀ k < 7, Play (mirroring "a" k) (mirroring "a" (k + 1)) :=
    fun k hk => .of_advance (advance_follow (hgoes k hk))
  have hrecording : ∃ s i, (mirroring "a" 6).next = some (s, .back (.invoked (.dict [(.str "a", .int 2)]) i)) ∧
      RecordsOn s.frames ∧ s.scope.trigger = 1 ∧ s.scope.outputsOf "n" = [(.str "a", .int 1)] ∧
        i.node = "n" ∧ i.kind.id = "source" ∧ i.mode = .exec := by
    with_unfolding_all exact ⟨_, _, rfl, trivial, rfl, rfl, rfl, rfl, rfl⟩
  obtain ⟨s, i, hnext, hrecords, htrigger, hout, hnode, hkind, hmode⟩ := hrecording
  have hdict : ∀ es : Dict, Value.dict [(.str "a", .int 2)] = .dict es → (es.map Prod.fst).Nodup := by
    rintro es hes
    obtain rfl := Value.dict.inj hes
    exact List.nodup_singleton _
  obtain ⟨t, sig, present, ht, hheard, -, hagrees⟩ :=
    reported_agrees_iff hopens hplays (Nat.lt_succ_self 6) hnext hrecords hdict
  rw [htrigger, hnode, hkind] at hheard
  rw [i.shows_of_dict hmode, hnode, hout] at hagrees
  refine ⟨t, sig, present, ht, hheard, hagrees.mpr ⟨?_, fun _ es hes port hport => ?_⟩⟩
  · intro x hx
    rw [List.mem_singleton.mp hx]
    simp [Dict.has, Value.same]
  · obtain rfl := Value.dict.inj hes
    by_cases hport' : port = "a"
    · subst hport'
      simp [Dict.get?, Value.same]
    · simp [Dict.get?, Value.same, hport'] at hport

/-- A node that returns another output: observers do not hear of it, and the node no longer shows the one that it put
out before. -/
theorem reported_differs_returned : ∃ t sig, (mirroring "b" 7).next = some (t, sig) ∧
    ((mirroring "b" 7).engine.heard 1).getLast? = some (.nodeFinished 1 "n" "source" [.str "a"]) ∧
    ((mirroring "b" 7).engine.nodeBySerial? 0).map Node.lastOutputs = some [(.str "b", .int 2)] ∧
    t.scope.hasOutputs "n" = true ∧ t.scope.outputsOf "n" = [(.str "a", .int 1), (.str "b", .int 2)] ∧
    ¬Dict.Alike [(.str "b", .int 2)] (t.scope.outputsOf "n") ∧ [.str "a"] ≠ (t.scope.outputsOf "n").map Prod.fst := by
  have hnext : ∃ t sig, (mirroring "b" 7).next = some (t, sig) ∧ t.scope.hasOutputs "n" = true ∧
      t.scope.outputsOf "n" = [(.str "a", .int 1), (.str "b", .int 2)] := by
    with_unfolding_all exact ⟨_, _, rfl, rfl, rfl⟩
  obtain ⟨t, sig, ht, hhas, hout⟩ := hnext
  refine ⟨t, sig, ht, by with_unfolding_all rfl, by with_unfolding_all rfl, hhas, hout, fun h => ?_, ?_⟩
  · have ha := h "a"
    rw [hout] at ha
    simp [Dict.get?, Value.same] at ha
  · rw [hout]
    simp

end Patchbay
