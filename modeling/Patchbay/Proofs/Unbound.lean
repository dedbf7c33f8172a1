import Patchbay.Proofs.Validity

/-!
# Inputs that nothing gives a value

A check reports a data input that has neither an edge nor a literal. An engine that pulls such an input takes the
default that the port declares now, which the check does not look at. A node is made with a literal for every
default of its kind, so the two differ only after a kind was registered again with a default that it did not have
when the node was made; and where a control flow port stands in front of a data port with the same id, so that a
pull does not come to the data port at all.

Contents:
* `Engine.Reports`: a check reports an input; `Engine.Misses`: a pull fails for want of a literal.
* `Graph.Lags`: a node has no literal for the default of its port; `Graph.Masked`: a control flow port stands in
  front of the input.

Results:
* `Engine.session_pull`: how a pull of an input without an edge is answered.
* `Engine.reports_iff`, `Engine.misses_iff`: which inputs are reported, and which fail.
* `Engine.lags_by_registration`: only registrations leave nodes behind.
* `unbound_agree_iff`: when a check and a pull agree.
-/

namespace Patchbay

/-! ## Literals of nodes -/

theorem Named.has_iff {d : Named} {name : String} : d.has name = true ↔ name ∈ d.names := by
  simp [Named.has, Named.names, List.any_eq_true, List.mem_map]

theorem Named.has_set {d : Named} {name : String} (h : d.has name = true) (key : String) (v : Value) :
    (d.set key v).has name = true := by
  rw [Named.has_iff] at h ⊢
  by_cases hkey : key ∈ d.names
  · rw [Named.names_set_of_mem hkey]
    exact h
  · rw [Named.names_set_of_not_mem hkey]
    exact List.mem_append_left _ h

theorem Named.get?_eq_none_iff {d : Named} {name : String} : d.get? name = none ↔ d.has name = false := by
  rw [Named.get?, List.lookup_eq_none_iff, Named.has, List.any_eq_false]
  exact forall₂_congr fun e _ => by rw [bne_iff_ne, beq_iff_eq]; exact not_congr eq_comm

namespace Graph

variable {β : Type} {r : Registry β} {g g' : Graph} {id port : String}

/-- A new node has a literal for every default of its kind. -/
theorem has_startingLiterals {k : Kind β} {overrides literals : Named}
    (h : startingLiterals k id overrides = .ok literals) {p : Port} (hp : p ∈ k.dataInputs)
    (hv : p.default.isSome = true) : literals.has p.id = true := by
  refine foldlM_invariant (P := fun d : Named => d.has p.id = true) (fun before x after hb hx => ?_) _ _ ?_ h
  · dsimp only at hx
    split at hx
    · obtain rfl := Except.ok.inj hx
      exact Named.has_set hb x.1 x.2
    · cases hx
  · exact Named.has_iff.mpr (Kind.mem_names_defaultLiterals.mpr ⟨p, hp, hv, rfl⟩)

/-- Whether a node has no literal for the default that its data input has now. -/
def Lags (r : Registry β) (g : Graph) (id port : String) : Prop :=
  ∃ n k q, g.node? id = some n ∧ r.find? n.kind = some k ∧ k.dataInput port = some q ∧ q.default.isSome = true ∧
    n.literals.has port = false

/-- Whether a node has no literal for a port in front of which a control flow port has the same id. -/
def Masked (r : Registry β) (g : Graph) (id port : String) : Prop :=
  ∃ n k, g.node? id = some n ∧ r.find? n.kind = some k ∧ k.dataInput port = none ∧ n.literals.has port = false

theorem mem_dataInputs_of_dataInput {k : Kind β} {q : Port} (h : k.dataInput port = some q) :
    q ∈ k.dataInputs ∧ q.id = port := by
  obtain ⟨hfound, hdata⟩ := Option.filter_eq_some_iff.mp h
  exact ⟨List.mem_filter.mpr ⟨List.mem_of_find?_eq_some hfound, hdata⟩, by simpa using List.find?_some hfound⟩

/-- Nodes keep ids of their own. -/
theorem Edit.nodup_ids (he : g.Edit r g') (h : (g.nodes.map Node.id).Nodup) : (g'.nodes.map Node.id).Nodup := by
  have hmap : ∀ f : Node → Node, (∀ n, (f n).id = n.id) → ((g.nodes.map f).map Node.id).Nodup := fun f hf => by
    rw [List.map_map, show Node.id ∘ f = Node.id from funext hf]
    exact h
  cases he with
  | revise hg =>
    obtain ⟨f, hf, rfl⟩ := hg
    exact hmap f fun n => (hf n).2.1
  | @addNode _ _ _ _ _ _ _ _ ha =>
    obtain ⟨hnone, -, -, rfl, rfl⟩ := addNode_eq_ok ha
    rw [List.map_append, List.nodup_append]
    refine ⟨h, List.nodup_singleton _, fun a hmem b hb hab => ?_⟩
    obtain ⟨m, hm, rfl⟩ := List.mem_map.mp hmem
    rw [List.map_singleton, List.mem_singleton] at hb
    have hother := List.find?_eq_none.mp hnone m hm
    simp [hab, hb] at hother
  | removeNode hr =>
    obtain ⟨-, rfl⟩ := removeNode_eq_ok hr
    exact h.sublist (List.filter_sublist.map Node.id)
  | addEdge ha => obtain ⟨-, -, -, -, -, -, -, -, -, ⟨-, rfl⟩ | ⟨-, rfl⟩⟩ := addEdge_eq_ok ha <;> exact h
  | removeEdge x => exact h
  | setLiteral hs =>
    obtain ⟨-, -, -, -, -, rfl⟩ := setLiteral_eq_ok hs
    refine hmap _ fun n => ?_
    split <;> rfl

/-- An edit leaves no node behind its kind. -/
theorem Lags.of_edit (he : g.Edit r g') (h : g'.Lags r id port) : g.Lags r id port := by
  obtain ⟨n, k, q, hn, hk, hq, hv, hnone⟩ := h
  -- an edit never takes a literal away from a node that stays
  cases he with
  | revise hg =>
    obtain ⟨f, hf, rfl⟩ := hg
    rw [node?_map fun n => (hf n).2.1] at hn
    obtain ⟨m, hm, rfl⟩ := Option.map_eq_some_iff.mp hn
    rw [(hf m).2.2.1] at hk
    rw [(hf m).2.2.2] at hnone
    exact ⟨m, k, q, hm, hk, hq, hv, hnone⟩
  | @addNode kind l overrides new added _ hl _ ha =>
    obtain ⟨hfresh, literals, hs, rfl, rfl⟩ := addNode_eq_ok ha
    by_cases hid : new = id
    · -- the new node has the literal
      subst hid
      have hfound : ({ g with
          nodes := g.nodes ++ [{ serial := g.nextSerial, id := new, kind := l.id, literals := literals }]
          nextSerial := g.nextSerial + 1 } : Graph).node? new =
          some { serial := g.nextSerial, id := new, kind := l.id, literals := literals } := by
        rw [node?, List.find?_append, show g.nodes.find? (fun m => m.id == new) = none from hfresh]
        simp
      obtain rfl := Option.some.inj (hn.symm.trans hfound)
      have hlid : l.id = kind := by simpa using List.find?_some hl
      obtain rfl : l = k := Option.some.inj (hl.symm.trans (hlid ▸ hk))
      obtain ⟨hmem, rfl⟩ := mem_dataInputs_of_dataInput hq
      rw [has_startingLiterals hs hmem hv] at hnone
      cases hnone
    · rw [node?_append_of_ne (by exact hid)] at hn
      exact ⟨n, k, q, hn, hk, hq, hv, hnone⟩
  | @removeNode gone m _ hr =>
    obtain ⟨-, rfl⟩ := removeNode_eq_ok hr
    by_cases hid : id = gone
    · subst hid
      obtain ⟨hmem, hother⟩ := List.mem_filter.mp (List.mem_of_find?_eq_some hn)
      have hsame : n.id = id := by simpa using List.find?_some hn
      simp [hsame] at hother
    · rw [node?_filter_of_ne _ hid] at hn
      exact ⟨n, k, q, hn, hk, hq, hv, hnone⟩
  | addEdge ha =>
    have hnodes : g'.nodes = g.nodes := by
      obtain ⟨-, -, -, -, -, -, -, -, -, ⟨-, rfl⟩ | ⟨-, rfl⟩⟩ := addEdge_eq_ok ha <;> rfl
    rw [node?, hnodes] at hn
    exact ⟨n, k, q, hn, hk, hq, hv, hnone⟩
  | removeEdge x => exact ⟨n, k, q, hn, hk, hq, hv, hnone⟩
  | setLiteral hs =>
    obtain ⟨-, -, -, -, -, rfl⟩ := setLiteral_eq_ok hs
    rw [modifyNode, node?_map fun n => by split <;> rfl] at hn
    obtain ⟨m, hm, rfl⟩ := Option.map_eq_some_iff.mp hn
    refine ⟨m, k, q, hm, ?_, hq, hv, ?_⟩
    · rw [← hk]
      split <;> rfl
    · by_contra hhas
      rw [Bool.not_eq_false] at hhas
      split at hnone
      · rw [Named.has_set hhas] at hnone
        cases hnone
      · rw [hhas] at hnone
        cases hnone

end Graph

/-! ## Checks and pulls -/

namespace Engine

variable {e : Engine} {id port : String}

/-- Whether a check of the graph reports an input. -/
def Reports (e : Engine) (id port : String) : Prop :=
  ∃ i ∈ e.graph.unboundInputs e.registry, i.failure.cause = .unboundInput port id

/-- The engine under the policy that a missing literal is an error. -/
def strict (e : Engine) : Engine := { e with config := { e.config with missingLiteralPolicy := .str "error" } }

/-- What a request is answered with. -/
def answerTo (e : Engine) (r : Request) : Option (Except Raised Response) :=
  (e.session [r]).outcomes.back?.map Outcome.result

/-- Whether a pull of an input fails for want of a literal, where that is an error. -/
def Misses (e : Engine) (id port : String) : Prop :=
  ∃ f, e.strict.answerTo (.pull id port) = some (.error (.failure f)) ∧ f.family = .missingLiteral

/-- What a pull of an input without an edge ends with. -/
def unwired (e : Engine) (n : Node) (k : Kind Behavior) (id port : String) : Signal :=
  match k.dataInput port with
  | none => .raise (.cause (.kindHasNoDataInput k.id port))
  | some p => match n.literals.get? port, p.default with
    | some v, _ => literalResult p v
    | none, some v => literalResult p v
    | none, none =>
      if e.config.missingLiteralPolicy.same (.str "none") then .back (.pulled .null [])
      else .raise (.cause (.missingLiteral port id))

/-- The answer to a request that ends with a signal. -/
def answerOf : Signal → Option (Except Raised Response)
  | .back r => some (.ok (responseOf r))
  | .raise err => some (.error err)
  | .call _ => none

theorem pullInput_unwired {n : Node} {k : Kind Behavior} (hn : e.nodeWithKind id = .ok (n, k))
    (hnone : e.graph.incoming? id port = none) (s : Strand) :
    e.pullInput s id port = e.go s (e.unwired n k id port) := by
  simp only [pullInput, unwired, hn, hnone]
  cases k.dataInput port with
  | none => rfl
  | some p =>
    cases hv : n.literals.get? port with
    | some v => rfl
    | none =>
      cases hd : p.default with
      | some v => simp only [hd]
      | none =>
        simp only [hd]
        split <;> rfl

theorem runFor_go (bound : Nat) (e : Engine) (s : Strand) (next : Signal) :
    runFor (bound + 1) (e.go s next) = runFor bound (e.turn s next) := rfl

theorem runFor_closed (bound : Nat) (h : e.closed = true) : runFor bound ⟨e, none⟩ = e := by
  cases bound with
  | zero => rfl
  | succ bound => simp [runFor, advance, h]

/-- A signal that ends a pull ends the request. -/
theorem answer_of_signal (bound : Nat) {e : Engine} (htodo : e.todo = []) {s : Strand}
    (hs : s.frames = [.value, .session]) {next : Signal} {a : Except Raised Response}
    (ha : answerOf next = some a) :
    (runFor (bound + 3) (e.go s next)).outcomes.back?.map Outcome.result = some a := by
  have hanswer : ∀ bound s result, (runFor bound (e.answerRequest s result)).outcomes.back?.map Outcome.result =
      some result := by
    intro bound s result
    simp only [answerRequest, nextRequest, htodo]
    rw [runFor_closed _ rfl]
    simp
  cases next with
  | call c => cases ha
  | back r =>
    obtain rfl := Option.some.inj ha
    rw [runFor_go, turn.eq_def]
    simp only [hs, back]
    rw [runFor_go, turn.eq_def]
    exact hanswer _ _ _
  | raise err =>
    obtain rfl := Option.some.inj ha
    rw [runFor_go, turn.eq_def]
    simp only [hs, Engine.raise]
    rw [runFor_go, turn.eq_def]
    exact hanswer _ _ _

/-- A pull of an input without an edge is answered by the literal of the node, or by the default of the port. -/
theorem session_pull {n : Node} {k : Kind Behavior} (hn : e.nodeWithKind id = .ok (n, k))
    (hnone : e.graph.incoming? id port = none) : e.answerTo (.pull id port) = answerOf (e.unwired n k id port) := by
  have hbound : turnBound = 999999995 + 3 + 2 := rfl
  have hends : (answerOf (e.unwired n k id port)).isSome = true := by
    unfold unwired literalResult
    repeat' split
    all_goals rfl
  obtain ⟨a, ha⟩ := Option.isSome_iff_exists.mp hends
  rw [answerTo, session, hbound, nextRequest, ha]
  dsimp only
  rw [runFor_go]
  simp only [turn, call, request, freshScope, nest]
  rw [runFor_go]
  simp only [turn, call]
  rw [pullInput_unwired (by exact hn) (by exact hnone)]
  exact answer_of_signal _ rfl rfl ha

theorem literalResult_ne_missing (p : Port) (v : Value) (f : Failure) :
    answerOf (literalResult p v) ≠ some (.error (.failure f)) := by
  unfold literalResult
  split <;> simp [answerOf]

/-- A pull fails for want of a literal exactly when it comes to a data port, and neither the node nor the port has
one. -/
theorem misses_iff {n : Node} {k : Kind Behavior} (hn : e.nodeWithKind id = .ok (n, k))
    (hnone : e.graph.incoming? id port = none) :
    e.Misses id port ↔ n.literals.has port = false ∧ ∃ q, k.dataInput port = some q ∧ q.default = none := by
  have hanswer : e.strict.answerTo (.pull id port) = answerOf (e.strict.unwired n k id port) :=
    session_pull (e := e.strict) hn hnone
  have hstrict : e.strict.config.missingLiteralPolicy.same (.str "none") = false := by
    show (Value.str "error").same (.str "none") = false
    exact Bool.eq_false_iff.mpr (mt Value.same_str_iff.mp (by simp))
  rw [Misses, hanswer, unwired]
  cases hq : k.dataInput port with
  | none =>
    refine iff_of_false ?_ (by simp)
    rintro ⟨f, hf, hfamily⟩
    obtain rfl := Raised.failure.inj (Except.error.inj (Option.some.inj hf))
    cases hfamily
  | some q =>
    cases hv : n.literals.get? port with
    | some v =>
      refine iff_of_false (fun ⟨f, hf, _⟩ => literalResult_ne_missing q v f hf) fun h => ?_
      rw [Named.get?_eq_none_iff.mpr h.1] at hv
      cases hv
    | none =>
      cases hd : q.default with
      | some v =>
        refine iff_of_false ?_ ?_
        · simp only [hd]
          exact fun ⟨f, hf, _⟩ => literalResult_ne_missing q v f hf
        rintro ⟨-, q', hq', hd'⟩
        obtain rfl := Option.some.inj hq'
        rw [hd] at hd'
        cases hd'
      | none =>
        refine iff_of_true ⟨{ cause := .missingLiteral port id }, ?_, rfl⟩
          ⟨Named.get?_eq_none_iff.mp hv, q, rfl, hd⟩
        simp only [hd, hstrict, Bool.false_eq_true, ↓reduceIte]
        rfl

/-- A data input without an edge is reported exactly when its node has no literal for it. -/
theorem reports_iff (hids : (e.graph.nodes.map Node.id).Nodup) {n : Node} {k : Kind Behavior}
    (hn : e.nodeWithKind id = .ok (n, k)) {p : Port} (hp : p ∈ k.dataInputs)
    (hnone : e.graph.incoming? id p.id = none) : e.Reports id p.id ↔ n.literals.has p.id = false := by
  obtain ⟨hfound, hkind⟩ := Graph.withKind_eq_ok_iff.mp hn
  have hid : n.id = id := by simpa using List.find?_some hfound
  constructor
  · rintro ⟨i, hi, hcause⟩
    obtain ⟨m, hm, hinputs⟩ := List.mem_flatMap.mp hi
    split at hinputs
    · cases hinputs
    · next l hl =>
      obtain ⟨q, -, hissue⟩ := List.mem_filterMap.mp hinputs
      split at hissue
      · cases hissue
      · next hunbound =>
        obtain rfl := Option.some.inj hissue
        obtain ⟨hport, hnode⟩ := Cause.unboundInput.inj hcause
        have hsame : e.graph.node? m.id = some m := find?_of_nodup hids hm
        obtain rfl : m = n := by
          rw [hnode, hfound] at hsame
          exact (Option.some.inj hsame).symm
        rw [Bool.or_eq_true, not_or, hport] at hunbound
        exact Bool.eq_false_iff.mpr hunbound.2
  · intro hliteral
    refine ⟨.atNode "unbound_input" (.unboundInput p.id id) id,
      List.mem_flatMap.mpr ⟨n, List.mem_of_find?_eq_some hfound, ?_⟩, rfl⟩
    simp only [hkind]
    refine List.mem_filterMap.mpr ⟨p, hp, ?_⟩
    rw [hid, hnone, hliteral]
    rfl

/-! ## Histories -/

/-- Whether a node has no literal for the default that its data input has now. -/
def Lags (e : Engine) (id port : String) : Prop := e.graph.Lags e.registry id port

/-- Whether a node has no literal for a port in front of which a control flow port has the same id. -/
def Masked (e : Engine) (id port : String) : Prop := e.graph.Masked e.registry id port

variable {c : Command} {cs : List Command}

theorem lags_of_edit (hc : c.editsGraph = true) (h : (e.command c).2.Lags id port) : e.Lags id port := by
  obtain ⟨hr, g, hg, hedit⟩ := command_edit e hc
  unfold Lags at h
  rw [hr] at h
  exact (h.of_edit hedit).of_edit (.revise hg)

theorem nodup_ids_command (h : (e.graph.nodes.map Node.id).Nodup) (hc : c.editsGraph = true ∨ c.redefines = true) :
    ((e.command c).2.graph.nodes.map Node.id).Nodup := by
  rcases hc with hc | hc
  · obtain ⟨-, g, hg, hedit⟩ := command_edit e hc
    exact hedit.nodup_ids (Graph.Edit.nodup_ids (r := e.registry) (.revise hg) h)
  · rw [command_redefines e hc]
    exact h

theorem nodup_ids_edited (h : (e.graph.nodes.map Node.id).Nodup)
    (hcs : ∀ c ∈ cs, c.editsGraph = true ∨ c.redefines = true) : ((e.edited cs).graph.nodes.map Node.id).Nodup := by
  induction cs generalizing e with
  | nil => exact h
  | cons c rest ih =>
    obtain ⟨hc, hrest⟩ := List.forall_mem_cons.mp hcs
    exact ih (nodup_ids_command h hc) hrest

/-- A node that lags behind its kind does so since a registration. -/
theorem lags_by_registration (hfirst : ¬e.Lags id port) (hcs : ∀ c ∈ cs, c.editsGraph = true ∨ c.redefines = true)
    (h : (e.edited cs).Lags id port) : ∃ earlier c later, cs = earlier ++ c :: later ∧ c.redefines = true ∧
      ¬(e.edited earlier).Lags id port ∧ (e.edited (earlier ++ [c])).Lags id port := by
  induction cs generalizing e with
  | nil => exact absurd h hfirst
  | cons c rest ih =>
    obtain ⟨hc, hrest⟩ := List.forall_mem_cons.mp hcs
    by_cases hnow : (e.command c).2.Lags id port
    · exact ⟨[], c, rest, rfl, hc.resolve_left fun hc => hfirst (lags_of_edit hc hnow), hfirst, hnow⟩
    · obtain ⟨earlier, d, later, rfl, hd, hbefore, hafter⟩ := ih hnow hrest h
      exact ⟨c :: earlier, d, later, rfl, hd, hbefore, hafter⟩

end Engine

/-- After any edits and registrations, a data input without an edge is reported exactly when a pull of it fails for
want of a literal, unless its node lags behind the default of the port, or a control flow port stands in front of it;
then it is reported, and a pull does not fail for want of a literal. A node lags only because a kind was registered
with a default that the node had no literal for. -/
theorem unbound_agree_iff (e : Engine) (hempty : e.graph = {}) (cs : List Command)
    (hcs : ∀ c ∈ cs, c.editsGraph = true ∨ c.redefines = true) (id : String) (n : Node) (k : Kind Behavior)
    (hn : (e.edited cs).nodeWithKind id = .ok (n, k)) (p : Port) (hp : p ∈ k.dataInputs)
    (hnone : (e.edited cs).graph.incoming? id p.id = none) :
    (((e.edited cs).Reports id p.id ↔ (e.edited cs).Misses id p.id) ↔
        ¬(e.edited cs).Lags id p.id ∧ ¬(e.edited cs).Masked id p.id) ∧
      ((e.edited cs).Lags id p.id ∨ (e.edited cs).Masked id p.id →
        (e.edited cs).Reports id p.id ∧ ¬(e.edited cs).Misses id p.id) ∧
      ((e.edited cs).Lags id p.id → ∃ earlier c later, cs = earlier ++ c :: later ∧ c.redefines = true ∧
        ¬(e.edited earlier).Lags id p.id ∧ (e.edited (earlier ++ [c])).Lags id p.id) := by
  have hids : ((e.edited cs).graph.nodes.map Node.id).Nodup :=
    Engine.nodup_ids_edited (by rw [hempty]; exact List.nodup_nil) hcs
  have hreports := Engine.reports_iff hids hn hp hnone
  have hmisses := Engine.misses_iff hn hnone
  obtain ⟨hfound, hkind⟩ := Graph.withKind_eq_ok_iff.mp hn
  have hlags : (e.edited cs).Lags id p.id ↔ n.literals.has p.id = false ∧
      ∃ q, k.dataInput p.id = some q ∧ q.default.isSome = true := by
    constructor
    · rintro ⟨m, l, q, hm, hl, hq, hv, hliteral⟩
      obtain rfl := Option.some.inj (hfound.symm.trans hm)
      obtain rfl := Option.some.inj (hkind.symm.trans hl)
      exact ⟨hliteral, q, hq, hv⟩
    · rintro ⟨hliteral, q, hq, hv⟩
      exact ⟨n, k, q, hfound, hkind, hq, hv, hliteral⟩
  have hmasked : (e.edited cs).Masked id p.id ↔ n.literals.has p.id = false ∧ k.dataInput p.id = none := by
    constructor
    · rintro ⟨m, l, hm, hl, hq, hliteral⟩
      obtain rfl := Option.some.inj (hfound.symm.trans hm)
      obtain rfl := Option.some.inj (hkind.symm.trans hl)
      exact ⟨hliteral, hq⟩
    · rintro ⟨hliteral, hq⟩
      exact ⟨n, k, hfound, hkind, hq, hliteral⟩
  refine ⟨?_, ?_, Engine.lags_by_registration ?_ hcs⟩
  · rw [hreports, hmisses, hlags, hmasked]
    cases k.dataInput p.id with
    | none => cases n.literals.has p.id <;> simp
    | some q => cases q.default <;> cases n.literals.has p.id <;> simp
  · rw [hreports, hmisses, hlags, hmasked]
    cases k.dataInput p.id with
    | none => simp
    | some q => cases hd : q.default <;> simp [hd]
  · rintro ⟨m, l, q, hm, -⟩
    rw [hempty] at hm
    cases hm

/-- A statement with one data input, which may have a default. -/
def basinKind (default : Option Value) : Declaration Behavior :=
  { kind := "basin", inputs := .listed [{ id := "level", valueType := .number, default := default }] }

/-- A node of a kind without a default. -/
def basinEdits : List Command := [.register (basinKind none), .addNode "basin" [] (some "b")]

/-- The kind of the node is registered again, with a default. -/
def refilledEdits : List Command := basinEdits ++ [.register (basinKind (some (.int 5)))]

/-- The data input of a node whose kind declares no default is reported, and a pull of it fails. -/
theorem unbound_agree_basin : (({} : Engine).edited basinEdits).Reports "b" "level" ∧
    (({} : Engine).edited basinEdits).Misses "b" "level" := by
  have hn : (({} : Engine).edited basinEdits).nodeWithKind "b" = .ok
      ({ serial := 0, id := "b", kind := "basin" },
        (basinKind none).toKind .statement [{ id := "level", valueType := .number }] []) := rfl
  have hp : ({ id := "level", valueType := .number } : Port) ∈
      ((basinKind none).toKind .statement [{ id := "level", valueType := .number }] []).dataInputs :=
    List.mem_singleton_self _
  obtain ⟨hagree, -, -⟩ := unbound_agree_iff {} rfl basinEdits (by decide) "b" _ _ hn _ hp rfl
  have hreports := (Engine.reports_iff (by decide) hn hp rfl).mpr rfl
  refine ⟨hreports, (hagree.mpr ⟨?_, ?_⟩).mp hreports⟩
  · rintro ⟨m, l, q, hm, hl, hq, hv, -⟩
    obtain rfl := Option.some.inj hm
    obtain rfl := Option.some.inj hl
    obtain rfl := Option.some.inj hq
    cases hv
  · rintro ⟨m, l, hm, hl, hq, -⟩
    obtain rfl := Option.some.inj hm
    obtain rfl := Option.some.inj hl
    cases hq

/-- After the kind was registered again with a default, the data input is still reported, though a pull of it takes
the default. -/
theorem unbound_disagree_refilled : (({} : Engine).edited refilledEdits).Reports "b" "level" ∧
    ¬(({} : Engine).edited refilledEdits).Misses "b" "level" ∧
    (({} : Engine).edited refilledEdits).answerTo (.pull "b" "level") = some (.ok (.value (.int 5))) := by
  have hn : (({} : Engine).edited refilledEdits).nodeWithKind "b" = .ok
      ({ serial := 0, id := "b", kind := "basin" },
        (basinKind (some (.int 5))).toKind .statement
          [{ id := "level", valueType := .number, default := some (.int 5) }] []) := rfl
  have hp : ({ id := "level", valueType := .number, default := some (.int 5) } : Port) ∈
      ((basinKind (some (.int 5))).toKind .statement
        [{ id := "level", valueType := .number, default := some (.int 5) }] []).dataInputs :=
    List.mem_singleton_self _
  refine ⟨(Engine.reports_iff (by decide) hn hp rfl).mpr rfl, fun hmisses => ?_, Engine.session_pull hn rfl⟩
  obtain ⟨-, q, hq, hnone⟩ := (Engine.misses_iff hn rfl).mp hmisses
  obtain rfl := Option.some.inj hq
  cases hnone

end Patchbay
