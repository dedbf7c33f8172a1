import Patchbay.Proofs.Courses
import Patchbay.Proofs.Leaks
import Patchbay.Proofs.Modesty
import Patchbay.Proofs.Programs
import Patchbay.Proofs.Refusals
import Patchbay.Proofs.RoundTrip

/-!
# What nodes have registered, and what they keep of it

A node has what the scheduler's index by owner lists for it; an interval or a listener also keeps its registration in
its state. What an engine does changes one of the two for one node at a time, but for the commands that stop it.

Contents:
* `Graph.HasEntry`: whether a node is an interval or a listener.
* `Engine.owned`, `Engine.memo`: what a node has registered, and what it keeps.
* `Engine.Rests`, `Engine.Spares`: changes of neither, and changes for one node alone.

Results:
* `Engine.rests_of_outlook`, `Engine.rests_perform`: what changes nothing.
* `Engine.Registered.spares`, `Engine.spares_pledge`, `Engine.spares_disarm`: what changes something for one node.
* `Engine.amends_command`: what a command leaves.
-/

namespace Patchbay

/-! ## States of nodes -/

namespace Node

variable {key key' : String}

theorem lookup_putCell (key key' : String) (c : Cell) (cells : List (String × Cell)) :
    (putCell key c cells).lookup key' = if key' = key then some c else cells.lookup key' := by
  induction cells with
  | nil => exact Scheduler.lookup_cons_eq_ite key' key c []
  | cons x rest ih =>
    obtain ⟨name, d⟩ := x
    by_cases hname : name = key
    · subst hname
      simp only [putCell, beq_self_eq_true, if_true, Scheduler.lookup_cons_eq_ite]
      split <;> rfl
    · simp only [putCell, beq_iff_eq, hname, if_false, Scheduler.lookup_cons_eq_ite, ih]
      by_cases h : key' = key
      · subst h
        rw [if_neg (Ne.symm hname), if_pos rfl, if_pos rfl]
      · rw [if_neg h, if_neg h]

theorem cell?_keep (n : Node) (key : String) (c : Cell) : (n.keep key c).cell? key = some c := by
  rw [cell?, keep, lookup_putCell, if_pos rfl]

theorem cell?_keep_of_ne (n : Node) (c : Cell) (h : key' ≠ key) : (n.keep key c).cell? key' = n.cell? key' := by
  rw [cell?, keep, lookup_putCell, if_neg h]
  rfl

theorem lookup_dropped (key key' : String) (cells : List (String × Cell)) :
    (cells.filter fun x => x.1 != key).lookup key' = if key' = key then none else cells.lookup key' := by
  induction cells with
  | nil => simp
  | cons x rest ih =>
    obtain ⟨name, d⟩ := x
    by_cases hname : name = key
    · subst hname
      rw [List.filter_cons_of_neg (by simp), ih, Scheduler.lookup_cons_eq_ite]
      split <;> rfl
    · rw [List.filter_cons_of_pos (by simpa using hname), Scheduler.lookup_cons_eq_ite, Scheduler.lookup_cons_eq_ite, ih]
      by_cases h : key' = key
      · subst h
        rw [if_neg (Ne.symm hname), if_pos rfl, if_pos rfl]
      · rw [if_neg h, if_neg h]

theorem cell?_forget (n : Node) (key : String) : (n.forget key).cell? key = none := by
  rw [cell?, forget, lookup_dropped, if_pos rfl]

theorem cell?_forget_of_ne (n : Node) (h : key' ≠ key) : (n.forget key).cell? key' = n.cell? key' := by
  rw [cell?, forget, lookup_dropped, if_neg h]
  rfl

end Node

/-! ## Intervals and listeners of a graph -/

/-- Whether the node with an id is an interval or a listener. -/
def Graph.HasEntry (g : Graph) (id : String) : Prop := ∃ n ∈ g.nodes, n.id = id ∧ Library.IsEntry n.kind

instance (g : Graph) : DecidablePred g.HasEntry := fun id =>
  inferInstanceAs (Decidable (∃ n ∈ g.nodes, n.id = id ∧ Library.IsEntry n.kind))

theorem Graph.hasEntry_map {g : Graph} {f : Node → Node} (hid : ∀ n, (f n).id = n.id) (hkind : ∀ n, (f n).kind = n.kind)
    (id : String) : { g with nodes := g.nodes.map f }.HasEntry id ↔ g.HasEntry id := by
  simp [HasEntry, List.mem_map, hid, hkind]

namespace Engine

variable {e e' e'' : Engine} {id : String}

theorem hasEntry_program (e : Engine) (id : String) : e.program.graph.HasEntry id ↔ e.graph.HasEntry id :=
  Graph.hasEntry_map (f := Node.bare) (fun _ => rfl) (fun _ => rfl) id

theorem hasEntry_of_program (h : e'.program = e.program) (id : String) : e'.graph.HasEntry id ↔ e.graph.HasEntry id := by
  rw [← hasEntry_program, h, hasEntry_program]

/-- In a graph whose nodes have ids of their own, a node that is found is an entry or not by its kind. -/
theorem hasEntry_iff (hids : (e.graph.nodes.map Node.id).Nodup) {n : Node} (hn : e.graph.node? id = some n) :
    e.graph.HasEntry id ↔ Library.IsEntry n.kind := by
  refine ⟨?_, fun h => ⟨n, List.mem_of_find?_eq_some hn, by simpa using List.find?_some hn, h⟩⟩
  rintro ⟨m, hm, rfl, hentry⟩
  obtain rfl := Option.some.inj ((find?_of_nodup hids hm).symm.trans hn)
  exact hentry

theorem wired_of_program {r : Registry Behavior} (h : e'.program = e.program) (hw : e.graph.Wired r) :
    e'.graph.Wired r := by
  have hrecords : e'.graph.nodes.map Graph.record = e.graph.nodes.map Graph.record := by
    have hbare : Graph.record ∘ Node.bare = Graph.record := rfl
    have hnodes := congrArg (fun p : Program => p.graph.nodes.map Graph.record) h
    simpa only [program, List.map_map, hbare] using hnodes
  exact hw.of_records hrecords (congrArg (fun p : Program => p.graph.edges) h)
    ((congrArg (fun p : Program => p.graph.matcher) h).trans hw.matcher)

/-! ## What nodes have and keep -/

/-- What a node has registered that is active. -/
def owned (e : Engine) (id : String) : List Nat := e.scheduler.ownedBy id

/-- What a node keeps in the place of a registration. -/
def memo (e : Engine) (id : String) : Option Cell :=
  (e.graph.node? id).bind fun n => n.cell? Library.registrationKey

/-- Whether all that was ever registered are intervals and listeners that start triggers from the control flow
output. -/
def Proper (e : Engine) : Prop := ∀ x ∈ e.scheduler.callbacks, x.1 ≠ .timer ∧ x.2.port = execPort

/-- Whether the program stays the same, and what nodes have and keep, but for one of them. -/
structure Spares (id : String) (e e' : Engine) : Prop where
  program : e'.program = e.program
  owned : ∀ other, other ≠ id → e'.owned other = e.owned other
  memo : ∀ other, other ≠ id → e'.memo other = e.memo other
  proper : e.Proper → e'.Proper

/-- Whether the program stays the same, and what nodes have and keep. -/
structure Rests (e e' : Engine) : Prop where
  program : e'.program = e.program
  owned : ∀ id, e'.owned id = e.owned id
  memo : ∀ id, e'.memo id = e.memo id
  proper : e.Proper → e'.Proper

theorem Rests.spares (h : e.Rests e') (id : String) : e.Spares id e' :=
  ⟨h.program, fun other _ => h.owned other, fun other _ => h.memo other, h.proper⟩

theorem Rests.refl (e : Engine) : e.Rests e := ⟨rfl, fun _ => rfl, fun _ => rfl, id⟩

theorem Rests.trans (h : e.Rests e') (h' : e'.Rests e'') : e.Rests e'' :=
  ⟨h'.program.trans h.program, fun id => (h'.owned id).trans (h.owned id), fun id => (h'.memo id).trans (h.memo id),
    fun hp => h'.proper (h.proper hp)⟩

theorem memo_eq_outlook (e : Engine) (id : String) :
    e.memo id = (e.outlook.graph.node? id).bind fun n => n.cell? Library.registrationKey := by
  have hfind : e.outlook.graph.node? id = (e.graph.node? id).map Node.lasting := Graph.node?_map fun _ => rfl
  rw [hfind, memo]
  cases e.graph.node? id <;> rfl

/-- What leaves the outlook as it is changes nothing. -/
theorem rests_of_outlook (h : e'.outlook = e.outlook) : e.Rests e' where
  program := program_of_outlook h
  owned id := by
    have hb : e'.scheduler.byOwner = e.scheduler.byOwner := congrArg Outlook.byOwner h
    rw [owned, owned, Scheduler.ownedBy, Scheduler.ownedBy, hb]
  memo id := by rw [memo_eq_outlook, memo_eq_outlook, h]
  proper hp := by
    have hc : e'.scheduler.callbacks = e.scheduler.callbacks := congrArg Outlook.callbacks h
    rw [Proper, hc]
    exact hp

/-- What nodes keep that have changed. -/
theorem memo_of_nodes {f : Node → Node} (h : e'.graph.nodes = e.graph.nodes.map f) (hid : ∀ n, (f n).id = n.id)
    (id : String) : e'.memo id = (e.graph.node? id).bind fun n => (f n).cell? Library.registrationKey := by
  have hfind : e'.graph.node? id = (e.graph.node? id).map f := by
    rw [Graph.node?, h]
    exact Graph.node?_map (g := e.graph) hid
  rw [memo, hfind, Option.bind_map]
  rfl

/-- A change of what nodes keep elsewhere. -/
theorem rests_modifyNode (e : Engine) (serial : Nat) {f : Node → Node}
    (hf : ∀ n, (f n).serial = n.serial ∧ (f n).id = n.id ∧ (f n).kind = n.kind ∧ (f n).literals = n.literals)
    (hcell : ∀ n, (f n).cell? Library.registrationKey = n.cell? Library.registrationKey) :
    e.Rests (e.modifyNode serial f) where
  program := program_modifyNode e serial hf
  owned _ := rfl
  memo id := by
    rw [memo_of_nodes (e := e) rfl fun n => by split; exacts [(hf n).2.1, rfl], memo]
    refine congrArg _ (funext fun n => ?_)
    split
    · exact hcell n
    · rfl
  proper := id

/-- What nodes keep of which one has changed. -/
theorem memo_of_node (hserials : (e.graph.nodes.map Node.serial).Nodup) {n : Node} (hn : e.graph.node? id = some n)
    {f : Node → Node} (hid : ∀ n, (f n).id = n.id)
    (h : e'.graph.nodes = e.graph.nodes.map fun m => if m.serial = n.serial then f m else m) (other : String) :
    e'.memo other = if other = id then (f n).cell? Library.registrationKey else e.memo other := by
  rw [memo_of_nodes h fun n => by split; exacts [hid n, rfl], memo]
  split
  · next heq =>
    rw [heq, hn]
    simp
  · next hne =>
    cases hm : e.graph.node? other with
    | none => rfl
    | some m =>
      have hserial : m.serial ≠ n.serial := by
        intro heq
        obtain rfl := List.inj_on_of_nodup_map hserials (List.mem_of_find?_eq_some hm)
          (List.mem_of_find?_eq_some hn) heq
        have hmid : m.id = other := by simpa using List.find?_some hm
        have hnid : m.id = id := by simpa using List.find?_some hn
        exact hne (hmid.symm.trans hnid)
      simp [hserial]

/-! ## Answers to behaviours -/

/-- A modest question changes nothing. -/
theorem rests_perform (e : Engine) (i : Invocation) (sc : Scope) {q : Query} (hq : q.isModest = true) :
    e.Rests (e.perform i sc q).engine := by
  cases q with
  | keep key c =>
    have hne : Library.registrationKey ≠ key := fun h => by
      rw [← h] at hq
      cases hq
    exact rests_modifyNode e i.serial (fun _ => ⟨rfl, rfl, rfl, rfl⟩) fun n => n.cell?_keep_of_ne c hne
  | every | fireLater | listen | cancelOwn => cases hq
  | _ => exact rests_of_outlook rfl

/-- Whether a scheduler has one more registration of an owner, or none if registering failed. -/
structure Registered (s : Scheduler Firing Job) (owner : String) (result : Except Fault Nat)
    (s' : Scheduler Firing Job) :
    Prop where
  others : ∀ other, other ≠ owner → s'.ownedBy other = s.ownedBy other
  ok : ∀ r, result = .ok r → s'.ownedBy owner = s.ownedBy owner ++ [r]
  error : ∀ f, result = .error f → s'.ownedBy owner = s.ownedBy owner ∨ ∃ r, s'.ownedBy owner = s.ownedBy owner ++ [r]
  callbacks : ∀ x ∈ s'.callbacks, x ∈ s.callbacks ∨ x.1 ≠ .timer ∧ x.2.port = execPort

theorem Registered.of_track (s : Scheduler Firing Job) {x : Registration Firing} (hkind : x.kind ≠ .timer)
    (hport : x.callback.port = execPort) {result : Except Fault Nat} {s' : Scheduler Firing Job}
    (hr : ∀ r, result = .ok r → r = (s.track x).1) (hb : s'.byOwner = (s.track x).2.byOwner)
    (hc : s'.callbacks = (s.track x).2.callbacks) : Registered s x.owner result s' := by
  have howned : ∀ owner, s'.ownedBy owner =
      if owner = x.owner then s.ownedBy x.owner ++ [s.registrations.length] else s.ownedBy owner := by
    intro owner
    rw [Scheduler.ownedBy, hb]
    exact Scheduler.lookup_indexed x.owner owner s.registrations.length s.byOwner
  refine ⟨fun other hne => by rw [howned, if_neg hne], fun r hok => ?_, fun f _ => .inr ⟨s.registrations.length, ?_⟩,
    fun y hy => ?_⟩
  · rw [howned, if_pos rfl, hr r hok]
    rfl
  · rw [howned, if_pos rfl]
  · rw [hc] at hy
    obtain ⟨z, hz, rfl⟩ := List.mem_map.mp hy
    rcases List.mem_append.mp hz with hz | hz
    · exact .inl (List.mem_map_of_mem hz)
    · rw [List.mem_singleton.mp hz]
      exact .inr ⟨hkind, hport⟩

theorem registered_every (s : Scheduler Firing Job) (owner : String) (seconds : Value) (c : Firing)
    (hport : c.port = execPort) :
    Registered s owner (s.every .fire owner seconds c).1 (s.every .fire owner seconds c).2 := by
  unfold Scheduler.every
  split
  · exact ⟨fun _ _ => rfl, by simp, fun _ _ => .inl rfl, fun _ hx => .inl hx⟩
  · next period _ =>
    dsimp only
    split
    · next s' harm =>
      obtain ⟨time, harm⟩ := Scheduler.armAfter_eq_ok harm
      obtain ⟨due, rfl⟩ := Scheduler.arm_eq_ok harm
      refine .of_track s (x := { id := 0, owner := owner, kind := .interval, callback := c, interval := some period })
        (by simp) hport (fun r hr => (Except.ok.inj hr).symm) rfl ?_
      exact callbacks_modify _ _ fun _ => ⟨rfl, rfl⟩
    · exact .of_track s (x := { id := 0, owner := owner, kind := .interval, callback := c, interval := some period })
        (by simp) hport (by simp) rfl rfl

theorem registered_listen (s : Scheduler Firing Job) (owner : String) (event : Value) (c : Firing)
    (hport : c.port = execPort) : Registered s owner (s.listen owner event c).1 (s.listen owner event c).2 := by
  unfold Scheduler.listen
  dsimp only
  split
  · exact .of_track s (x := { id := 0, owner := owner, kind := .listener, callback := c, event := event })
      (fun h => nomatch h) hport (fun r hr => (Except.ok.inj hr).symm) rfl rfl
  · exact .of_track s (x := { id := 0, owner := owner, kind := .listener, callback := c, event := event })
      (fun h => nomatch h) hport (fun r hr => (nomatch hr)) rfl rfl

/-- What is registered is one node's. -/
theorem Registered.spares {owner : String} {result : Except Fault Nat} {s : Scheduler Firing Job}
    (h : Registered e.scheduler owner result s) : e.Spares owner { e with scheduler := s } where
  program := rfl
  owned := h.others
  memo _ _ := rfl
  proper hp x hx := (h.callbacks x hx).elim (hp x) id

/-- The node of an invocation of the program. -/
theorem node?_of_runs {i : Invocation} (h : e.program.Runs i) :
    ∃ n, e.graph.node? i.node = some n ∧ n.serial = i.serial := by
  obtain ⟨n, hn, hserial⟩ := h
  rcases nodeWithKind_cases (e := e) rfl i.node with ⟨err, -, herr⟩ | ⟨m, k, hm, hbare⟩
  · rw [hn] at herr
    cases herr
  · obtain ⟨rfl, rfl⟩ := Prod.mk.inj (Except.ok.inj (hn.symm.trans hbare))
    exact ⟨m, node?_of_nodeWithKind hm, hserial⟩

/-- A registration that is kept is one node's. -/
theorem spares_pledge {i : Invocation} (hruns : e.program.Runs i) (hkempt : e.Kempt) (sc : Scope) (c : Cell) :
    e.Spares i.node (e.perform i sc (.keep Library.registrationKey c)).engine ∧
      (e.perform i sc (.keep Library.registrationKey c)).engine.memo i.node = some c := by
  obtain ⟨n, hn, hserial⟩ := node?_of_runs hruns
  have hnodes : (e.perform i sc (.keep Library.registrationKey c)).engine.graph.nodes =
      e.graph.nodes.map fun m => if m.serial = n.serial then m.keep Library.registrationKey c else m := by
    rw [hserial]
    simp [perform, modifyNode]
  have hmemo :=
    memo_of_node hkempt.graph.serials hn (f := fun m => m.keep Library.registrationKey c) (fun _ => rfl) hnodes
  refine ⟨⟨program_perform e i sc _, fun _ _ => rfl, fun other hne => ?_, id⟩, ?_⟩
  · rw [hmemo, if_neg hne]
  · rw [hmemo, if_pos rfl, n.cell?_keep]

/-! ## Cancelling -/

theorem callbacks_cancel (s : Scheduler Firing Job) (id : Nat) : (s.cancel id).2.callbacks = s.callbacks := by
  unfold Scheduler.cancel
  split
  · rfl
  · next r _ =>
    split
    · rfl
    · have hforget : ∀ s' : Scheduler Firing Job, (s'.forget r).2.callbacks = s'.callbacks := fun s' => by
        rw [Scheduler.callbacks, (s'.forget_fields r).1]
        rfl
      refine (hforget _).trans ?_
      split
      · exact callbacks_modify s id fun _ => ⟨rfl, rfl⟩
      · exact callbacks_modify s id fun _ => ⟨rfl, rfl⟩

theorem callbacks_cancelEach (ids : List Nat) (s : Scheduler Firing Job) :
    (s.cancelEach ids).2.callbacks = s.callbacks := by
  induction ids generalizing s with
  | nil => rfl
  | cons id rest ih =>
    rw [Scheduler.cancelEach_cons]
    split
    · exact (ih _).trans (callbacks_cancel s id)
    · exact callbacks_cancel s id

theorem callbacks_cancelOwner (s : Scheduler Firing Job) (owner : String) :
    (s.cancelOwner owner).2.callbacks = s.callbacks := by
  rw [Scheduler.cancelOwner_eq]
  exact callbacks_cancelEach _ s

theorem callbacks_cancelOwners (owners : List String) (count : Nat) (s : Scheduler Firing Job) :
    (s.cancelOwners count owners).2.callbacks = s.callbacks := by
  induction owners generalizing count s with
  | nil => rfl
  | cons owner rest ih =>
    rw [Scheduler.cancelOwners_cons]
    split
    · exact (ih _ _).trans (callbacks_cancelOwner s owner)
    · exact callbacks_cancelOwner s owner

theorem callbacks_wakeAll (s : Scheduler Firing Job) : s.wakeAll.2.callbacks = s.callbacks := by
  have hsettle : ∀ (s : Scheduler Firing Job) (x : Sleeper Job), (s.settle x.id false).callbacks = s.callbacks := by
    intro s x
    unfold Scheduler.settle
    split
    · rfl
    · split <;> rfl
  have hfold : ∀ (xs : List (Sleeper Job)) (s : Scheduler Firing Job),
      (xs.foldl (fun s x => s.settle x.id false) s).callbacks = s.callbacks := by
    intro xs
    induction xs with
    | nil => exact fun _ => rfl
    | cons x rest ih => exact fun s => (ih _).trans (hsettle s x)
  exact hfold _ s

/-! ## Nodes that are torn down -/

theorem find?_of_isEntry {kind : String} (h : Library.IsEntry kind) :
    (Library.registry.find? kind).bind Kind.teardown = some (.forget Library.registrationKey) := by
  have hsome : (Library.registry.find? kind).isSome = true := by
    rcases h with rfl | rfl <;> decide +kernel
  obtain ⟨k, hk⟩ := Option.isSome_iff_exists.mp hsome
  obtain ⟨hmem, rfl⟩ := Library.mem_of_find? hk
  rw [hk]
  exact (Library.traits_of_entry hmem h).2.2

/-- Only intervals and listeners forget a registration when they are torn down. -/
theorem cell?_torn (n : Node) : (Library.registry.torn n).cell? Library.registrationKey =
    if Library.IsEntry n.kind then none else n.cell? Library.registrationKey := by
  by_cases h : Library.IsEntry n.kind
  · rw [if_pos h, Registry.torn, find?_of_isEntry h]
    exact n.cell?_forget _
  · rw [if_neg h, Registry.torn]
    cases hk : Library.registry.find? n.kind with
    | none => rfl
    | some k =>
      obtain ⟨hmem, hid⟩ := Library.mem_of_find? hk
      rw [Option.bind_some]
      rcases Library.teardown_of_modest hmem (hid ▸ h) with ht | ht
      · rw [ht]
      · rw [ht]
        exact n.cell?_forget_of_ne (by decide)

theorem id_torn (r : Registry Behavior) (n : Node) : (r.torn n).id = n.id := by
  unfold Registry.torn
  split <;> rfl

/-- A node that is set up, or removed, has nothing any more, and an interval or a listener keeps nothing. -/
theorem spares_disarm (hr : e.registry = Library.registry) (hkempt : e.Kempt)
    (hk : ∀ r ∈ e.scheduler.active none, r.event.hashable = true) {n : Node} (hn : e.graph.node? id = some n) :
    e.Spares id (e.disarm n).2 ∧ (e.disarm n).2.owned id = [] ∧
      (e.disarm n).2.memo id = if Library.IsEntry n.kind then none else e.memo id := by
  have hid : n.id = id := by simpa using List.find?_some hn
  obtain ⟨hresult, hmine, hothers⟩ := hkempt.scheduler.cancelOwner_ok (hkempt.scheduler.keyed_iff.mpr hk n.id)
  have hdisarm : (e.disarm n).2 = { e with scheduler := (e.scheduler.cancelOwner n.id).2 }.tearDown n := by
    unfold disarm
    split
    · next heq =>
      rw [heq] at hresult
      cases hresult
    · next heq => rw [heq]
  have htorn : TornDown [n] { e with scheduler := (e.scheduler.cancelOwner n.id).2 } (e.disarm n).2 := by
    rw [hdisarm]
    refine tornDown_tearDown _ fun m hm hs => ?_
    rw [List.inj_on_of_nodup_map hkempt.graph.serials hm (List.mem_of_find?_eq_some hn) hs]
  have hmemo : ∀ other, (e.disarm n).2.memo other =
      if other = id ∧ Library.IsEntry n.kind then none else e.memo other := by
    intro other
    rw [memo_of_node hkempt.graph.serials hn (id_torn Library.registry) ?_ other, cell?_torn]
    · by_cases hother : other = id
      · rw [if_pos hother, hother]
        simp only [true_and]
        split
        · rfl
        · rw [memo, hn]
          rfl
      · rw [if_neg hother, if_neg fun h => hother h.1]
    · rw [htorn.nodes, hr]
      simp
  refine ⟨⟨program_disarm e n, fun other hne => ?_, fun other hne => ?_, fun hp => ?_⟩, ?_, ?_⟩
  · rw [owned, htorn.scheduler]
    exact hothers other (hid ▸ hne)
  · rw [hmemo, if_neg fun h => hne h.1]
  · rw [Proper, htorn.scheduler, callbacks_cancelOwner]
    exact hp
  · rw [owned, htorn.scheduler, ← hid]
    exact hmine
  · rw [hmemo]
    simp

theorem callbacks_stop (e : Engine) : e.stop.2.scheduler.callbacks = e.scheduler.callbacks := by
  have hfold : ∀ (ns : List Node) (e : Engine), (ns.foldl tearDown e).scheduler = e.scheduler := by
    intro ns
    induction ns with
    | nil => exact fun _ => rfl
    | cons n rest ih => exact fun e => (ih (e.tearDown n)).trans (tearDown_scheduler e n)
  have hcancel : e.scheduler.cancelAll.2.callbacks = e.scheduler.callbacks := callbacks_cancelOwners _ _ _
  unfold stop
  dsimp only
  split
  · next heq =>
    rw [heq] at hcancel
    exact hcancel
  · next heq =>
    rw [heq] at hcancel
    refine Eq.trans ?_ ((callbacks_wakeAll _).trans hcancel)
    exact congrArg Scheduler.callbacks (hfold e.graph.nodes _)

/-- Nothing is registered and kept after a stop. -/
theorem possessions_stop (hr : e.registry = Library.registry) (hids : (e.graph.nodes.map Node.id).Nodup)
    (hkempt : e.Kempt) (hk : ∀ r ∈ e.scheduler.active none, r.event.hashable = true)
    (hmodest : ∀ id, ¬e.graph.HasEntry id → e.memo id = none) (id : String) :
    e.stop.2.owned id = [] ∧ e.stop.2.memo id = none := by
  obtain ⟨hresult, hstopped⟩ := hkempt.stop_ok hk
  refine ⟨hkempt.owned_stop hk id, ?_⟩
  rw [memo_of_nodes hstopped.nodes (id_torn e.registry), hr]
  cases hn : e.graph.node? id with
  | none => rfl
  | some n =>
    rw [Option.bind_some, cell?_torn]
    split
    · rfl
    · next hentry =>
      have hnone := hmodest id fun h => hentry ((hasEntry_iff hids hn).mp h)
      rw [memo, hn] at hnone
      exact hnone

end Engine

/-! ## Commands -/

/-- Whether a command leaves the kinds alone, and puts no node and no graph in the place of another by hand. -/
def Command.isPlain : Command → Bool
  | .register _ | .registerExpression _ _ _ | .retag _ _ | .replaceGraph _ | .chain _ _ _ _ _ _ | .fire _ _ _ => false
  | _ => true

section Documents

variable {β : Type} {r : Registry β} {g : Graph}

theorem Graph.Wired.addRecord {g' : Graph} {x : NodeRecord} (h : g.Wired r) (hx : g.addRecord r x = .ok g') :
    g'.Wired r := by
  obtain ⟨k, n, g₁, -, hadd, rfl⟩ := addRecord_eq_ok hx
  exact (h.addNode hadd).mapNodes (fun n => by split <;> rfl) fun n => by split <;> rfl

/-- The graph of a document is wired as its kinds allow. -/
theorem Graph.Wired.ofDocument {first : Nat} {d : Document} (h : Graph.ofDocument r .byType first d = .ok g) :
    g.Wired r :=
  ofDocument_induction (.empty r first) (fun _ _ _ _ hg hx => hg.addRecord hx)
    (fun _ _ _ _ hg hx => hg.addEdge hx) h

/-- The nodes of a document keep nothing. -/
theorem Graph.blank_ofDocument {m : Matcher} {first : Nat} {d : Document} (h : Graph.ofDocument r m first d = .ok g) :
    ∀ n ∈ g.nodes, n.state = [] := by
  refine ofDocument_induction (P := fun g => ∀ n ∈ g.nodes, n.state = []) (by simp)
    (fun g x g' _ hs hx => ?_) (fun g x old g' hs hadd => ?_) h
  · obtain ⟨k, added, g₁, -, hadd, rfl⟩ := addRecord_eq_ok hx
    obtain ⟨-, literals, -, rfl, rfl⟩ := addNode_eq_ok hadd
    intro n hmem
    obtain ⟨m, hm, rfl⟩ := List.mem_map.mp hmem
    have hstate : m.state = [] := by
      rcases List.mem_append.mp hm with hm | hm
      · exact hs m hm
      · rw [List.mem_singleton.mp hm]
    split <;> exact hstate
  · obtain ⟨-, -, -, -, -, -, -, -, -, ⟨-, rfl⟩ | ⟨-, rfl⟩⟩ := addEdge_eq_ok hadd <;> exact hs

end Documents

namespace Engine

/-- Whether a change of an engine whose kinds are those of the library leaves its graph wired, and what a node has and
keeps; or a node has and keeps nothing any more. -/
structure Amends (e e' : Engine) : Prop where
  registry : e'.registry = e.registry
  config : e'.config = e.config
  wired : e'.graph.Wired Library.registry
  proper : e.Proper → e'.Proper
  each : ∀ id, e'.owned id = e.owned id ∧ e'.memo id = e.memo id ∧ (e.graph.HasEntry id → e'.graph.HasEntry id) ∨
    e'.owned id = [] ∧ e'.memo id = none

variable {e e' : Engine} {id : String}

theorem Rests.amends (h : e.Rests e') (hw : e.graph.Wired Library.registry) : e.Amends e' where
  registry := congrArg Program.registry h.program
  config := congrArg Program.config h.program
  wired := wired_of_program h.program hw
  proper := h.proper
  each id := .inl ⟨h.owned id, h.memo id, (hasEntry_of_program h.program id).mpr⟩

/-- Another graph in the place of the current one, in which nodes keep what they did. -/
theorem Amends.putGraph {g : Graph} (hw : g.Wired Library.registry)
    (hmemo : ∀ id, { e with graph := g }.memo id = e.memo id)
    (hentry : ∀ id, e.graph.HasEntry id → g.HasEntry id) : e.Amends { e with graph := g } where
  registry := rfl
  config := rfl
  wired := hw
  proper := id
  each id := .inl ⟨rfl, hmemo id, hentry id⟩

theorem amends_addNode (hw : e.graph.Wired Library.registry) (kind : String)
    (literals : Named) (name : Option String) : e.Amends (e.addNode kind literals name).2 := by
  have hsame : e.Rests (e.nodeId name).2 := by
    refine rests_of_outlook ?_
    unfold nodeId
    split <;> rfl
  have hrests := hsame.amends hw
  have hgraph : (e.nodeId name).2.graph = e.graph := by
    unfold nodeId
    split <;> rfl
  unfold addNode
  split
  · exact (Rests.refl e).amends hw
  · dsimp only
    split
    · exact hrests
    · next n g hadd =>
      rw [hgraph] at hadd
      have hwired := hw.addNode hadd
      obtain ⟨hnone, literals, -, hn, rfl⟩ := Graph.addNode_eq_ok hadd
      have hid : n.id = (e.nodeId name).1 := by rw [hn]
      refine ⟨hrests.registry, hrests.config, hwired, hrests.proper, fun id => .inl ⟨?_, ?_, ?_⟩⟩
      · exact (hsame.owned id).trans rfl
      · rw [memo, memo]
        by_cases hne : n.id = id
        · rw [← hid, hne] at hnone
          have hfind : Graph.node?
              { e.graph with nodes := e.graph.nodes ++ [n], nextSerial := e.graph.nextSerial + 1 } id =
              some n := by
            rw [Graph.node?] at hnone ⊢
            simp [List.find?_append, hnone, hne]
          rw [hfind, hnone, hn]
          rfl
        · rw [Graph.node?_append_of_ne hne]
      · rintro ⟨m, hm, hmid, hentry⟩
        exact ⟨m, List.mem_append_left _ hm, hmid, hentry⟩

theorem amends_addEdge (hr : e.registry = Library.registry) (hw : e.graph.Wired Library.registry) (x : Edge) :
    e.Amends (e.addEdge x).2 := by
  unfold addEdge
  split
  · exact (Rests.refl e).amends hw
  · next old g hadd =>
    rw [hr] at hadd
    have hwired := hw.addEdge hadd
    obtain ⟨_, _, _, _, -, -, -, -, -, ⟨-, rfl⟩ | ⟨-, rfl⟩⟩ := Graph.addEdge_eq_ok hadd
    · exact .putGraph hwired (fun _ => rfl) fun _ h => h
    · exact .putGraph hwired (fun _ => rfl) fun _ h => h

theorem amends_setLiteral (hw : e.graph.Wired Library.registry) {id port : String} {v : Value} {g : Graph}
    (hset : e.graph.setLiteral e.registry id port v = .ok g) : e.Amends { e with graph := g } := by
  obtain ⟨_, _, -, -, -, rfl⟩ := Graph.setLiteral_eq_ok hset
  have hid : ∀ n : Node, (if n.id == id then { n with literals := n.literals.set port v } else n).id = n.id :=
    fun n => by split <;> rfl
  have hkind : ∀ n : Node, (if n.id == id then { n with literals := n.literals.set port v } else n).kind = n.kind :=
    fun n => by split <;> rfl
  refine .putGraph (hw.mapNodes hid hkind) (fun other => ?_) fun other => (Graph.hasEntry_map hid hkind other).mpr
  rw [memo_of_nodes (e := e) rfl hid, memo]
  refine congrArg _ (funext fun n => ?_)
  split <;> rfl

section Clearing

variable (hr : e.registry = Library.registry) (hw : e.graph.Wired Library.registry) (hkempt : e.Kempt)
  (hk : ∀ r ∈ e.scheduler.active none, r.event.hashable = true) (hmodest : ∀ id, ¬e.graph.HasEntry id → e.memo id = none)

include hr hw hkempt hk hmodest

theorem amends_removeNode (id : String) : e.Amends (e.removeNode id).2 := by
  rcases removeNode_cases e id with heq | ⟨n, hn, hcases⟩
  · rw [heq]
    exact (Rests.refl e).amends hw
  · obtain ⟨hspares, howned, hmemo⟩ := spares_disarm hr hkempt hk hn
    have hnone : (e.disarm n).2.memo id = none := by
      rw [hmemo]
      split
      · rfl
      · next h => exact hmodest id fun hentry => h ((hasEntry_iff hw.ids hn).mp hentry)
    have hdisarm : e.Amends (e.disarm n).2 := by
      refine ⟨congrArg Program.registry hspares.program, congrArg Program.config hspares.program,
        wired_of_program hspares.program hw, hspares.proper, fun other => ?_⟩
      by_cases hother : other = id
      · rw [hother]
        exact .inr ⟨howned, hnone⟩
      · exact .inl ⟨hspares.owned other hother, hspares.memo other hother,
          (hasEntry_of_program hspares.program other).mpr⟩
    rcases hcases with heq | ⟨-, m, g, hremove, heq⟩
    · rw [heq]
      exact hdisarm
    · rw [heq]
      have hwired := hdisarm.wired.removeNode hremove
      obtain ⟨-, rfl⟩ := Graph.removeNode_eq_ok hremove
      refine ⟨hdisarm.registry, hdisarm.config, hwired, hdisarm.proper, fun other => ?_⟩
      by_cases hother : other = id
      · refine .inr ⟨hother ▸ howned, ?_⟩
        have hfind : Graph.node? { (e.disarm n).2.graph with
            nodes := (e.disarm n).2.graph.nodes.filter fun m => m.id != id
            edges := (e.disarm n).2.graph.edges.filter fun e => !e.touches id } other = none := by
          rw [hother, Graph.node?, List.find?_eq_none]
          intro m hm
          simpa using List.of_mem_filter hm
        rw [memo, hfind]
        rfl
      · rcases hdisarm.each other with ⟨hown, hmem, hentry⟩ | ⟨hown, hmem⟩
        · refine .inl ⟨hown, Eq.trans ?_ hmem, fun h => ?_⟩
          · rw [memo, Graph.node?_filter_of_ne _ hother]
            rfl
          · obtain ⟨m', hm', hid, hkind⟩ := hentry h
            refine ⟨m', List.mem_filter.mpr ⟨hm', ?_⟩, hid, hkind⟩
            simpa [hid] using hother
        · refine .inr ⟨hown, Eq.trans ?_ hmem⟩
          rw [memo, Graph.node?_filter_of_ne _ hother]
          rfl

theorem amends_stop : e.Amends e.stop.2 where
  registry := congrArg Program.registry (program_stop e)
  config := congrArg Program.config (program_stop e)
  wired := wired_of_program (program_stop e) hw
  proper hp := by
    rw [Proper, callbacks_stop]
    exact hp
  each id := .inr (possessions_stop hr hw.ids hkempt hk hmodest id)

theorem amends_load (text : String) : e.Amends (e.load text).2 := by
  have hstop := amends_stop hr hw hkempt hk hmodest
  rcases load_cases e text with ⟨-, heq⟩ | heq | ⟨-, d, g, hread, heq⟩
  · rw [heq]
    exact (Rests.refl e).amends hw
  · rw [heq]
    exact hstop
  · rw [heq]
    have hdoc := readGraph_eq_ok hread
    refine ⟨hstop.registry, hstop.config, ?_, hstop.proper, fun id =>
      .inr ⟨(possessions_stop hr hw.ids hkempt hk hmodest id).1, ?_⟩⟩
    · rw [hr] at hdoc
      exact .ofDocument hdoc
    · rw [memo]
      show (Graph.node? _ id).bind _ = none
      rw [Option.bind_eq_none_iff]
      intro n hn
      rw [Node.cell?, Graph.blank_ofDocument hdoc n (List.mem_of_find?_eq_some hn)]
      rfl

/-- What a plain command leaves: each node keeps what it had and kept, or has and keeps nothing. -/
theorem amends_command {c : Command} (hc : c.isPlain = true) : e.Amends (e.command c).2 := by
  have hcases := e.command_cases c
  generalize (e.command c).2 = e' at hcases ⊢
  cases hcases with
  | addNode kind literals name => exact amends_addNode hw kind literals name
  | removeNode id => exact amends_removeNode hr hw hkempt hk hmodest id
  | addEdge x | connect x => exact amends_addEdge hr hw x
  | removeEdge x => exact .putGraph (hw.removeEdge x) (fun _ => rfl) fun _ h => h
  | setLiteral hset => exact amends_setLiteral hw hset
  | stop => exact amends_stop hr hw hkempt hk hmodest
  | load text => exact amends_load hr hw hkempt hk hmodest text
  | dispatch event payload => exact (rests_of_outlook (outlook_dispatch e event payload)).amends hw
  | chain | retag | register | registerExpression | replaceGraph | fire => cases hc
  | setVariable name v =>
    have h : { e with store := e.store.set name v }.outlook = e.outlook := rfl
    exact (rests_of_outlook h).amends hw
  | deleteVariable name =>
    have h : { e with store := e.store.delete name }.outlook = e.outlook := rfl
    exact (rests_of_outlook h).amends hw
  | _ => exact (Rests.refl e).amends hw

end Clearing

end Engine

end Patchbay
