import Patchbay.Proofs.Possessions

/-!
# Strands that register nothing

Control flow comes to no interval and no listener along edges: it begins there only when an editor's run or step sets
one up. All other triggers run modest behaviours alone. They change nothing of what nodes have registered and keep.

Contents:
* `headed`: the nodes that control flow of a strand has still to come to.
* `Bystands`: strands that run modest behaviours above some frames.
* `Bystander`: strands in which a trigger runs, over some frames, that registers nothing.

Results:
* `Bystands.turn`, `Bystander.turn`: their turns.
-/

namespace Patchbay

/-! ## What strands have still to come to -/

/-- The nodes that control flow comes to when a frame goes on, and those from which a run starts triggers. -/
def Frame.heads : Frame → List String
  | .walk agenda => agenda
  | .arming _ starts _ => starts
  | _ => []

/-- The nodes that control flow comes to next. A trigger that sets up its node comes to it by right. -/
def Parked.heads : Parked → List String
  | .turn (.call (.walk agenda)) => agenda
  | .turn (.call (.trigger _ .arm _ _)) => []
  | .turn (.call (.trigger node _ none _)) => [node]
  | _ => []

/-- The nodes that control flow of a strand has still to come to. -/
def headed (x : Strand × Parked) : List String := x.1.frames.flatMap Frame.heads ++ x.2.heads

/-! ## Modest strands -/

/-- The invocation of a modest kind of the library. -/
structure Invocation.Modest (i : Invocation) : Prop where
  mem : i.kind ∈ Library.registry.kinds
  plain : ¬Library.IsEntry i.kind.id

theorem Invocation.Modest.behavior {i : Invocation} (h : i.Modest) {b : Behavior} (hb : i.kind.behavior = some b)
    (state : Value) : (b state).Modest :=
  Library.modest_of_mem h.mem h.plain b hb state

/-- Whether a frame is of a modest behaviour inside a trigger, or of what comes between such. -/
def Frame.Modest : Frame → Prop
  | .behavior i _ k => i.Modest ∧ ∀ r, (k r).Modest
  | .walk _ | .output _ _ _ | .hop => True
  | _ => False

/-- Whether what a strand does next inside a trigger is modest. -/
def Signal.Modest : Signal → Prop
  | .call (.invoke i) => i.Modest
  | .call (.behave i script) => i.Modest ∧ script.Modest
  | .call (.walk _) | .call (.input _ _) | .call (.output _ _) => True
  | .call _ => False
  | .back (.invoked _ i) => i.Modest
  | _ => True

/-- Whether what a strand does at its next turn inside a trigger is modest. -/
def Parked.Modest : Parked → Prop
  | .turn sig => sig.Modest
  | _ => True

/-- Whether frames above some others are modest, and lead to none of some nodes. -/
def Above (E : String → Prop) (base fs : List Frame) : Prop :=
  ∃ above, fs = above ++ base ∧ ∀ f ∈ above, f.Modest ∧ ∀ id ∈ f.heads, ¬E id

/-- Whether a strand runs modest behaviours above some frames, and comes to none of some nodes. -/
structure Bystands (E : String → Prop) (base : List Frame) (x : Strand × Parked) : Prop where
  frames : Above E base x.1.frames
  parked : x.2.Modest
  heads : ∀ id ∈ x.2.heads, ¬E id

/-- Where every strand comes from after a turn that starts none: it waited, or it is that of the turn, and `P` holds
of it. -/
def Engine.Leads (e : Engine) (P : Strand × Parked → Prop) (t : Engine.Turn) : Prop :=
  ∀ x ∈ t.population, x ∈ e.strands ∨ P x

namespace Engine.Leads

variable {e e' : Engine} {P : Strand × Parked → Prop} {s' : Strand}

theorem ended (h : e'.strands = e.strands) : e.Leads P ⟨e', none⟩ := fun _ hx => .inl (h ▸ hx)

theorem go (h : e'.strands = e.strands) {sig : Signal} (hP : P (s', .turn sig)) : e.Leads P (e'.go s' sig) := by
  intro x hx
  rcases List.mem_cons.mp hx with rfl | hx
  · exact .inr hP
  · exact .inl (h ▸ hx)

theorem park (h : e'.strands = e.strands) {p : Parked} (hP : P (s', p)) : e.Leads P ⟨e'.park s' p, none⟩ := by
  intro x hx
  rcases List.mem_cons.mp hx with rfl | hx
  · exact .inr hP
  · exact .inl (h ▸ hx)

theorem mono {Q : Strand × Parked → Prop} {t : Engine.Turn} (h : e.Leads P t) (hPQ : ∀ x, P x → Q x) : e.Leads Q t :=
  fun x hx => (h x hx).imp_right (hPQ x)

end Engine.Leads

namespace Above

variable {E : String → Prop} {base fs : List Frame}

theorem push {f : Frame} (hf : f.Modest) (hheads : ∀ id ∈ f.heads, ¬E id) (h : Above E base fs) :
    Above E base (f :: fs) := by
  obtain ⟨above, rfl, habove⟩ := h
  exact ⟨f :: above, rfl, List.forall_mem_cons.mpr ⟨⟨hf, hheads⟩, habove⟩⟩

/-- The innermost frame, where it is above the others. -/
theorem pop {f : Frame} (h : Above E base (f :: fs)) (hne : f :: fs ≠ base) :
    f.Modest ∧ (∀ id ∈ f.heads, ¬E id) ∧ Above E base fs := by
  obtain ⟨above, heq, habove⟩ := h
  cases above with
  | nil => exact absurd heq hne
  | cons g above =>
    obtain ⟨rfl, rfl⟩ := List.cons.inj heq
    obtain ⟨hg, habove⟩ := List.forall_mem_cons.mp habove
    exact ⟨hg.1, hg.2, above, rfl, habove⟩

end Above

/-! ## Edges that carry control flow -/

namespace Engine

variable {e : Engine}

/-- No edge that carries control flow leads to an interval or a listener. -/
theorem clear_of_edge (hw : e.graph.Wired Library.registry) {x : Edge} (hx : x ∈ e.graph.edges)
    (hport : x.sourcePort ∈ Library.flowPorts) : ¬e.graph.HasEntry x.dest := by
  intro hentry
  obtain ⟨k, l, p, q, hk, hl, hp, hq, hjoin⟩ := hw.edges x hx
  obtain ⟨m, hm, hmk⟩ := Graph.kindOf_eq_ok_iff.mp hk
  obtain ⟨n, hn, hnl⟩ := Graph.kindOf_eq_ok_iff.mp hl
  have hpid : p.id = x.sourcePort := by simpa using List.find?_some hp
  have hflow : p.isExec = true :=
    (Library.isExec_iff (Library.mem_of_find? hmk).1 (List.mem_of_find?_eq_some hp)).mpr (hpid ▸ hport)
  obtain ⟨hmem, hid⟩ := Library.mem_of_find? hnl
  have hplain := Library.not_isExec_of_entry hmem (hid ▸ (hasEntry_iff hw.ids hn).mp hentry)
    (List.mem_of_find?_eq_some hq)
  rw [hjoin.1.mp hflow] at hplain
  cases hplain

theorem clear_destinations (hw : e.graph.Wired Library.registry) (node : String) {port : String}
    (hport : port ∈ Library.flowPorts) : ∀ id ∈ e.destinations node (some port), ¬e.graph.HasEntry id := by
  intro id hid
  obtain ⟨x, hx, rfl⟩ := List.mem_map.mp hid
  obtain ⟨hx, hends⟩ := List.mem_filter.mp hx
  have hsource : x.sourcePort = port := by simpa using (Bool.and_eq_true_iff.mp hends).2
  exact clear_of_edge hw hx (hsource ▸ hport)

theorem clear_execTargets (hw : e.graph.Wired Library.registry) (node : String) {k : Kind Behavior}
    (hk : k ∈ Library.registry.kinds) (port : Option String) :
    ∀ id ∈ e.execTargets node k port, ¬e.graph.HasEntry id := by
  intro id hid
  obtain ⟨x, hx, rfl⟩ := List.mem_map.mp hid
  obtain ⟨hx, hcontains⟩ := List.mem_filter.mp hx
  obtain ⟨p, hp, heq⟩ := List.mem_map.mp (List.contains_iff_mem.mp hcontains)
  obtain ⟨hp, hexec⟩ := List.mem_filter.mp hp
  exact clear_of_edge hw (List.mem_of_mem_filter hx) (heq ▸ (Library.isExec_iff hk hp).mp hexec)

/-- A node that is found and is no interval and no listener. -/
theorem modest_of_nodeWithKind (hr : e.registry = Library.registry) {id : String} {n : Node} {k : Kind Behavior}
    (h : e.nodeWithKind id = .ok (n, k)) :
    n ∈ e.graph.nodes ∧ n.id = id ∧ k ∈ Library.registry.kinds ∧ k.id = n.kind := by
  have hnode := node?_of_nodeWithKind h
  refine ⟨List.mem_of_find?_eq_some hnode, by simpa using List.find?_some hnode, ?_⟩
  simp only [nodeWithKind, Graph.requireNode, hnode, Registry.lookup, hr, bind, Except.bind, pure, Except.pure] at h
  split at h
  · cases h
  · next hk =>
    obtain ⟨-, rfl⟩ := Prod.mk.inj (Except.ok.inj h)
    split at hk
    · next hfind =>
      obtain rfl := Except.ok.inj hk
      exact Library.mem_of_find? hfind
    · cases hk

end Engine

/-! ## Turns inside triggers -/

/-- Whether a strand is that of a turn, in the same trigger, and runs modest behaviours above some frames. -/
structure Paces (E : String → Prop) (base : List Frame) (s : Strand) (x : Strand × Parked) : Prop where
  id : x.1.id = s.id
  trigger : x.1.scope.trigger = s.scope.trigger
  bystands : Bystands E base x

section Turns

variable {e e' : Engine} {s s' : Strand} {sig : Signal} {base : List Frame} {E : String → Prop}

theorem leads_go (hs : e'.strands = e.strands) (hid : s'.id = s.id) (ht : s'.scope.trigger = s.scope.trigger)
    (hf : Above E base s'.frames) (hsig : sig.Modest) (hheads : ∀ id ∈ (Parked.turn sig).heads, ¬E id) :
    e.Leads (Paces E base s) (e'.go s' sig) :=
  .go hs ⟨hid, ht, hf, hsig, hheads⟩

theorem leads_park (hs : e'.strands = e.strands) {q : Parked} (hid : s'.id = s.id)
    (ht : s'.scope.trigger = s.scope.trigger) (hf : Above E base s'.frames) (hq : q.Modest)
    (hheads : ∀ id ∈ q.heads, ¬E id) : e.Leads (Paces E base s) ⟨e'.park s' q, none⟩ :=
  .park hs ⟨hid, ht, hf, hq, hheads⟩

theorem leads_raise (hs : e'.strands = e.strands) (hid : s'.id = s.id) (ht : s'.scope.trigger = s.scope.trigger)
    (hf : Above E base s'.frames) (err : Raised) : e.Leads (Paces E base s) (e'.go s' (.raise err)) :=
  .go hs ⟨hid, ht, hf, trivial, List.forall_mem_nil _⟩

theorem leads_back (hs : e'.strands = e.strands) (hid : s'.id = s.id) (ht : s'.scope.trigger = s.scope.trigger)
    (hf : Above E base s'.frames) {r : Result} (hr : (Signal.back r).Modest) :
    e.Leads (Paces E base s) (e'.go s' (.back r)) :=
  .go hs ⟨hid, ht, hf, hr, List.forall_mem_nil _⟩

theorem strands_report (e : Engine) (sc : Scope) (i : Invocation) (f : Failure) :
    (e.report sc i f).2.strands = e.strands := rfl

theorem failInvocation_bystands (hs : e'.strands = e.strands) (i : Invocation) (err : Raised) (hid : s'.id = s.id)
    (ht : s'.scope.trigger = s.scope.trigger) (hf : Above E base s'.frames) :
    e.Leads (Paces E base s) (e'.failInvocation s' i err) := by
  rw [Engine.failInvocation_eq]
  split
  · exact leads_raise hs hid ht hf _
  · exact leads_raise ((strands_report e' s'.scope i (err.atInvocation s'.scope.trigger i)).trans hs) hid ht hf _

theorem trigger_publishAll (node : String) (es : Dict) (sc : Scope) :
    (es.foldl (fun sc x => sc.publish node x.1 x.2) sc).trigger = sc.trigger :=
  (Scope.Extends.publishAll node es sc).trigger

section Inside

variable (hf : Above e.graph.HasEntry base s.frames)

include hf

theorem walk_bystands (hr : e.registry = Library.registry) (hw : e.graph.Wired Library.registry)
    {agenda : List String} (ha : ∀ id ∈ agenda, ¬e.graph.HasEntry id) :
    e.Leads (Paces e.graph.HasEntry base s) (e.walk s agenda) := by
  have hcases := e.walk_cases s agenda
  generalize e.walk s agenda = t at hcases ⊢
  cases hcases with
  | done | stopped => exact leads_back rfl rfl rfl hf trivial
  | unknown => exact leads_raise rfl rfl rfl hf _
  | @invokes node _ n k _ _ hn =>
    obtain ⟨hnode, hrest⟩ := List.forall_mem_cons.mp ha
    obtain ⟨hmem, hid, hk, hkind⟩ := Engine.modest_of_nodeWithKind hr hn
    exact leads_go rfl rfl rfl (hf.push trivial hrest)
      ⟨hk, fun hentry => hnode ⟨n, hmem, hid, hkind ▸ hentry⟩⟩ (List.forall_mem_nil _)
  | @passes node _ n k _ hn =>
    obtain ⟨-, hrest⟩ := List.forall_mem_cons.mp ha
    obtain ⟨-, -, hk, -⟩ := Engine.modest_of_nodeWithKind hr hn
    refine leads_go rfl rfl rfl hf trivial fun id hid => ?_
    rcases List.mem_append.mp hid with hid | hid
    · exact Engine.clear_execTargets hw node hk none id hid
    · exact hrest id hid

theorem invoke_bystands {i : Invocation} (hi : i.Modest) : e.Leads (Paces e.graph.HasEntry base s) (e.invoke s i) := by
  unfold Engine.invoke
  dsimp only
  split
  · next b hb => exact leads_go rfl rfl rfl hf ⟨hi, hi.behavior hb .null⟩ (List.forall_mem_nil _)
  · exact failInvocation_bystands rfl i _ rfl rfl hf

theorem awaitFor_bystands (hw : e.graph.Wired Library.registry) {i : Invocation} {w : Wait}
    {k : Except Raised w.Reply → Script} (hi : i.Modest) (hk : ∀ r, (k r).Modest) :
    e.Leads (Paces e.graph.HasEntry base s) (e.awaitFor s i w k) := by
  have hpush : Above e.graph.HasEntry base (.behavior i w k :: s.frames) := hf.push ⟨hi, hk⟩ (List.forall_mem_nil _)
  cases w with
  | pull port => exact leads_go rfl rfl rfl hpush trivial (List.forall_mem_nil _)
  | advance port =>
    simp only [Engine.awaitFor]
    split
    · exact leads_go rfl rfl rfl hf ⟨hi, hk _⟩ (List.forall_mem_nil _)
    · next p hp =>
      have hport : port ∈ Library.flowPorts := by
        obtain ⟨hfind, hexec⟩ := Option.filter_eq_some_iff.mp hp
        have hid : p.id = port := by simpa using List.find?_some hfind
        exact hid ▸ (Library.isExec_iff hi.mem (List.mem_of_find?_eq_some hfind)).mp hexec
      refine leads_go rfl rfl rfl (hf.push ?_ (List.forall_mem_nil _)) trivial fun id hid => ?_
      · exact ⟨⟨hi.mem, hi.plain⟩, hk⟩
      · exact Engine.clear_destinations hw i.node hport id hid
  | checkpoint => exact leads_park rfl rfl rfl hpush trivial (List.forall_mem_nil _)
  | sleep seconds =>
    simp only [Engine.awaitFor]
    split
    · exact leads_go rfl rfl rfl hf ⟨hi, hk _⟩ (List.forall_mem_nil _)
    · exact leads_park rfl rfl rfl hpush trivial (List.forall_mem_nil _)

theorem behave_bystands (hw : e.graph.Wired Library.registry) {i : Invocation} {script : Script} (hi : i.Modest)
    (hscript : script.Modest) :
    e.Leads (Paces e.graph.HasEntry base s) (e.behave s i script) := by
  cases hscript with
  | finish v =>
    refine leads_go ?_ rfl rfl hf hi (List.forall_mem_nil _)
    dsimp only
    split <;> rfl
  | fail err => exact failInvocation_bystands rfl i err rfl rfl hf
  | again state =>
    simp only [Engine.behave]
    split
    · next b hb => exact leads_go rfl rfl rfl hf ⟨hi, hi.behavior hb state⟩ (List.forall_mem_nil _)
    · exact failInvocation_bystands rfl i _ rfl rfl hf
  | @ask q k hq h =>
    refine leads_go ?_ rfl ?_ hf ⟨?_, h _⟩ (List.forall_mem_nil _)
    · cases q <;> rfl
    · cases q <;> rfl
    · obtain ⟨hmem, hplain⟩ := hi
      constructor
      · rw [perform_kind]
        exact hmem
      · rw [perform_kind]
        exact hplain
  | wait h => exact awaitFor_bystands hf hw hi h

theorem pullInput_bystands (node port : String) :
    e.Leads (Paces e.graph.HasEntry base s) (e.pullInput s node port) := by
  have hliteral : ∀ (p : Port) (v : Value),
      e.Leads (Paces e.graph.HasEntry base s) (e.go s (Engine.literalResult p v)) := by
    intro p v
    unfold Engine.literalResult
    split
    · exact leads_back rfl rfl rfl hf trivial
    · exact leads_raise rfl rfl rfl hf _
  have hcases := e.pullInput_cases s node port
  generalize e.pullInput s node port = t at hcases ⊢
  cases hcases with
  | unknown | portless | missing => exact leads_raise rfl rfl rfl hf _
  | wired => exact leads_go rfl rfl rfl hf trivial (List.forall_mem_nil _)
  | literal => exact hliteral _ _
  | null => exact leads_back rfl rfl rfl hf trivial

theorem pullOutput_bystands (hr : e.registry = Library.registry) (node port : String) :
    e.Leads (Paces e.graph.HasEntry base s) (e.pullOutput s node port) := by
  have hcases := e.pullOutput_cases s node port
  generalize e.pullOutput s node port = t at hcases ⊢
  cases hcases with
  | unknown | portless | unpublished | circular | deep => exact leads_raise rfl rfl rfl hf _
  | published => exact leads_back rfl rfl rfl hf trivial
  | current =>
    unfold Engine.outputResult
    split
    · exact leads_back rfl rfl rfl hf trivial
    · exact leads_raise rfl rfl rfl hf _
  | @runs n k hn _ hdata =>
    obtain ⟨-, -, hk, -⟩ := Engine.modest_of_nodeWithKind hr hn
    -- an interval or a listener does not only carry data
    have hplain : ¬Library.IsEntry k.id := fun hentry => by
      rw [Kind.dataOnly, (Library.traits_of_entry hk hentry).1] at hdata
      cases hdata
    have hframes : Above e.graph.HasEntry base (.output n.id port n.serial :: s.frames) :=
      hf.push trivial (List.forall_mem_nil _)
    have hcases := e.runForOutput_cases s n k port
    generalize e.runForOutput s n k port = t at hcases ⊢
    cases hcases with
    | hops =>
      exact leads_park rfl rfl rfl (hframes.push trivial (List.forall_mem_nil _)) ⟨hk, hplain⟩ (List.forall_mem_nil _)
    | nests => exact leads_go rfl rfl rfl hframes ⟨hk, hplain⟩ (List.forall_mem_nil _)

theorem continueFrom_bystands (hw : e.graph.Wired Library.registry) {i : Invocation}
    (hi : i.kind ∈ Library.registry.kinds) (v : Value) {rest : List String} (hrest : ∀ id ∈ rest, ¬e.graph.HasEntry id) :
    e.Leads (Paces e.graph.HasEntry base s) (e.continueFrom s i v rest) := by
  have hfollow (sc : Scope) (ht : sc.trigger = s.scope.trigger) {targets : List String}
      (htargets : ∀ id ∈ targets, ¬e.graph.HasEntry id) :
      e.Leads (Paces e.graph.HasEntry base s) (e.go { s with scope := sc } (.call (.walk (targets ++ rest)))) := by
    refine leads_go rfl rfl ht hf trivial fun id hid => ?_
    rcases List.mem_append.mp hid with hid | hid
    · exact htargets id hid
    · exact hrest id hid
  have hexit (port : String) :
      ∀ id ∈ (if i.advanced.contains port then [] else e.execTargets i.node i.kind (some port)),
        ¬e.graph.HasEntry id := by
    split
    · exact List.forall_mem_nil _
    · exact Engine.clear_execTargets hw i.node hi _
  unfold Engine.continueFrom
  dsimp only
  split
  · split
    · exact hfollow s.scope rfl (hexit _)
    · exact leads_raise (strands_report e s.scope i _) rfl rfl hf _
  · refine hfollow _ (trigger_publishAll i.node _ s.scope) ?_
    split
    · exact hexit _
    · exact List.forall_mem_nil _
  · refine hfollow s.scope rfl ?_
    split
    · exact hexit _
    · exact List.forall_mem_nil _

end Inside

theorem back_bystands (hw : e.graph.Wired Library.registry) {f : Frame} {fs : List Frame} {r : Result}
    (h : Bystands e.graph.HasEntry base ({ s with frames := f :: fs }, .turn (.back r))) (hne : f :: fs ≠ base) :
    e.Leads (Paces e.graph.HasEntry base s) (e.back { s with frames := fs } f r) := by
  obtain ⟨hmodest, hheads, hf⟩ := h.frames.pop hne
  have hback : ∀ r : Result, (Signal.back r).Modest →
      e.Leads (Paces e.graph.HasEntry base s) (e.go { s with frames := fs } (.back r)) :=
    fun r hr => .go rfl ⟨rfl, rfl, hf, hr, List.forall_mem_nil _⟩
  cases f with
  | behavior i w k =>
    obtain ⟨hi, hk⟩ := hmodest
    unfold Engine.back Engine.resumeBehavior
    dsimp only
    split <;> exact leads_go rfl rfl rfl hf ⟨⟨hi.mem, hi.plain⟩, hk _⟩ (List.forall_mem_nil _)
  | walk rest =>
    cases r with
    | invoked v i =>
      have hleads := continueFrom_bystands (s := { s with frames := fs }) hf hw h.parked.mem v hheads
      exact hleads.mono fun x hx => ⟨hx.id, hx.trigger, hx.bystands⟩
    | _ => exact leads_go rfl rfl rfl hf trivial hheads
  | output node port serial =>
    cases r with
    | invoked v i =>
      unfold Engine.back Engine.finishOutput Engine.outputResult
      dsimp only
      split <;> exact .go rfl ⟨rfl, rfl, hf, trivial, List.forall_mem_nil _⟩
    | _ => exact hback _ trivial
  | hop => exact leads_park rfl rfl rfl hf h.parked (List.forall_mem_nil _)
  | _ => exact hmodest.elim

theorem raise_bystands {f : Frame} {fs : List Frame} {err : Raised}
    (h : Bystands e.graph.HasEntry base ({ s with frames := f :: fs }, .turn (.raise err))) (hne : f :: fs ≠ base) :
    e.Leads (Paces e.graph.HasEntry base s) (e.raise { s with frames := fs } f err) := by
  obtain ⟨hmodest, hheads, hf⟩ := h.frames.pop hne
  cases f with
  | behavior i w k => exact leads_go rfl rfl rfl hf ⟨hmodest.1, hmodest.2 _⟩ (List.forall_mem_nil _)
  | walk | output => exact .go rfl ⟨rfl, rfl, hf, trivial, List.forall_mem_nil _⟩
  | hop => exact leads_park rfl rfl rfl hf trivial (List.forall_mem_nil _)
  | _ => exact hmodest.elim

/-- A modest signal carries out no command and sets up nothing. -/
theorem Signal.Modest.outlook (h : sig.Modest) (hask : ∀ i q k, sig ≠ .call (.behave i (.ask q k))) :
    (e.turn s sig).engine.outlook = e.outlook := by
  refine Engine.outlook_turn e s ?_ ?_ hask
  · rintro c (rfl | ⟨i, k, rfl⟩)
    · exact h
    · cases h.2
  · rintro node port seeds rfl
    exact h

/-- A turn of a strand that runs modest behaviours above some frames changes nothing of what nodes have and keep, and
the strand goes on so. -/
theorem Bystands.turn (hr : e.registry = Library.registry) (hw : e.graph.Wired Library.registry)
    (h : Bystands e.graph.HasEntry base (s, .turn sig)) (hne : sig.Ended → s.frames ≠ base) :
    e.Rests (e.turn s sig).engine ∧ e.Leads (Paces e.graph.HasEntry base s) (e.turn s sig) := by
  obtain ⟨id, sc, frames⟩ := s
  constructor
  · by_cases hask : ∃ i q k, sig = .call (.behave i (.ask q k))
    · obtain ⟨i, q, k, rfl⟩ := hask
      cases h.parked.2 with
      | ask hq _ => exact Engine.rests_perform e i sc hq
    · exact Engine.rests_of_outlook (h.parked.outlook fun i q k heq => hask ⟨i, q, k, heq⟩)
  · cases sig with
    | call c =>
      cases c with
      | walk agenda => exact walk_bystands h.frames hr hw h.heads
      | invoke i => exact invoke_bystands h.frames h.parked
      | behave i script => exact behave_bystands h.frames hw h.parked.1 h.parked.2
      | input node port => exact pullInput_bystands h.frames node port
      | output node port => exact pullOutput_bystands h.frames hr node port
      | _ => exact h.parked.elim
    | back r =>
      cases frames with
      | nil => exact .ended rfl
      | cons f fs => exact back_bystands (s := ⟨id, sc, f :: fs⟩) hw h (hne trivial)
    | raise err =>
      cases frames with
      | nil => exact .ended rfl
      | cons f fs => exact raise_bystands (s := ⟨id, sc, f :: fs⟩) h (hne trivial)

/-- A strand that is taken up goes on so. -/
theorem Bystands.unpark {p : Parked} (h : Bystands E base (s, p)) (e : Engine) :
    Bystands E base (s, .turn (e.unpark p).1) := by
  cases p with
  | turn sig => exact h
  | sleep id => exact ⟨h.frames, trivial, List.forall_mem_nil _⟩
  | task id =>
    simp only [Engine.unpark]
    split <;> exact ⟨h.frames, trivial, List.forall_mem_nil _⟩
  | gather id =>
    simp only [Engine.unpark]
    split <;> exact ⟨h.frames, trivial, List.forall_mem_nil _⟩

/-- It goes on so in a graph where what it has still to come to is no interval and no listener either. -/
theorem Bystands.mono {E' : String → Prop} {x : Strand × Parked} (h : Bystands E base x)
    (hclear : ∀ id ∈ headed x, ¬E' id) : Bystands E' base x := by
  obtain ⟨above, hf, habove⟩ := h.frames
  refine ⟨⟨above, hf, fun f hmem => ⟨(habove f hmem).1, fun id hid => ?_⟩⟩, h.parked, fun id hid => ?_⟩
  · refine hclear id (List.mem_append_left _ (List.mem_flatMap.mpr ⟨f, ?_, hid⟩))
    rw [hf]
    exact List.mem_append_left _ hmem
  · exact hclear id (List.mem_append_right _ hid)

end Turns

/-! ## Triggers that register nothing -/

/-- Whether a signal tells that a trigger of a node is over: with its result, of which `P` holds, or with an error. -/
def Signal.Yields (node : String) (P : TriggerResult → Prop) : Signal → Prop
  | .back (.response (.trigger r)) => r.origin = node ∧ P r
  | .raise _ => True
  | _ => False

theorem Signal.Yields.mono {node : String} {P Q : TriggerResult → Prop} {sig : Signal} (h : sig.Yields node P)
    (hPQ : ∀ r, r.origin = node → P r → Q r) : sig.Yields node Q := by
  unfold Signal.Yields at h ⊢
  split at h
  · exact ⟨h.1, hPQ _ h.1 h.2⟩
  · trivial
  · exact h.elim

theorem Signal.Yields.ended {node : String} {P : TriggerResult → Prop} {sig : Signal} (h : sig.Yields node P) :
    sig.Ended := by
  cases sig with
  | call c => exact h
  | back r => trivial
  | raise err => trivial

/-- Whether a trigger of a node that registers nothing is about to begin on a strand, over some frames, or runs there,
or is over. -/
inductive Bystander (E : String → Prop) (outer : List Frame) (node : String) (x : Strand × Parked) : Prop
  | begins {origin : Origin} {port : Option String} {seeds : Dict}
      (hp : x.2 = .turn (.call (.trigger node origin port seeds))) (hf : x.1.frames = outer)
      (harm : origin = .arm → port = none ∧ .session ∈ outer) (hnode : port = none → ¬E node)
      (hport : ∀ p, port = some p → p ∈ Library.flowPorts)
  | inside {origin : Origin} (h : Bystands E (.trigger node origin :: outer) x)
  | ends {sig : Signal} (hp : x.2 = .turn sig) (hf : x.1.frames = outer) (hyields : sig.Yields node fun _ => True)

/-- A node that is no interval and no listener is set up without a change. -/
theorem rests_armed {e : Engine} (hr : e.registry = Library.registry) (hw : e.graph.Wired Library.registry)
    (hkempt : e.Kempt) (hk : ∀ r ∈ e.scheduler.active none, r.event.hashable = true)
    (hplain : ∀ id, ¬e.graph.HasEntry id → e.owned id = []) {node : String} {origin : Origin}
    (hnode : origin = .arm → ¬e.graph.HasEntry node) : e.Rests (e.armed node origin).2 := by
  unfold Engine.armed
  split
  · next harm =>
    have hclear := hnode (by simpa using harm)
    unfold Graph.requireNode
    split
    · exact .refl e
    · next n hrequire =>
      have hn : e.graph.node? node = some n := by
        cases hfind : e.graph.node? node with
        | none =>
          rw [hfind] at hrequire
          cases hrequire
        | some m =>
          rw [hfind] at hrequire
          rw [Except.ok.inj hrequire]
      obtain ⟨hspares, howned, hmemo⟩ := Engine.spares_disarm hr hkempt hk hn
      rw [if_neg fun h => hclear ((Engine.hasEntry_iff hw.ids hn).mpr h)] at hmemo
      refine ⟨hspares.program, fun id => ?_, fun id => ?_, hspares.proper⟩
      · by_cases hid : id = node
        · rw [hid, howned, hplain node hclear]
        · exact hspares.owned id hid
      · by_cases hid : id = node
        · rw [hid, hmemo]
        · exact hspares.memo id hid
  · exact .refl e

theorem strands_disarm (e : Engine) (n : Node) : (e.disarm n).2.strands = e.strands := by
  unfold Engine.disarm
  split
  · rfl
  · unfold Engine.tearDown
    split <;> rfl

theorem strands_armed (e : Engine) (node : String) (origin : Origin) : (e.armed node origin).2.strands = e.strands := by
  unfold Engine.armed
  split
  · split
    · rfl
    · exact strands_disarm e _
  · rfl

section Triggers

variable {e : Engine} {s : Strand} {sig : Signal} {outer : List Frame} {node : String} {E : String → Prop}

/-- A turn of a strand in which a trigger runs that registers nothing changes nothing of what nodes have and keep. -/
theorem Bystander.turn (hr : e.registry = Library.registry) (hw : e.graph.Wired Library.registry) (hkempt : e.Kempt)
    (hk : ∀ r ∈ e.scheduler.active none, r.event.hashable = true)
    (hplain : ∀ id, ¬e.graph.HasEntry id → e.owned id = [])
    (h : Bystander e.graph.HasEntry outer node (s, .turn sig)) (hne : sig.Ended → s.frames ≠ outer) :
    e.Rests (e.turn s sig).engine ∧
      e.Leads (fun y => y.1.id = s.id ∧ Bystander e.graph.HasEntry outer node y) (e.turn s sig) := by
  cases h with
  | @begins origin port seeds hp hf harm hnode hport =>
    obtain rfl : sig = .call (.trigger node origin port seeds) := Parked.turn.inj hp
    show e.Rests (e.startTrigger s node origin port seeds).engine ∧ e.Leads _ (e.startTrigger s node origin port seeds)
    cases hrun : e.running with
    | false =>
      rw [Engine.startTrigger_refused hrun]
      exact ⟨Engine.rests_of_outlook rfl, .go rfl ⟨rfl, .ends rfl hf ⟨rfl, trivial⟩⟩⟩
    | true =>
      have hrests : e.Rests (e.freshScope.2.armed node origin).2 := by
        have hfresh : e.Rests e.freshScope.2 := Engine.rests_of_outlook rfl
        exact hfresh.trans (rests_armed (e := e.freshScope.2) hr hw ⟨hkempt.scheduler, hkempt.graph⟩ hk hplain fun h =>
          hnode (harm h).1)
      have hstrands : (e.freshScope.2.armed node origin).2.strands = e.strands := strands_armed _ node origin
      rw [Engine.startTrigger_eq e s node origin port seeds hrun]
      generalize e.freshScope.2.armed node origin = armed at hrests hstrands
      obtain ⟨result, e₁⟩ := armed
      cases result with
      | error err => exact ⟨hrests.trans (Engine.rests_of_outlook rfl), .go hstrands ⟨rfl, .ends rfl hf trivial⟩⟩
      | ok u =>
        have hframes : Above e.graph.HasEntry (.trigger node origin :: outer) (.trigger node origin :: s.frames) :=
          ⟨[], congrArg _ hf, List.forall_mem_nil _⟩
        refine ⟨hrests.trans (Engine.rests_of_outlook rfl), .go hstrands ⟨rfl, .inside ⟨hframes, trivial, ?_⟩⟩⟩
        · intro id hid
          cases port with
          | none =>
            obtain rfl := List.mem_singleton.mp hid
            exact hnode rfl
          | some p =>
            have hwired := Engine.wired_of_program hrests.program hw
            rw [← Engine.hasEntry_of_program hrests.program]
            exact Engine.clear_destinations hwired node (hport p rfl) id hid
  | @inside origin h =>
    -- the frame of the trigger is the lowest of the inside, and what returns to it leaves the trigger
    by_cases hover : sig.Ended ∧ s.frames = .trigger node origin :: outer
    · obtain ⟨hended, hf⟩ := hover
      cases sig with
      | call c => exact hended.elim
      | back r =>
        rw [Engine.turn_back hf]
        exact ⟨Engine.rests_of_outlook rfl, .go rfl ⟨rfl, .ends rfl rfl ⟨rfl, trivial⟩⟩⟩
      | raise err =>
        rw [Engine.turn_raise hf]
        cases err with
        | failure f => exact ⟨Engine.rests_of_outlook rfl, .go rfl ⟨rfl, .ends rfl rfl ⟨rfl, trivial⟩⟩⟩
        | fault f => exact ⟨Engine.rests_of_outlook rfl, .go rfl ⟨rfl, .ends rfl rfl trivial⟩⟩
        | mute f => exact ⟨Engine.rests_of_outlook rfl, .go rfl ⟨rfl, .ends rfl rfl trivial⟩⟩
    · obtain ⟨hrests, hleads⟩ := h.turn hr hw fun hended hf => hover ⟨hended, hf⟩
      exact ⟨hrests, hleads.mono fun y hy => ⟨hy.id, .inside hy.bystands⟩⟩
  | ends hp hf hyields =>
    obtain rfl := Parked.turn.inj hp
    exact absurd hf (hne hyields.ended)

/-- What the strand has in progress below the trigger. -/
theorem Bystander.suffix {x : Strand × Parked} (h : Bystander E outer node x) : outer <:+ x.1.frames := by
  cases h with
  | begins _ hf => exact hf ▸ List.suffix_rfl
  | inside h =>
    obtain ⟨above, hf, -⟩ := h.frames
    exact hf ▸ (List.suffix_cons _ outer).trans (List.suffix_append above _)
  | ends _ hf => exact hf ▸ List.suffix_rfl

/-- What the trigger is over with. -/
theorem Bystander.yields (h : Bystander E outer node (s, .turn sig)) (hf : s.frames = outer) (hended : sig.Ended) :
    sig.Yields node fun _ => True := by
  cases h with
  | begins hp =>
    obtain rfl := Parked.turn.inj hp
    exact hended.elim
  | inside h =>
    obtain ⟨above, hframes, -⟩ := h.frames
    have hlen := congrArg List.length (hframes.symm.trans hf)
    rw [List.length_append, List.length_cons] at hlen
    omega
  | ends hp _ hyields =>
    obtain rfl := Parked.turn.inj hp
    exact hyields

/-- What a behaviour does that the trigger runs. -/
theorem Bystander.behaves {i : Invocation} {script : Script}
    (h : Bystander E outer node (s, .turn (.call (.behave i script)))) : script.Modest := by
  cases h with
  | begins hp => cases hp
  | inside h => exact h.parked.2
  | ends hp _ hyields =>
    obtain rfl := Parked.turn.inj hp
    exact hyields.ended.elim

/-- The strand begins no request. -/
theorem Bystander.ne_request (h : Bystander E outer node (s, .turn sig)) (r : Request) : sig ≠ .call (.request r) := by
  rintro rfl
  cases h with
  | begins hp => cases hp
  | inside h => exact h.parked
  | ends hp _ hyields =>
    obtain rfl := Parked.turn.inj hp
    exact hyields.ended

/-- What the strand has still to come to. -/
theorem Bystander.clear {x : Strand × Parked} (h : Bystander E outer node x) (houter : outer.flatMap Frame.heads = []) :
    ∀ id ∈ headed x, ¬E id := by
  intro id hid
  rcases List.mem_append.mp hid with hid | hid
  · cases h with
    | begins _ hf | ends _ hf =>
      rw [hf, houter] at hid
      cases hid
    | inside h =>
      obtain ⟨above, hf, habove⟩ := h.frames
      obtain ⟨f, hmem, hid⟩ := List.mem_flatMap.mp hid
      rw [hf] at hmem
      rcases List.mem_append.mp hmem with hmem | hmem
      · exact (habove f hmem).2 id hid
      · rcases List.mem_cons.mp hmem with rfl | hmem
        · cases hid
        · have hin := List.mem_flatMap.mpr ⟨f, hmem, hid⟩
          rw [houter] at hin
          cases hin
  · cases h with
    | @begins origin port seeds hp hf harm hnode hport =>
      rw [hp] at hid
      cases port with
      | some p => cases origin <;> cases hid
      | none =>
        cases origin with
        | arm => cases hid
        | _ =>
          obtain rfl := List.mem_singleton.mp hid
          exact hnode rfl
    | inside h => exact h.heads id hid
    | @ends sig hp hf hyields =>
      rw [hp] at hid
      cases sig with
      | call c => exact hyields.ended.elim
      | back r => cases hid
      | raise err => cases hid

theorem Bystander.unpark {p : Parked} (h : Bystander E outer node (s, p)) (e : Engine) :
    Bystander E outer node (s, .turn (e.unpark p).1) := by
  cases h with
  | begins hp hf harm hnode hport =>
    obtain rfl : p = _ := hp
    exact .begins rfl hf harm hnode hport
  | inside h => exact .inside (h.unpark e)
  | ends hp hf hyields =>
    obtain rfl : p = _ := hp
    exact .ends rfl hf hyields

theorem Bystander.mono {E' : String → Prop} {x : Strand × Parked} (h : Bystander E outer node x)
    (hsession : .session ∉ outer) (hclear : ∀ id ∈ headed x, ¬E' id) : Bystander E' outer node x := by
  cases h with
  | @begins origin port seeds hp hf harm hnode hport =>
    refine .begins hp hf harm (fun hnone => hclear node (List.mem_append_right _ ?_)) hport
    subst hnone
    rw [hp]
    cases origin with
    | arm => exact absurd (harm rfl).2 hsession
    | _ => exact List.mem_singleton_self node
  | inside h => exact .inside (h.mono hclear)
  | ends hp hf hyields => exact .ends hp hf hyields

end Triggers

end Patchbay
