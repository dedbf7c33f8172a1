import Patchbay.Proofs.Bystanders

/-!
# Setting up intervals and listeners

An interval or a listener that is set up first loses what it had registered. Its behaviour then pulls one input,
which runs modest behaviours alone; registers something with what it got, or nothing for an empty name; keeps the
registration in its state; and is done. So a node never has more than one registration. The one it has it also keeps,
but for a moment, and unless the timer of an interval could not be set.

Contents:
* `Past`: what has happened in a session that explains what a node has.
* `Engine.Single`: a node has at most one registration, which it keeps.
* `Engine.Arranged`: an interval or a listener was set up without an error.
* `Enrols`: the stages of setting one up on a strand.

Results:
* `Enrols.turn`: what a turn of such a strand does.
-/

namespace Patchbay

/-! ## What a node has and keeps -/

/-- What has happened in a session so far. -/
structure Past where
  /-- in a trigger, a node has got a value for the name that it listens to -/
  heard : Nat → String → Value → Prop
  /-- a registration of a node could not be completed -/
  refused : String → Nat → Prop

/-- Whether all that has happened in one past has happened in another one. -/
structure Past.Before (P P' : Past) : Prop where
  heard : ∀ T id v, P.heard T id v → P'.heard T id v
  refused : ∀ id r, P.refused id r → P'.refused id r

theorem Past.Before.refl (P : Past) : P.Before P := ⟨fun _ _ _ h => h, fun _ _ h => h⟩

/-- Whether what happens at a turn has happened in a past. -/
structure Past.Notes (P : Past) (e : Engine) (s : Strand) (sig : Signal) : Prop where
  hears : ∀ i k fs v ds, sig = .back (.pulled v ds) → s.frames = .behavior i (.pull "name") k :: fs →
    P.heard s.scope.trigger i.node v
  refuses : ∀ i q k err r, sig = .call (.behave i (.ask q k)) → (e.perform i s.scope q).reply = .error err →
    (e.perform i s.scope q).engine.owned i.node = [r] → P.refused i.node r

namespace Engine

/-- The kind of the node with an id. -/
def kind? (e : Engine) (id : String) : Option String := (e.graph.node? id).map Node.kind

/-- A node has registered and keeps nothing. -/
def Bare (e : Engine) (id : String) : Prop := e.owned id = [] ∧ e.memo id = none

/-- A node has one registration, and keeps it. -/
def Has (e : Engine) (id : String) (r : Nat) : Prop := e.owned id = [r] ∧ e.memo id = some (.registration r)

/-- A node has at most one registration. It keeps the one that it has, unless this could not be completed. -/
inductive Single (P : Past) (e : Engine) (id : String) : Prop
  | bare (h : e.Bare id)
  | has {r : Nat} (h : e.Has id r)
  | refused {r : Nat} (h : P.refused id r) (howned : e.owned id = [r]) (hmemo : e.memo id = none)

/-- An interval has one registration and keeps it, and so does a listener that has got a name; one that has got an
empty name has and keeps nothing. -/
inductive Arranged (e : Engine) (heard : Value → Prop) (id : String) : Prop
  | ticks {r : Nat} (hkind : e.kind? id = some Library.interval.kind) (h : e.Has id r)
  | hears {r : Nat} {v : Value} (hkind : e.kind? id = some Library.listener.kind) (hv : v.truthy = true)
      (hheard : heard v) (h : e.Has id r)
  | ignores {v : Value} (hkind : e.kind? id = some Library.listener.kind) (hv : v.truthy = false) (hheard : heard v)
      (h : e.Bare id)

variable {e e' : Engine} {id : String} {P P' : Past}

theorem kind?_of_program (h : e'.program = e.program) (id : String) : e'.kind? id = e.kind? id := by
  have hbare (e : Engine) : (e.program.graph.node? id).map Node.kind = e.kind? id := by
    have hfind : e.program.graph.node? id = (e.graph.node? id).map Node.bare := Graph.node?_map fun _ => rfl
    rw [hfind, Option.map_map]
    rfl
  rw [← hbare, h, hbare]

theorem hasEntry_eq (h : e'.program = e.program) : e'.graph.HasEntry = e.graph.HasEntry :=
  funext fun id => propext (hasEntry_of_program h id)

/-- What a node has and keeps stays as it was. -/
structure Leaves (id : String) (e e' : Engine) : Prop where
  program : e'.program = e.program
  owned : e'.owned id = e.owned id
  memo : e'.memo id = e.memo id

theorem Rests.leaves (h : e.Rests e') (id : String) : Leaves id e e' := ⟨h.program, h.owned id, h.memo id⟩

theorem Spares.leaves {other : String} (h : e.Spares other e') (hne : id ≠ other) : Leaves id e e' :=
  ⟨h.program, h.owned id hne, h.memo id hne⟩

namespace Leaves

theorem bare (h : Leaves id e e') (hb : e.Bare id) : e'.Bare id := ⟨h.owned.trans hb.1, h.memo.trans hb.2⟩

theorem has (h : Leaves id e e') {r : Nat} (hh : e.Has id r) : e'.Has id r := ⟨h.owned.trans hh.1, h.memo.trans hh.2⟩

theorem single (h : Leaves id e e') (hP : P.Before P') (hs : e.Single P id) : e'.Single P' id := by
  cases hs with
  | bare hb => exact .bare (h.bare hb)
  | has hh => exact .has (h.has hh)
  | refused hr howned hmemo => exact .refused (hP.refused _ _ hr) (h.owned.trans howned) (h.memo.trans hmemo)

theorem arranged (h : Leaves id e e') {heard heard' : Value → Prop} (hheard : ∀ v, heard v → heard' v)
    (ha : e.Arranged heard id) : e'.Arranged heard' id := by
  have hkind := kind?_of_program h.program id
  cases ha with
  | ticks hk hh => exact .ticks (hkind.trans hk) (h.has hh)
  | hears hk hv hv' hh => exact .hears (hkind.trans hk) hv (hheard _ hv') (h.has hh)
  | ignores hk hv hv' hb => exact .ignores (hkind.trans hk) hv (hheard _ hv') (h.bare hb)

end Leaves

theorem Arranged.single {heard : Value → Prop} (h : e.Arranged heard id) : e.Single P id := by
  cases h with
  | ticks _ hh => exact .has hh
  | hears _ _ _ hh => exact .has hh
  | ignores _ _ _ hb => exact .bare hb

/-- An interval or a listener that is set up has and keeps nothing at first. -/
theorem armed_entry (hr : e.registry = Library.registry) (hw : e.graph.Wired Library.registry) (hkempt : e.Kempt)
    (hk : ∀ r ∈ e.scheduler.active none, r.event.hashable = true) (hentry : e.graph.HasEntry id) :
    ∃ e₁, e.armed id .arm = (.ok (), e₁) ∧ e.Spares id e₁ ∧ e₁.Bare id ∧ e₁.running = e.running ∧
      e₁.strands = e.strands := by
  have hsome : (e.graph.node? id).isSome = true := by
    obtain ⟨n, hn, hid, -⟩ := hentry
    exact List.find?_isSome.mpr ⟨n, hn, by simpa using hid⟩
  obtain ⟨n, hn⟩ := Option.isSome_iff_exists.mp hsome
  have harmed : e.armed id .arm = e.disarm n := by
    simp only [armed, Graph.requireNode, hn]
    rfl
  obtain ⟨hspares, howned, hmemo⟩ := spares_disarm hr hkempt hk hn
  rw [if_pos ((hasEntry_iff hw.ids hn).mp hentry)] at hmemo
  have hrunning := (Keeps.armed (P := fun _ => True) e id .arm).running
  have hstrands := strands_armed e id .arm
  rw [harmed] at hrunning hstrands
  exact ⟨(e.disarm n).2, harmed.trans (Prod.ext (disarm_ok hkempt.scheduler hk n) rfl), hspares, ⟨howned, hmemo⟩,
    hrunning, hstrands⟩

end Engine

theorem Library.behavior_of_entry {k : Kind Behavior} (hk : k ∈ registry.kinds) (he : IsEntry k.id) :
    ∃ b, k.behavior = some b := by
  have hall : ∀ k ∈ registry.kinds, IsEntry k.id → k.behavior.isSome = true := by decide +kernel
  exact Option.isSome_iff_exists.mp (hall k hk he)

/-- A behaviour that waits for an input goes on with a value. -/
theorem Sits.pulled {b : Book} {s : Strand} {i : Invocation} {port : String} {k : Except Raised Value → Script}
    {fs : List Frame} {r : Result} (hsits : Sits b (s, .turn (.back r)))
    (hf : s.frames = .behavior i (.pull port) k :: fs) :
    ∃ v ds, r = .pulled v ds := by
  obtain ⟨nodes, -, hfits⟩ := hsits.fits
  dsimp only at hfits
  rw [hf] at hfits
  have hstacked : ∀ {l as}, Stacked l (.behavior i (.pull port) k :: fs) nodes as → l = .value := by
    intro l as h
    cases h with
    | outer h => exact (h _ List.mem_cons_self).elim
    | pull => rfl
  cases hfits with
  | pulled => exact ⟨_, _, rfl⟩
  | answers h | walked h | woken h => cases hstacked h
  | invoked _ _ h => cases hstacked h

/-! ## Stages -/

/-- The invocation of an interval or a listener that is set up. -/
structure Enrolling (e : Engine) (id : String) (i : Invocation) : Prop where
  node : i.node = id
  runs : e.program.Runs i
  mem : i.kind ∈ Library.registry.kinds
  entry : Library.IsEntry i.kind.id
  kind : e.kind? id = some i.kind.id

theorem Enrolling.of_program {e e' : Engine} {id : String} {i : Invocation} (h : Enrolling e id i)
    (hp : e'.program = e.program) : Enrolling e' id i :=
  ⟨h.node, hp ▸ h.runs, h.mem, h.entry, (Engine.kind?_of_program hp id).trans h.kind⟩

/-- The frames of the trigger that sets up a node. -/
abbrev setting (id : String) (outer : List Frame) : List Frame := .trigger id .arm :: outer

/-- The behaviour of a node that was set up is done, and so is its trigger soon. -/
inductive Closes (id : String) (outer : List Frame) : List Frame → Signal → Prop
  | done {i : Invocation} (hauto : i.kind.autoContinue = false) :
      Closes id outer (.walk [] :: setting id outer) (.call (.behave i (.finish .null)))
  | invoked {i : Invocation} (hauto : i.kind.autoContinue = false) :
      Closes id outer (.walk [] :: setting id outer) (.back (.invoked .null i))
  | walks : Closes id outer (setting id outer) (.call (.walk []))
  | walked : Closes id outer (setting id outer) (.back .nothing)

/-- A node was not set up. -/
inductive Aborts (id : String) (outer : List Frame) : List Frame → Signal → Prop
  | fails {i : Invocation} {err : Raised} :
      Aborts id outer (.walk [] :: setting id outer) (.call (.behave i (.fail err)))
  | raises {err : Raised} : Aborts id outer (.walk [] :: setting id outer) (.raise err)
  | raised {err : Raised} : Aborts id outer (setting id outer) (.raise err)

theorem Closes.suffix {id : String} {outer fs : List Frame} {sig : Signal} (h : Closes id outer fs sig) :
    setting id outer <:+ fs := by
  cases h with
  | done | invoked => exact List.suffix_cons _ _
  | walks | walked => exact List.suffix_rfl

theorem Aborts.suffix {id : String} {outer fs : List Frame} {sig : Signal} (h : Aborts id outer fs sig) :
    setting id outer <:+ fs := by
  cases h with
  | fails | raises => exact List.suffix_cons _ _
  | raised => exact List.suffix_rfl

/-- The stages of a trigger that sets up an interval or a listener, on a strand above some frames. -/
inductive Enrols (P : Past) (e : Engine) (id : String) (outer : List Frame) (x : Strand × Parked) : Prop
  | begins (hf : x.1.frames = outer) (hp : x.2 = .turn (.call (.trigger id .arm none []))) (hone : e.Single P id)
  | walks (hf : x.1.frames = setting id outer) (hp : x.2 = .turn (.call (.walk [id]))) (hrun : e.running = true)
      (hbare : e.Bare id)
  | invokes {i : Invocation} (hf : x.1.frames = .walk [] :: setting id outer) (hp : x.2 = .turn (.call (.invoke i)))
      (hi : Enrolling e id i) (hbare : e.Bare id)
  | opens {i : Invocation} {script : Script} (hf : x.1.frames = .walk [] :: setting id outer)
      (hp : x.2 = .turn (.call (.behave i script))) (hi : Enrolling e id i) (hscript : script.Opens i.kind.id)
      (hbare : e.Bare id)
  | pulls {i : Invocation} {port : String} {k : Except Raised Value → Script}
      (h : Bystands e.graph.HasEntry (.behavior i (.pull port) k :: .walk [] :: setting id outer) x)
      (hi : Enrolling e id i) (herr : ∀ err, ∃ err', k (.error err) = .fail err')
      (hanswers : ∀ v, (k (.ok v)).Answers i.kind.id port v) (hbare : e.Bare id)
  | asks {i : Invocation} {script : Script} (hf : x.1.frames = .walk [] :: setting id outer)
      (hp : x.2 = .turn (.call (.behave i script))) (hi : Enrolling e id i) (hscript : script.Asks)
      (hname : i.kind.id = Library.listener.kind → ∃ v, v.truthy = true ∧ P.heard x.1.scope.trigger id v)
      (hbare : e.Bare id)
  | pledges {i : Invocation} {script : Script} {r : Nat} (hf : x.1.frames = .walk [] :: setting id outer)
      (hp : x.2 = .turn (.call (.behave i script))) (hi : Enrolling e id i) (hscript : script.Pledges r)
      (hname : i.kind.id = Library.listener.kind → ∃ v, v.truthy = true ∧ P.heard x.1.scope.trigger id v)
      (howned : e.owned id = [r]) (hmemo : e.memo id = none)
  | closes {sig : Signal} (hp : x.2 = .turn sig) (h : Closes id outer x.1.frames sig)
      (harranged : e.Arranged (P.heard x.1.scope.trigger id) id)
  | fails {sig : Signal} (hp : x.2 = .turn sig) (h : Aborts id outer x.1.frames sig) (hone : e.Single P id)
  | ends {sig : Signal} (hf : x.1.frames = outer) (hp : x.2 = .turn sig)
      (hyields : sig.Yields id fun r => r.status = .ok → e.Arranged (P.heard r.trigger id) id) (hone : e.Single P id)

/-- Whether the strand that has the next turn is about to keep the only registration of a node. -/
def Engine.Turn.Pledges (t : Engine.Turn) (id : String) : Prop :=
  ∃ s i script r, t.next = some (s, .call (.behave i script)) ∧ i.node = id ∧ script.Pledges r ∧
    t.engine.owned id = [r] ∧ t.engine.memo id = none

namespace Enrols

variable {e e' : Engine} {id : String} {outer : List Frame} {P P' : Past} {s : Strand}

/-- It is at the same stage after a change of something else. -/
theorem leaves {x : Strand × Parked} (h : Enrols P e id outer x) (hl : Engine.Leaves id e e') (hP : P.Before P')
    (hrun : e.running = true → e'.running = true) : Enrols P' e' id outer x := by
  have hheard : ∀ {T v}, P.heard T id v → P'.heard T id v := fun h => hP.heard _ _ _ h
  cases h with
  | begins hf hp hone => exact .begins hf hp (hl.single hP hone)
  | walks hf hp hr hbare => exact .walks hf hp (hrun hr) (hl.bare hbare)
  | invokes hf hp hi hbare => exact .invokes hf hp (hi.of_program hl.program) (hl.bare hbare)
  | opens hf hp hi hscript hbare => exact .opens hf hp (hi.of_program hl.program) hscript (hl.bare hbare)
  | pulls h hi herr hanswers hbare =>
    rw [← Engine.hasEntry_eq hl.program] at h
    exact .pulls h (hi.of_program hl.program) herr hanswers (hl.bare hbare)
  | asks hf hp hi hscript hname hbare =>
    exact .asks hf hp (hi.of_program hl.program) hscript
      (fun hk => (hname hk).imp fun v hv => ⟨hv.1, hheard hv.2⟩) (hl.bare hbare)
  | pledges hf hp hi hscript hname howned hmemo =>
    exact .pledges hf hp (hi.of_program hl.program) hscript
      (fun hk => (hname hk).imp fun v hv => ⟨hv.1, hheard hv.2⟩) (hl.owned.trans howned) (hl.memo.trans hmemo)
  | closes hp h harranged => exact .closes hp h (hl.arranged (fun v => hheard) harranged)
  | fails hp h hone => exact .fails hp h (hl.single hP hone)
  | @ends sig hf hp hyields hone =>
    refine .ends hf hp ?_ (hl.single hP hone)
    cases sig with
    | call c => exact hyields
    | raise err => trivial
    | back r =>
      cases r with
      | response r =>
        cases r with
        | trigger r => exact ⟨hyields.1, fun hok => hl.arranged (fun v => hheard) (hyields.2 hok)⟩
        | _ => exact hyields
      | _ => exact hyields

/-- The trigger has not begun, or is over, or it is in progress. -/
theorem inside {x : Strand × Parked} (h : Enrols P e id outer x) :
    (x.1.frames = outer ∧ ∀ sig, x.2 = .turn sig → sig.Ended →
      sig.Yields id fun r => r.status = .ok → e.Arranged (P.heard r.trigger id) id) ∨
        setting id outer <:+ x.1.frames := by
  cases h with
  | begins hf hp =>
    refine .inl ⟨hf, fun sig hsig hended => ?_⟩
    rw [hp] at hsig
    cases hsig
    exact hended.elim
  | ends hf hp hyields =>
    refine .inl ⟨hf, fun sig hsig _ => ?_⟩
    rw [hp] at hsig
    cases hsig
    exact hyields
  | walks hf => exact .inr (hf ▸ List.suffix_rfl)
  | invokes hf | opens hf | asks hf | pledges hf => exact .inr (hf ▸ List.suffix_cons _ _)
  | pulls h =>
    obtain ⟨above, hf, -⟩ := h.frames
    have hinner : setting id outer <:+ .walk [] :: setting id outer := List.suffix_cons _ _
    exact .inr (hf ▸ (hinner.trans (List.suffix_cons _ _)).trans (List.suffix_append above _))
  | closes _ h => exact .inr h.suffix
  | fails _ h => exact .inr h.suffix

/-- What the strand has in progress below the trigger. -/
theorem suffix {x : Strand × Parked} (h : Enrols P e id outer x) : outer <:+ x.1.frames :=
  h.inside.elim (fun h => h.1 ▸ List.suffix_rfl) (List.suffix_cons _ outer).trans

/-- What the trigger is over with. -/
theorem yields {sig : Signal} (h : Enrols P e id outer (s, .turn sig)) (hf : s.frames = outer) (hended : sig.Ended) :
    sig.Yields id fun r => r.status = .ok → e.Arranged (P.heard r.trigger id) id := by
  rcases h.inside with ⟨-, hyields⟩ | hsuffix
  · exact hyields sig rfl hended
  · have hlen := hsuffix.length_le
    rw [hf, List.length_cons] at hlen
    exact absurd hlen (by omega)

/-- What a behaviour does that the trigger runs: that of the node, or a modest one. -/
theorem behaves {i : Invocation} {script : Script} (h : Enrols P e id outer (s, .turn (.call (.behave i script)))) :
    script.Modest ∨ i.node = id ∧ ∀ c k, script ≠ .edit c k := by
  cases h with
  | begins _ hp | walks _ hp | invokes _ hp => cases hp
  | opens _ hp hi hscript =>
    cases hp
    obtain ⟨port, k, rfl, -⟩ := hscript
    exact .inr ⟨hi.node, fun _ _ h => nomatch h⟩
  | pulls h => exact .inl h.parked.2
  | asks _ hp hi hscript =>
    cases hp
    exact .inr ⟨hi.node, fun _ _ h => by cases hscript <;> cases h⟩
  | pledges _ hp hi hscript =>
    cases hp
    obtain ⟨k, rfl, -⟩ := hscript
    exact .inr ⟨hi.node, fun _ _ h => nomatch h⟩
  | closes hp h =>
    cases hp
    generalize s.frames = fs at h
    cases h with
    | done => exact .inl (.finish .null)
  | fails hp h =>
    cases hp
    generalize s.frames = fs at h
    cases h with
    | fails => exact .inl (.fail _)
  | ends _ hp hyields =>
    cases hp
    exact hyields.ended.elim

/-- It is at the same stage when it is taken up. -/
theorem unpark {p : Parked} (h : Enrols P e id outer (s, p)) (e₁ : Engine) :
    Enrols P e id outer (s, .turn (e₁.unpark p).1) := by
  cases p with
  | turn sig => exact h
  | _ =>
    cases h with
    | pulls h hi herr hanswers hbare => exact .pulls (h.unpark e₁) hi herr hanswers hbare
    | begins _ hp | walks _ hp | invokes _ hp | opens _ hp | asks _ hp | pledges _ hp | closes hp | fails hp
    | ends _ hp => cases hp

end Enrols

/-! ## Turns -/

/-- What a turn of a strand that sets up a node does: it changes nothing of what others have and keep, the node has at
most one registration or is about to keep it, and the strand goes on to the next stage. -/
structure Enlists (P : Past) (e : Engine) (s : Strand) (id : String) (outer : List Frame) (t : Engine.Turn) : Prop where
  spares : e.Spares id t.engine
  single : t.engine.Single P id ∨ t.Pledges id
  leads : e.Leads (fun y => y.1.id = s.id ∧ Enrols P t.engine id outer y) t

section Turns

variable {e e' : Engine} {id : String} {outer : List Frame} {P : Past} {s s' : Strand} {sig : Signal}

/-- A turn that changes nothing of what nodes have and keep. -/
theorem Enlists.go (hs : s'.id = s.id) (ho : e'.outlook = e.outlook) (hstrands : e'.strands = e.strands)
    (hone : e.Single P id) (h : Engine.Leaves id e e' → Enrols P e' id outer (s', .turn sig)) :
    Enlists P e s id outer (e'.go s' sig) := by
  have hrests := Engine.rests_of_outlook ho
  exact ⟨hrests.spares id, .inl ((hrests.leaves id).single (.refl P) hone), .go hstrands ⟨hs, h (hrests.leaves id)⟩⟩

theorem startTrigger_enlists (hr : e.registry = Library.registry) (hw : e.graph.Wired Library.registry)
    (hkempt : e.Kempt) (hk : ∀ r ∈ e.scheduler.active none, r.event.hashable = true) (hentry : e.graph.HasEntry id)
    (hf : s.frames = outer) (hone : e.Single P id) :
    Enlists P e s id outer (e.startTrigger s id .arm none []) := by
  cases hrun : e.running with
  | false =>
    rw [Engine.startTrigger_refused hrun]
    exact .go rfl rfl rfl hone fun hl => .ends hf rfl ⟨rfl, fun h => nomatch h⟩ (hl.single (.refl P) hone)
  | true =>
    obtain ⟨e₁, harmed, hspares, hbare, hrun₁, hstrands⟩ :=
      Engine.armed_entry (e := e.freshScope.2) hr hw ⟨hkempt.scheduler, hkempt.graph⟩ hk hentry
    rw [Engine.startTrigger_eq e s id .arm none [] hrun, harmed]
    exact ⟨⟨hspares.program, hspares.owned, hspares.memo, hspares.proper⟩, .inl (.bare hbare),
      .go hstrands ⟨rfl, .walks (congrArg _ hf) rfl (hrun₁.trans hrun) hbare⟩⟩

theorem walk_enlists (hr : e.registry = Library.registry) (hw : e.graph.Wired Library.registry)
    (hentry : e.graph.HasEntry id) (hf : s.frames = setting id outer) (hrun : e.running = true)
    (hbare : e.Bare id) : Enlists P e s id outer (e.walk s [id]) := by
  have hone : e.Single P id := .bare hbare
  unfold Engine.walk
  simp only [hrun, Bool.not_true, Bool.false_eq_true, if_false]
  split
  · exact .go rfl rfl rfl hone fun hl => .fails rfl (hf ▸ .raised) (.bare hbare)
  · next n k hn =>
    obtain ⟨-, -, hmem, hkind⟩ := Engine.modest_of_nodeWithKind hr hn
    have hfind := Engine.node?_of_nodeWithKind hn
    have he : Library.IsEntry k.id := hkind ▸ (Engine.hasEntry_iff hw.ids hfind).mp hentry
    obtain ⟨b, hb⟩ := Library.behavior_of_entry hmem he
    have hi : Enrolling e id { serial := n.serial, node := id, kind := k, mode := .exec } :=
      ⟨rfl, Engine.runs_of_nodeWithKind rfl hn .exec, hmem, he, by rw [Engine.kind?, hfind, Option.map_some, hkind]⟩
    simp only [hb]
    exact .go rfl rfl rfl hone fun hl => .invokes (congrArg _ hf) rfl hi hbare

/-- What the node asks for is registered, or it is not set up. -/
theorem registering_enlists {result : Except Fault Nat} {sched : Scheduler Firing Job}
    (hreg : Engine.Registered e.scheduler id result sched) {i : Invocation} {k : Except Raised Nat → Script}
    (hf : s.frames = .walk [] :: setting id outer) (hi : Enrolling e id i)
    (herr : ∀ err, ∃ err', k (.error err) = .fail err') (hpledges : ∀ r, (k (.ok r)).Pledges r)
    (hname : i.kind.id = Library.listener.kind → ∃ v, v.truthy = true ∧ P.heard s.scope.trigger id v)
    (hbare : e.Bare id) (hrefused : ∀ err r, Fault.lift result = .error err → sched.ownedBy id = [r] → P.refused id r) :
    Enlists P e s id outer ({ e with scheduler := sched }.go s (.call (.behave i (k (Fault.lift result))))) := by
  have hspares : e.Spares id { e with scheduler := sched } := hreg.spares
  cases result with
  | ok r =>
    have howned : sched.ownedBy id = [r] := by
      have hnone : e.scheduler.ownedBy id = [] := hbare.1
      rw [hreg.ok r rfl, hnone]
      rfl
    exact ⟨hspares, .inr ⟨s, i, _, r, rfl, hi.node, hpledges r, howned, hbare.2⟩,
      .go rfl ⟨rfl, .pledges hf rfl (hi.of_program hspares.program) (hpledges r) hname howned hbare.2⟩⟩
  | error f =>
    obtain ⟨err', hfail⟩ := herr (.fault f)
    have hone : Engine.Single P { e with scheduler := sched } id := by
      have hnone : e.scheduler.ownedBy id = [] := hbare.1
      rcases hreg.error f rfl with heq | ⟨r, heq⟩
      · exact .bare ⟨heq.trans hnone, hbare.2⟩
      · have howned : sched.ownedBy id = [r] := by
          rw [heq, hnone]
          rfl
        exact .refused (hrefused _ r rfl howned) howned hbare.2
    refine ⟨hspares, .inl hone, .go rfl ⟨rfl, ?_⟩⟩
    show Enrols _ _ _ _ (s, .turn (.call (.behave i (k (.error (.fault f))))))
    rw [hfail]
    exact .fails rfl (hf ▸ .fails) hone

/-- The registration of the node is kept. -/
theorem keep_enlists (hkempt : e.Kempt) {i : Invocation} {r : Nat} {k : Except Raised Unit → Script}
    (hf : s.frames = .walk [] :: setting id outer) (hi : Enrolling e id i) (hk : k (.ok ()) = .finish .null)
    (hname : i.kind.id = Library.listener.kind → ∃ v, v.truthy = true ∧ P.heard s.scope.trigger id v)
    (howned : e.owned id = [r]) :
    Enlists P e s id outer (e.behave s i (.ask (.keep Library.registrationKey (.registration r)) k)) := by
  obtain rfl := hi.node
  obtain ⟨hspares, hmemo⟩ := Engine.spares_pledge hi.runs hkempt s.scope (.registration r)
  let e' : Engine := (e.perform i s.scope (.keep Library.registrationKey (.registration r))).engine
  have hhas : e'.Has i.node r := ⟨howned, hmemo⟩
  have hkind : e'.kind? i.node = some i.kind.id := (Engine.kind?_of_program hspares.program i.node).trans hi.kind
  have harranged : e'.Arranged (P.heard s.scope.trigger i.node) i.node := by
    rcases hi.entry with hentry | hentry
    · exact .ticks (hkind.trans (congrArg some hentry)) hhas
    · obtain ⟨v, hv, hheard⟩ := hname hentry
      exact .hears (hkind.trans (congrArg some hentry)) hv hheard hhas
  show Enlists P e s i.node outer (e'.go s (.call (.behave i (k (.ok ())))))
  rw [hk]
  refine ⟨hspares, .inl (.has hhas), .go rfl ⟨rfl, .closes rfl ?_ harranged⟩⟩
  exact hf ▸ .done (Library.traits_of_entry hi.mem hi.entry).2.1

/-- The node goes on with the value of its input. -/
theorem answer_enlists {i : Invocation} {port : String} {k : Except Raised Value → Script} {v : Value}
    {ds : Dependencies} (hf : s.frames = .behavior i (.pull port) k :: .walk [] :: setting id outer)
    (hi : Enrolling e id i) (hanswers : (k (.ok v)).Answers i.kind.id port v) (hbare : e.Bare id)
    (hnotes : P.Notes e s (.back (.pulled v ds))) :
    Enlists P e s id outer (e.turn s (.back (.pulled v ds))) := by
  obtain rfl := hi.node
  have hi' : Enrolling e i.node { i with dependencies := i.dependencies.merge ds } :=
    ⟨rfl, hi.runs, hi.mem, hi.entry, hi.kind⟩
  have hheard : port = "name" → P.heard s.scope.trigger i.node v := by
    rintro rfl
    exact hnotes.hears i k _ v ds rfl hf
  rw [Engine.turn_back hf]
  show Enlists P e s i.node outer (e.go { s with frames := .walk [] :: setting i.node outer }
    (.call (.behave { i with dependencies := i.dependencies.merge ds } (k (.ok v)))))
  generalize k (.ok v) = script at hanswers
  refine .go rfl rfl rfl (.bare hbare) fun _ => ?_
  cases hanswers with
  | ticks hkind hasks => exact .asks rfl rfl hi' hasks (fun h => absurd (hkind.symm.trans h) (by decide)) hbare
  | hears hkind hport hv hasks => exact .asks rfl rfl hi' hasks (fun _ => ⟨v, hv, hheard hport⟩) hbare
  | ignores hkind hport hv =>
    refine .closes rfl (.done (Library.traits_of_entry hi.mem hi.entry).2.1) ?_
    exact .ignores (hi.kind.trans (congrArg some hkind)) hv (hheard hport) hbare
  | fails err => exact .fails rfl .fails (.bare hbare)

/-- The trigger of a node that was set up, when its behaviour is done. -/
theorem closes_enlists (h : Closes id outer s.frames sig)
    (harranged : e.Arranged (P.heard s.scope.trigger id) id) : Enlists P e s id outer (e.turn s sig) := by
  obtain ⟨sid, sc, frames⟩ := s
  have hone : e.Single P id := harranged.single
  cases h with
  | @done i hauto =>
    refine .go rfl (Engine.outlook_finishInvocation e _ i .null) ?_ hone fun hl => ?_
    · dsimp only
      split <;> rfl
    · exact .closes rfl (.invoked hauto) (hl.arranged (fun _ h => h) harranged)
  | @invoked i hauto =>
    have hexit : Engine.defaultExit i = none := by simp [Engine.defaultExit, hauto]
    show Enlists P e _ id outer (e.continueFrom _ i .null [])
    simp only [Engine.continueFrom, hexit, List.append_nil]
    exact .go rfl rfl rfl hone fun hl => .closes rfl .walks (hl.arranged (fun _ h => h) harranged)
  | walks => exact .go rfl rfl rfl hone fun hl => .closes rfl .walked (hl.arranged (fun _ h => h) harranged)
  | walked =>
    exact .go rfl rfl rfl hone fun hl =>
      .ends rfl rfl ⟨rfl, fun _ => hl.arranged (fun _ h => h) harranged⟩ (hl.single (.refl P) hone)

/-- The trigger of a node that was not set up. -/
theorem aborts_enlists (h : Aborts id outer s.frames sig) (hone : e.Single P id) :
    Enlists P e s id outer (e.turn s sig) := by
  obtain ⟨sid, sc, frames⟩ := s
  cases h with
  | @fails i err =>
    show Enlists P e _ id outer (e.failInvocation _ i err)
    rw [Engine.failInvocation_eq]
    split
    · exact .go rfl rfl rfl hone fun hl => .fails rfl .raises (hl.single (.refl P) hone)
    · exact .go rfl (Engine.outlook_report e sc i _) rfl hone fun hl => .fails rfl .raises (hl.single (.refl P) hone)
  | raises => exact .go rfl rfl rfl hone fun hl => .fails rfl .raised (hl.single (.refl P) hone)
  | @raised err =>
    cases err with
    | failure f =>
      exact .go rfl rfl rfl hone fun hl => .ends rfl rfl ⟨rfl, fun h => nomatch h⟩ (hl.single (.refl P) hone)
    | fault f => exact .go rfl rfl rfl hone fun hl => .ends rfl rfl trivial (hl.single (.refl P) hone)
    | mute f => exact .go rfl rfl rfl hone fun hl => .ends rfl rfl trivial (hl.single (.refl P) hone)

/-- What a turn of a strand does that sets up an interval or a listener, until the trigger is over. -/
theorem Enrols.turn (hr : e.registry = Library.registry) (hw : e.graph.Wired Library.registry) (hkempt : e.Kempt)
    (hk : ∀ r ∈ e.scheduler.active none, r.event.hashable = true) (hentry : e.graph.HasEntry id)
    (hnotes : P.Notes e s sig) (hsits : ∃ b, Sits b (s, .turn sig)) (h : Enrols P e id outer (s, .turn sig))
    (hne : sig.Ended → s.frames ≠ outer) : Enlists P e s id outer (e.turn s sig) := by
  cases h with
  | begins hf hp hone =>
    obtain rfl := Parked.turn.inj hp
    exact startTrigger_enlists hr hw hkempt hk hentry hf hone
  | walks hf hp hrun hbare =>
    obtain rfl := Parked.turn.inj hp
    exact walk_enlists hr hw hentry hf hrun hbare
  | @invokes i hf hp hi hbare =>
    obtain rfl := Parked.turn.inj hp
    obtain ⟨b, hb⟩ := Library.behavior_of_entry hi.mem hi.entry
    show Enlists P e s id outer (e.invoke s i)
    simp only [Engine.invoke, hb]
    exact .go rfl rfl rfl (.bare hbare) fun hl =>
      .opens hf rfl (hi.of_program hl.program) (Library.opens_of_mem hi.mem hi.entry hb .null) (hl.bare hbare)
  | opens hf hp hi hscript hbare =>
    obtain rfl := Parked.turn.inj hp
    obtain ⟨port, k, rfl, herr, hanswers⟩ := hscript
    refine .go rfl rfl rfl (.bare hbare) fun hl => ?_
    exact .pulls ⟨⟨[], congrArg _ hf, fun _ h => nomatch h⟩, trivial, fun _ h => nomatch h⟩ (hi.of_program hl.program)
      herr hanswers (hl.bare hbare)
  | @pulls i port k h hi herr hanswers hbare =>
    -- until the pull has its answer the strand is a bystander; the answer decides what is set up
    by_cases hover : sig.Ended ∧ s.frames = .behavior i (.pull port) k :: .walk [] :: setting id outer
    · obtain ⟨hended, hf⟩ := hover
      cases sig with
      | call c => exact hended.elim
      | back r =>
        obtain ⟨b, hb⟩ := hsits
        obtain ⟨v, ds, rfl⟩ := hb.pulled hf
        exact answer_enlists hf hi (hanswers v) hbare hnotes
      | raise err =>
        obtain ⟨err', hfail⟩ := herr err
        rw [Engine.turn_raise hf]
        show Enlists P e s id outer (e.go _ (.call (.behave i (k (.error err)))))
        rw [hfail]
        exact .go rfl rfl rfl (.bare hbare) fun hl => .fails rfl .fails (.bare (hl.bare hbare))
    · obtain ⟨hrests, hleads⟩ := h.turn hr hw fun hended hf => hover ⟨hended, hf⟩
      have hl := hrests.leaves id
      refine ⟨hrests.spares id, .inl (.bare (hl.bare hbare)), hleads.mono fun y hy => ⟨hy.id, ?_⟩⟩
      refine .pulls ?_ (hi.of_program hl.program) herr hanswers (hl.bare hbare)
      rw [Engine.hasEntry_eq hl.program]
      exact hy.bystands
  | @asks i script hf hp hi hscript hname hbare =>
    obtain rfl := Parked.turn.inj hp
    obtain rfl := hi.node
    cases hscript with
    | @every seconds k herr h =>
      exact registering_enlists (Engine.registered_every e.scheduler i.node seconds ⟨i.node, execPort, .tick⟩ rfl) hf hi
        herr h hname hbare fun err r => hnotes.refuses i (.every seconds execPort) k err r rfl
    | @listen event k herr h =>
      exact registering_enlists
        (Engine.registered_listen e.scheduler i.node event ⟨i.node, execPort, .payload⟩ rfl) hf hi
        herr h hname hbare fun err r => hnotes.refuses i (.listen event execPort) k err r rfl
  | @pledges i script r hf hp hi hscript hname howned hmemo =>
    obtain rfl := Parked.turn.inj hp
    obtain ⟨k, rfl, hk'⟩ := hscript
    exact keep_enlists hkempt hf hi hk' hname howned
  | closes hp h harranged =>
    obtain rfl := Parked.turn.inj hp
    exact closes_enlists h harranged
  | fails hp h hone =>
    obtain rfl := Parked.turn.inj hp
    exact aborts_enlists h hone
  | ends hf hp hyields hone =>
    obtain rfl := Parked.turn.inj hp
    exact absurd hf (hne hyields.ended)

end Turns

end Patchbay
