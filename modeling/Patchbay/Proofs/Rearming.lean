import Patchbay.Proofs.Editors
import Patchbay.Proofs.Stepping

/-!
# Setting up again never stacks

In a session of builtin kinds in which listeners wait for names, and each run and step is over before the next call,
no node ever has more than one registration: setting up an interval or a listener again replaces what it had. Two
kinds of nodes are left out, which control flow comes to by ways on which nothing is cancelled: those that a run starts
from, and those that take the id of a node that a trigger in flight has still to reach.

Contents:
* `Engine.Turn.callers`: the strands of calls that are in progress.
* `pastOf`: what has happened in the first states of a run.
* `Kept`: the invariant of such sessions.
* `Conducted`: the sessions.

Results:
* `kept_run`: the invariant holds in every state.
* `rearming_never_stacks`: what nodes have registered and keep, and what runs and steps leave.
-/

namespace Patchbay

/-! ## Calls -/

/-- Whether a frame is that of an editor's call. -/
def Frame.isSession : Frame → Bool
  | .session => true
  | _ => false

/-- The strands of calls that are in progress. -/
def Engine.Turn.callers (t : Engine.Turn) : List (Strand × Parked) :=
  t.population.filter fun x => x.1.frames.any Frame.isSession

/-- The request that begins at a turn. -/
def Engine.Turn.request? (t : Engine.Turn) : Option Request :=
  match t.next with
  | some (_, .call (.request r)) => some r
  | _ => none

theorem Engine.Turn.request?_of_next {t : Engine.Turn} {s : Strand} {r : Request}
    (h : t.next = some (s, .call (.request r))) : t.request? = some r := by
  rw [request?, h]

/-- While a call is in progress, no other strand is that of a call. -/
theorem Engine.Turn.alone {t : Engine.Turn} (h : t.callers.length ≤ 1) {s : Strand} {sig : Signal}
    (hn : t.next = some (s, sig)) (hs : .session ∈ s.frames) : ∀ x ∈ t.engine.strands, .session ∉ x.1.frames := by
  intro x hx hsession
  have hany : ∀ fs : List Frame, .session ∈ fs → fs.any Frame.isSession = true :=
    fun fs hfs => List.any_eq_true.mpr ⟨.session, hfs, rfl⟩
  have hrest : 0 < (t.engine.strands.filter fun x => x.1.frames.any Frame.isSession).length :=
    List.length_pos_of_mem (List.mem_filter.mpr ⟨hx, hany _ hsession⟩)
  rw [callers, Engine.Turn.population_of_next hn, List.filter_cons, if_pos (hany _ hs), List.length_cons] at h
  omega

/-! ## What has happened -/

/-- What has happened in the first states of a run: the values that nodes got for their names, and the registrations
that a behaviour had asked for and was refused, but that its node had all the same. -/
def pastOf (run : Nat → Engine.Turn) (k : Nat) : Past where
  heard T id v := ∃ j < k, ∃ s i c fs ds, (run j).next = some (s, .back (.pulled v ds)) ∧
    s.frames = .behavior i (.pull "name") c :: fs ∧ i.node = id ∧ s.scope.trigger = T
  refused id r := ∃ j < k, ∃ s i q c err, (run j).next = some (s, .call (.behave i (.ask q c))) ∧ i.node = id ∧
    ((run j).engine.perform i s.scope q).reply = .error err ∧
    ((run j).engine.perform i s.scope q).engine.owned id = [r]

theorem pastOf_before (run : Nat → Engine.Turn) {k k' : Nat} (h : k ≤ k') : (pastOf run k).Before (pastOf run k') where
  heard _ _ _ := fun ⟨j, hj, hheard⟩ => ⟨j, hj.trans_le h, hheard⟩
  refused _ _ := fun ⟨j, hj, hrefused⟩ => ⟨j, hj.trans_le h, hrefused⟩

theorem pastOf_notes {run : Nat → Engine.Turn} {k : Nat} {s : Strand} {sig : Signal}
    (hn : (run k).next = some (s, sig)) : (pastOf run (k + 1)).Notes (run k).engine s sig where
  hears i c fs v ds hsig hf := by
    subst hsig
    exact ⟨k, Nat.lt_succ_self k, s, i, c, fs, ds, hn, hf, rfl, rfl⟩
  refuses i q c err r hsig hreply howned := by
    subst hsig
    exact ⟨k, Nat.lt_succ_self k, s, i, q, c, err, hn, rfl, hreply, howned⟩

/-! ## The invariant -/

/-- In a session of builtin kinds: what nodes have and keep, and what strands are there for. -/
structure Kept (P : Past) (t : Engine.Turn) : Prop where
  registry : t.engine.registry = Library.registry
  wired : t.engine.graph.Wired Library.registry
  start : ∀ kind, Library.IsEntry kind → t.engine.config.startKind.same (.str kind) = false
  proper : t.engine.Proper
  single : ∀ id, t.engine.Single P id ∨ t.Pledges id
  plain : ∀ id, ¬t.engine.graph.HasEntry id → t.engine.Bare id
  roles : ∀ x ∈ t.population, Role P t.engine x

namespace Kept

variable {P P' : Past} {t t' : Engine.Turn} {s : Strand} {sig : Signal}

theorem mono (h : Kept P t) (hP : P.Before P') : Kept P' t where
  registry := h.registry
  wired := h.wired
  start := h.start
  proper := h.proper
  single id := (h.single id).imp_left ((Engine.Rests.refl t.engine).leaves id |>.single hP)
  plain := h.plain
  roles x hx := (h.roles x hx).rests (.refl t.engine) hP fun h => h

/-- A step that changes nothing of what nodes have and keep. -/
theorem eases (h : Kept P t) (hsingle : ∀ id, t.engine.Single P id) (he : Eases P t.engine t')
    (hrun : t.engine.running = true → t'.engine.running = true) : Kept P t' where
  registry := (congrArg Program.registry he.rests.program).trans h.registry
  wired := Engine.wired_of_program he.rests.program h.wired
  start := by
    rw [show t'.engine.config = t.engine.config from congrArg Program.config he.rests.program]
    exact h.start
  proper := he.rests.proper h.proper
  single id := .inl ((he.rests.leaves id).single (.refl P) (hsingle id))
  plain id hid := by
    rw [Engine.hasEntry_eq he.rests.program] at hid
    exact (he.rests.leaves id).bare (h.plain id hid)
  roles x hx := (he.roles x hx).elim
    (fun hx => (h.roles x (Staffed.mem_population hx)).rests he.rests (.refl P) hrun) fun hrole => hrole

/-- A step in which a node is being set up. -/
theorem enlists (h : Kept P t) (hn : t.next = some (s, sig)) (hkempt : t.engine.Kempt)
    (hk : ∀ r ∈ t.engine.scheduler.active none, r.event.hashable = true) (hnotes : P.Notes t.engine s sig)
    (hsits : ∃ b, Sits b (s, .turn sig)) (hcallers : t.callers.length ≤ 1) {id : String} {outer : List Frame}
    (hentry : t.engine.graph.HasEntry id) (hbench : Bench P t.engine id outer)
    (henrols : Enrols P t.engine id outer (s, .turn sig)) (hne : sig.Ended → s.frames ≠ outer) :
    Kept P (t.engine.turn s sig) := by
  have he := henrols.turn h.registry h.wired hkempt hk hentry hnotes hsits hne
  have hprogram := he.spares.program
  have hsame := Engine.hasEntry_eq hprogram
  have hsession : .session ∈ s.frames := henrols.suffix.subset hbench.session
  refine ⟨(congrArg Program.registry hprogram).trans h.registry, Engine.wired_of_program hprogram h.wired, ?_,
    he.spares.proper h.proper, fun other => ?_, fun other hother => ?_, fun x hx => ?_⟩
  · rw [show (t.engine.turn s sig).engine.config = t.engine.config from congrArg Program.config hprogram]
    exact h.start
  · by_cases hother : other = id
    · exact hother ▸ he.single
    · refine .inl ((he.spares.leaves hother).single (.refl P) ((h.single other).resolve_right ?_))
      rintro ⟨s', i, script, r, hn', hi, hscript, -⟩
      obtain ⟨rfl, rfl⟩ := Prod.mk.inj (Option.some.inj (hn.symm.trans hn'))
      rcases henrols.behaves with hmodest | ⟨hid, -⟩
      · exact hmodest.not_pledges hscript
      · exact hother (hi.symm.trans hid)
  · rw [hsame] at hother
    have hne : other ≠ id := fun heq => hother (heq ▸ hentry)
    exact (he.spares.leaves hne).bare (h.plain other hother)
  · rcases he.leads x hx with hx | ⟨-, henrols'⟩
    · cases h.roles x (Staffed.mem_population hx) with
      | stands hstands => exact .stands (hsame ▸ hstands)
      | edits hedits => exact absurd hedits.session (Engine.Turn.alone hcallers hn hsession x hx)
    · exact .edits (.sets henrols' (hbench.spares he.spares) (hsame ▸ hentry))

/-- A command is carried out. -/
theorem command (h : Kept P t) {c : Command} (hn : t.next = some (s, .call (.request (.command c))))
    (hf : s.frames = [.session]) (hc : c.isPlain = true) (hkempt : t.engine.Kempt)
    (hk : ∀ r ∈ t.engine.scheduler.active none, r.event.hashable = true) (hcallers : t.callers.length ≤ 1)
    (hreuse : ∀ x ∈ (t.engine.turn s (.call (.request (.command c)))).population, ∀ id ∈ headed x,
      (t.engine.turn s (.call (.request (.command c)))).engine.graph.HasEntry id → t.engine.graph.HasEntry id) :
    Kept P (t.engine.turn s (.call (.request (.command c)))) := by
  have ha := Engine.amends_command h.registry h.wired hkempt hk (fun id hid => (h.plain id hid).2) hc
  have hheralds := Engine.heralds_command h.proper hc
  obtain ⟨sig, hreports, hturn⟩ : ∃ sig : Signal, sig.Reports P (t.engine.command c).2 ∧
      t.engine.turn s (.call (.request (.command c))) = (t.engine.command c).2.go s sig := by
    show ∃ sig : Signal, _ ∧ t.engine.request s (.command c) = _
    unfold Engine.request
    dsimp only
    split
    · next a _ heq => exact ⟨.back (.response (.answer a)), trivial, by rw [heq]⟩
    · next err _ heq => exact ⟨.raise err, trivial, by rw [heq]⟩
  rw [hturn] at hreuse ⊢
  have hsingle : ∀ id, t.engine.Single P id := by
    refine fun id => (h.single id).resolve_right ?_
    rintro ⟨s', i, script, r, hn', -⟩
    cases hn.symm.trans hn'
  refine ⟨ha.registry.trans h.registry, ha.wired, ha.config ▸ h.start, ha.proper h.proper, fun id => .inl ?_,
    fun id hid => ?_, fun x hx => ?_⟩
  · rcases ha.each id with ⟨howned, hmemo, -⟩ | hbare
    · cases hsingle id with
      | bare hb => exact .bare ⟨howned.trans hb.1, hmemo.trans hb.2⟩
      | has hh => exact .has ⟨howned.trans hh.1, hmemo.trans hh.2⟩
      | refused hr ho hm => exact .refused hr (howned.trans ho) (hmemo.trans hm)
    · exact .bare hbare
  · rcases ha.each id with ⟨howned, hmemo, hentry⟩ | hbare
    · obtain ⟨ho, hm⟩ := h.plain id fun hin => hid (hentry hin)
      exact ⟨howned.trans ho, hmemo.trans hm⟩
    · exact hbare
  · rcases List.mem_cons.mp hx with rfl | hmem
    · exact .edits (.answers hf rfl hreports)
    · rcases hheralds x hmem with hold | ⟨l, m, hport, rfl⟩
      · cases h.roles x (Staffed.mem_population hold) with
        | stands hstands =>
          exact .stands (hstands.mono (by simp) fun id hid hentry =>
            hstands.clear rfl id hid (hreuse x hx id hid hentry))
        | edits hedits =>
          have hsession : .session ∈ s.frames := hf ▸ List.mem_cons_self
          exact absurd hedits.session (Engine.Turn.alone hcallers hn hsession x hold)
      · exact .of_launch hport m

/-- The strand that is under way has a turn. -/
theorem turn (h : Kept P t) (hn : t.next = some (s, sig)) (hkempt : t.engine.Kempt)
    (hk : ∀ r ∈ t.engine.scheduler.active none, r.event.hashable = true) (hnotes : P.Notes t.engine s sig)
    (hsits : ∃ b, Sits b (s, .turn sig)) (hcallers : t.callers.length ≤ 1)
    (hordinary : ∀ r, t.request? = some r → r.isOrdinary = true)
    (hrun : (∀ c, ¬sig.Carries c) → t.engine.running = true → (t.engine.turn s sig).engine.running = true)
    (hreuse : ∀ c, sig = .call (.request (.command c)) → ∀ x ∈ (t.engine.turn s sig).population, ∀ id ∈ headed x,
      (t.engine.turn s sig).engine.graph.HasEntry id → t.engine.graph.HasEntry id) : Kept P (t.engine.turn s sig) := by
  have hrole := h.roles _ (Engine.Turn.mem_population_of_next hn)
  by_cases hpledges : ∃ id, t.Pledges id
  · obtain ⟨id, s', i, script, r, hn', hi, hscript, -⟩ := hpledges
    obtain ⟨rfl, rfl⟩ := Prod.mk.inj (Option.some.inj (hn.symm.trans hn'))
    rcases hrole.behaves with hmodest | ⟨-, outer, hentry, hbench, henrols⟩
    · exact absurd hscript hmodest.not_pledges
    · exact h.enlists hn hkempt hk hnotes hsits hcallers hentry hbench henrols fun hended => hended.elim
  have hsingle : ∀ id, t.engine.Single P id := fun id =>
    (h.single id).resolve_right fun hid => hpledges ⟨id, hid⟩
  have hcarries : ∀ c, sig.Carries c → sig = .call (.request (.command c)) := fun c => hrole.carries
  cases hrole with
  | @stands m node hstands =>
    refine h.eases hsingle ?_ (hrun fun c hc => hstands.ne_request _ (hcarries c hc))
    by_cases hover : sig.Ended ∧ s.frames = [.task m]
    · obtain ⟨hended, hf⟩ := hover
      have hcomplete : ∀ outcome, Eases P t.engine ⟨t.engine.completeTask m outcome, none⟩ := fun outcome =>
        ⟨Engine.rests_of_outlook (Engine.outlook_completeTask t.engine m outcome),
          .ended (Engine.strands_completeTask t.engine m outcome)⟩
      cases sig with
      | call c => exact hended.elim
      | back r =>
        rw [Engine.turn_back hf]
        exact hcomplete _
      | raise err =>
        rw [Engine.turn_raise hf]
        exact hcomplete _
    · obtain ⟨hrests, hleads⟩ := hstands.turn h.registry h.wired hkempt hk (fun id hid => (h.plain id hid).1)
        fun hended hf => hover ⟨hended, hf⟩
      exact ⟨hrests, hleads.mono fun y hy => .stands (Engine.hasEntry_eq hrests.program ▸ hy.2)⟩
  | edits hedits =>
    rcases hedits.turn h.wired h.start h.registry hkempt hk (fun id hid => (h.plain id hid).1) (fun _ => hsingle)
      (fun r hr => hordinary r (Engine.Turn.request?_of_next (hr ▸ hn))) with ⟨he, hne⟩ | ⟨c, rfl, hc, hf⟩ |
      ⟨id, outer, hentry, hbench, henrols, hne⟩
    · exact h.eases hsingle he (hrun fun c hc => hne c (hcarries c hc))
    · exact h.command hn hf hc hkempt hk hcallers (hreuse c rfl)
    · exact h.enlists hn hkempt hk hnotes hsits hcallers hentry hbench henrols hne

/-- The loop runs a job. -/
theorem job_eases (h : Kept P t) (hattuned : t.engine.scheduler.Attuned) {loop : Loop Job} {j : Job}
    (ht : t.engine.scheduler.loop.Takes j loop)
    (hrun : t.engine.running = true → ((t.engine.withLoop loop).handle j).engine.running = true) :
    Eases P t.engine ((t.engine.withLoop loop).handle j) := by
  have hrests : t.engine.Rests ((t.engine.withLoop loop).handle j).engine := by
    have hloop : (t.engine.withLoop loop).outlook = t.engine.outlook := rfl
    refine (Engine.rests_of_outlook hloop).trans (Engine.rests_of_outlook ?_)
    by_cases hfire : ∃ id, j = .fire id
    · obtain ⟨id, rfl⟩ := hfire
      refine Engine.outlook_fires _ fun r hr => ?_
      have hlistener := hattuned.ne_listener ht hr
      have htimer := (h.proper.of_find? hr).1
      cases hk : r.kind with
      | interval => rfl
      | timer => exact absurd hk htimer
      | listener => exact absurd hk hlistener
    · exact Engine.outlook_handle _ fun id heq => hfire ⟨id, heq⟩
  refine ⟨hrests, ?_⟩
  cases j with
  | resume id =>
    rcases handle_resume (t.engine.withLoop loop) id with heq | ⟨s, p, e₁, e', hfind, -, heq, -, hstrands, -⟩
    · rw [heq]
      exact .ended rfl
    · have hmem : (s, p) ∈ t.population := Staffed.mem_population (List.mem_of_find?_eq_some hfind)
      have hrole := (((h.roles _ hmem).unpark e₁).rests hrests (.refl P) hrun)
      rw [heq] at hrole ⊢
      intro x hx
      rcases List.mem_cons.mp hx with rfl | hx
      · exact .inr hrole
      · replace hx : x ∈ e'.strands := hx
        rw [hstrands] at hx
        exact .inl (List.mem_of_mem_filter hx)
  | fire id =>
    intro x hx
    rcases Engine.heralds_expire (e := t.engine.withLoop loop) h.proper id x hx with hx | ⟨l, m, hport, rfl⟩
    · exact .inl hx
    · exact .inr (.of_launch hport m)
  | elapse id | timeout id | discard id => exact .ended rfl
  | gather id task => exact .ended (Engine.gatherDone_hears (t.engine.withLoop loop) id task).strands

/-- The invariant is kept by every step. -/
theorem beat (h : Kept P t) (hb : Beat t t') (hP : P.Before P')
    (hnotes : ∀ s sig, t.next = some (s, sig) → P'.Notes t.engine s sig) (hkempt : t.engine.Kempt)
    (hk : ∀ r ∈ t.engine.scheduler.active none, r.event.hashable = true) (hattuned : t.engine.scheduler.Attuned)
    (hsits : ∀ x ∈ t.population, ∃ b, Sits b x) (hcallers : t.callers.length ≤ 1)
    (hordinary : ∀ r, t.request? = some r → r.isOrdinary = true)
    (hreuse : ∀ c, t.request? = some (.command c) → ∀ x ∈ t'.population, ∀ id ∈ headed x,
      t'.engine.graph.HasEntry id → t.engine.graph.HasEntry id) : Kept P' t' := by
  replace h := h.mono hP
  have hrun : (∀ c, ¬t.Carries c) → t.engine.running = true → t'.engine.running = true := by
    refine fun hcarries => hb.running ?_
    rw [Engine.Turn.callsStop_iff]
    rintro ⟨c, hc, -⟩
    exact hcarries c hc
  have hidle : t.next = none → (∀ id, t.engine.Single P' id) ∧ ∀ c, ¬t.Carries c := by
    refine fun hn => ⟨fun id => (h.single id).resolve_right ?_, ?_⟩
    · rintro ⟨s, i, script, r, hn', -⟩
      cases hn.symm.trans hn'
    · rintro c ⟨s, sig, hn', -⟩
      cases hn.symm.trans hn'
  cases hb with
  | @turn s sig hn =>
    refine h.turn hn hkempt hk (hnotes s sig hn) (hsits _ (Engine.Turn.mem_population_of_next hn)) hcallers hordinary
      (fun hcarries => hrun ?_) fun c hc => hreuse c (Engine.Turn.request?_of_next (hc ▸ hn))
    rintro c ⟨s', sig', hn', hc⟩
    obtain ⟨rfl, rfl⟩ := Prod.mk.inj (Option.some.inj (hn.symm.trans hn'))
    exact hcarries c hc
  | job hn ht =>
    obtain ⟨hsingle, hcarries⟩ := hidle hn
    exact h.eases hsingle (h.job_eases hattuned ht (hrun hcarries)) (hrun hcarries)
  | request hn r =>
    obtain ⟨hsingle, hcarries⟩ := hidle hn
    exact h.eases hsingle (.go rfl rfl (.asks rfl rfl)) (hrun hcarries)

end Kept

/-! ## Every session -/

section Runs

variable {run : Nat → Engine.Turn} {n : Nat}

theorem Opens.kept {P : Past} {t : Engine.Turn} (h : Opens t) (hregistry : t.engine.registry = Library.registry)
    (hwired : t.engine.graph.Wired Library.registry)
    (hstart : ∀ kind, Library.IsEntry kind → t.engine.config.startKind.same (.str kind) = false)
    (hfresh : ∀ m ∈ t.engine.graph.nodes, m.cell? Library.registrationKey = none) : Kept P t := by
  have hmemo : ∀ id, t.engine.memo id = none := by
    intro id
    cases hn : t.engine.graph.node? id with
    | none => rw [Engine.memo, hn]; rfl
    | some m => rw [Engine.memo, hn]; exact hfresh m (List.mem_of_find?_eq_some hn)
  obtain ⟨config, registry, graph, shortest, requests, -, rfl⟩ := h
  have hscheduler : (opening (.initial config registry graph shortest) requests).engine.scheduler =
      { minInterval := shortest } := by
    cases requests <;> rfl
  have hbare : ∀ id, (opening (.initial config registry graph shortest) requests).engine.Bare id := by
    refine fun id => ⟨?_, hmemo id⟩
    rw [Engine.owned, hscheduler]
    rfl
  refine ⟨hregistry, hwired, hstart, fun x hx => ?_, fun id => .inl (.bare (hbare id)), fun id _ => hbare id,
    fun x hx => ?_⟩
  · rw [hscheduler] at hx
    cases hx
  · cases requests with
    | nil => cases hx
    | cons r rest =>
      rcases List.mem_cons.mp hx with rfl | hx
      · exact .edits (.asks rfl rfl)
      · cases hx

/-- A session of builtin kinds whose requests are ordinary ones, in which listeners wait for names, and each run and
step is over before the next call. -/
structure Conducted (run : Nat → Engine.Turn) (n : Nat) : Prop where
  opens : Opens (run 0)
  beats : ∀ k < n, Beat (run k) (run (k + 1))
  named : ∀ k ≤ n, (run k).engine.scheduler.Named
  registry : (run 0).engine.registry = Library.registry
  wired : (run 0).engine.graph.Wired Library.registry
  fresh : ∀ m ∈ (run 0).engine.graph.nodes, m.cell? Library.registrationKey = none
  ordinary : ∀ k < n, ∀ r, (run k).request? = some r → r.isOrdinary = true
  awaited : ∀ k < n, (run k).callers.length ≤ 1

section Sessions

variable (hrun : Conducted run n)
  (hstart : ∀ kind, Library.IsEntry kind → (run 0).engine.config.startKind.same (.str kind) = false)
  (hreuse : ∀ k < n, ∀ c, (run k).request? = some (.command c) → ∀ x ∈ (run (k + 1)).population, ∀ id ∈ headed x,
    (run (k + 1)).engine.graph.HasEntry id → (run k).engine.graph.HasEntry id)

include hrun hstart hreuse

/-- The invariant holds in every state of a session. -/
theorem kept_run {k : Nat} (hk : k ≤ n) : Kept (pastOf run k) (run k) := by
  induction k with
  | zero => exact hrun.opens.kept hrun.registry hrun.wired hstart hrun.fresh
  | succ k ih =>
    have hk' : k ≤ n := Nat.le_of_succ_le hk
    have hkempt := (reachable_run hrun.opens (fun k hk => (hrun.beats k hk).play) hk').kempt
    have hattuned := (tallies_run hrun.opens hrun.beats 0 hk').attuned
    exact (ih hk').beat (hrun.beats k hk) (pastOf_before run (Nat.le_succ k)) (fun s sig hn => pastOf_notes hn) hkempt
      ((hrun.named k hk').hashable hattuned hkempt.scheduler) hattuned (sits_run hrun.opens hrun.beats hk')
      (hrun.awaited k hk) (hrun.ordinary k hk) (hreuse k hk)

/-- Setting up again never stacks. In every state of a session a node has at most one registration, and only an
interval or a listener has one, which it also keeps, unless it could not be completed or is kept at the next turn.
When a run ends, it has set up every interval and every listener. An interval that it, or a step, has set up without an
error has exactly one registration then, and so has a listener that has got a name; one that has got an empty name has
none. -/
theorem rearming_never_stacks {k : Nat} (hk : k ≤ n) :
    (∀ id, ((run k).engine.owned id).length ≤ 1 ∧
      ((run k).engine.Single (pastOf run k) id ∨ (run k).Pledges id) ∧
      (¬(run k).engine.graph.HasEntry id → (run k).engine.Bare id)) ∧
    (∀ s R, (run k).next = some (s, .back (.response (.run R))) → s.frames = [.session] →
      ∀ id, (run k).engine.graph.HasEntry id → ∃ r ∈ R.triggers, r.origin = id ∧
        (r.status = .ok → (run k).engine.Arranged ((pastOf run k).heard r.trigger id) id)) ∧
    ∀ s r, (run k).next = some (s, .back (.response (.trigger r))) → s.frames = [.session] →
      (run k).engine.graph.HasEntry r.origin → r.status = .ok →
        (run k).engine.Arranged ((pastOf run k).heard r.trigger r.origin) r.origin := by
  have hkept := kept_run hrun hstart hreuse hk
  have hreports : ∀ s r, (run k).next = some (s, .back r) → s.frames = [.session] →
      (Signal.back r).Reports (pastOf run k) (run k).engine := fun s r hn hf =>
    (hkept.roles _ (Engine.Turn.mem_population_of_next hn)).reports hf trivial
  refine ⟨fun id => ⟨?_, hkept.single id, hkept.plain id⟩, fun s R hn hf id hentry => ?_, fun s r hn hf hentry hok => ?_⟩
  · rcases hkept.single id with hsingle | ⟨s, i, script, r, -, -, -, howned, -⟩
    · cases hsingle with
      | bare h => simp [h.1]
      | has h => simp [h.1]
      | refused _ howned => simp [howned]
    · simp [howned]
  · obtain ⟨results, ts, htriggers, htally⟩ := hreports s _ hn hf
    have hmem := htally.covers id hentry
    rw [List.append_nil] at hmem
    obtain ⟨r, hr, rfl⟩ := List.mem_map.mp hmem
    exact ⟨r, htriggers ▸ List.mem_append_left ts hr, rfl, fun hok => htally.good r hr hok hentry⟩
  · exact hreports s _ hn hf hok hentry

end Sessions

end Runs

/-! ## A listener in the place of another node -/

/-- A session in which a listener starts a trigger that goes through a loop before it comes to another node. Before it
comes there, that node is removed, a second listener is put in under an id of choice, and everything is set up again. -/
def knockSession (id : String) : Engine.Turn :=
  opening (.initial {} Library.registry {} 0.01)
    [.command (.addNode "event.start" [] (some "s")),
      .command (.addNode "event.listen" [("name", .str "bell")] (some "l")),
      .command (.addNode "logic.while" [("condition", .bool false)] (some "w")),
      .command (.addNode "debug.log" [] (some "j")),
      .command (.addEdge ⟨"l", "exec", "w", "exec"⟩), .command (.addEdge ⟨"l", "exec", "j", "exec"⟩),
      .run, .command (.dispatch (.str "bell") .null), .tick 1, .command (.removeNode "j"),
      .command (.addNode "event.listen" [("name", .str "knock")] (some id)), .run]

/-- The state after a number of steps of that session. -/
def knocked (id : String) (n : Nat) : Engine.Turn := (follow n (knockSession id, fun _ => {})).1

/-- Whether a session goes on from a turn in which all is as in sessions that are conducted. -/
def Engine.Turn.Orderly (t : Engine.Turn) : Prop :=
  (Engine.advance t).isSome = true ∧
    (t.engine.scheduler.active none).all (fun r => r.kind != .listener || r.event.text?.isSome) = true ∧
    t.request?.all Request.isOrdinary = true ∧ t.callers.length ≤ 1

instance : DecidablePred Engine.Turn.Orderly := fun _ => inferInstanceAs (Decidable (_ ∧ _ ∧ _ ∧ _))

theorem conducted_knocked {id : String} {n : Nat} (h : ∀ k ≤ n, (knocked id k).Orderly) : Conducted (knocked id) n where
  opens := by
    show Opens (knockSession id)
    exact ⟨_, _, _, _, _, ⟨by decide, by decide⟩, rfl⟩
  beats k hk := .of_advance (advance_follow (h k hk.le).1)
  named k hk := Scheduler.named_of_all (h k hk).2.1
  registry := rfl
  wired := .empty _ _
  fresh m hm := absurd hm List.not_mem_nil
  ordinary k hk r hr := by simpa [hr] using (h k hk.le).2.2.1
  awaited k hk := (h k hk.le).2.2.2

/-- What the run of an editor that ends at a turn has come to. -/
def Engine.Turn.report? (t : Engine.Turn) : Option RunResult :=
  match t.next with
  | some (⟨_, _, [.session]⟩, .back (.response (.run R))) => some R
  | _ => none

theorem Engine.Turn.next_of_report? {t : Engine.Turn} {R : RunResult} (h : t.report? = some R) :
    ∃ s : Strand, t.next = some (s, .back (.response (.run R))) ∧ s.frames = [.session] := by
  unfold report? at h
  split at h
  · next hn => exact ⟨_, Option.some.inj h ▸ hn, rfl⟩
  · cases h

set_option maxRecDepth 4096 in
/-- Under an id of its own, the second listener has one registration when the run that has set it up ends. -/
theorem rearming_never_stacks_knocked :
    ∃ R, (knocked "k" 105).report? = some R ∧ ∃ r ∈ R.triggers, r.origin = "k" ∧ r.status = .ok ∧
      (knocked "k" 105).engine.Arranged ((pastOf (knocked "k") 105).heard r.trigger "k") "k" := by
  have hrun : Conducted (knocked "k") 105 := conducted_knocked (by decide +kernel)
  have hstart : ∀ kind, Library.IsEntry kind → (knocked "k" 0).engine.config.startKind.same (.str kind) = false := by
    rintro kind (rfl | rfl) <;> decide +kernel
  have hclear : ∀ k < 105, ∀ x ∈ (knocked "k" (k + 1)).population, ∀ id ∈ headed x,
      (knocked "k" (k + 1)).engine.graph.HasEntry id → (knocked "k" k).engine.graph.HasEntry id := by decide +kernel
  have hended : ((knocked "k" 105).report?.map fun R => R.triggers.all fun r => r.status == .ok) = some true := by
    decide +kernel
  obtain ⟨R, hreport, hok⟩ := Option.map_eq_some_iff.mp hended
  obtain ⟨s, hn, hf⟩ := Engine.Turn.next_of_report? hreport
  have hentry : (knocked "k" 105).engine.graph.HasEntry "k" := by decide +kernel
  obtain ⟨-, hends, -⟩ := rearming_never_stacks hrun hstart (fun k hk c _ => hclear k hk) le_rfl
  obtain ⟨r, hr, horigin, harranged⟩ := hends s R hn hf "k" hentry
  have hstatus : r.status = .ok := by simpa using List.all_eq_true.mp hok r hr
  exact ⟨R, hreport, r, hr, horigin, hstatus, harranged hstatus⟩

set_option maxRecDepth 4096 in
/-- Under the id of the node that was removed, the second listener has two registrations when the run that has set it
up ends: the trigger has come to it as well. -/
theorem rearming_stacks_knocked :
    Conducted (knocked "j") 114 ∧
    (∃ R, (knocked "j" 114).report? = some R ∧ ∃ r ∈ R.triggers, r.origin = "j" ∧ r.status = .ok) ∧
    (knocked "j" 114).engine.graph.HasEntry "j" ∧ (knocked "j" 114).engine.owned "j" = [2, 3] := by
  have hended : ((knocked "j" 114).report?.map fun R => R.triggers.any fun r => r.origin == "j" && r.status == .ok) =
      some true := by decide +kernel
  obtain ⟨R, hreport, hany⟩ := Option.map_eq_some_iff.mp hended
  obtain ⟨r, hr, hset⟩ := List.any_eq_true.mp hany
  exact ⟨conducted_knocked (by decide +kernel), ⟨R, hreport, r, hr, by simpa using hset⟩, by decide +kernel,
    by decide +kernel⟩

end Patchbay
