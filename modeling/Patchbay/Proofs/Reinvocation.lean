import Patchbay.Proofs.Interleaving

/-!
# One run of a node for each change

A data-only node that has run in a trigger runs again in that trigger only after something has moved that
its last run had read. While a node is cached it is not run unless one of its notes is out of date; what
is cached is given up only by running the node again; and versions never return to what they were.

In a trigger in which nothing is published and no variable is written, every data-only node therefore runs
to its end at most once, however many inputs it feeds.

Contents:
* `Engine.Turn.completed?`: the run of a node that ends at a turn; `Strand.computes`: a run in progress.
* `Remembers`: the notes of a node are cached, or have moved.
* `Began`: the state at which a trigger began.

Results:
* `Remembers.step`, `Remembers.steps`: no step makes an engine forget.
* `Recorded.began`: every trigger that has a strand has begun.
* `rerun_only_when_moved`: what has happened before a node runs again.
-/

namespace Patchbay

/-- The strand, node and invocation of a turn at which the run of a node for one of its outputs ends with
a result. -/
def Engine.Turn.completed? (t : Engine.Turn) : Option (Strand × String × Invocation) :=
  match t.next with
  | some (s, .back (.invoked _ i)) => match s.frames with
    | .output node _ _ :: _ => some (s, node, i)
    | _ => none
  | _ => none

/-- Whether a frame is of an output of a node. -/
def Frame.isOutputOf (node : String) : Frame → Bool
  | .output other _ _ => other == node
  | _ => false

/-- Whether a strand is running a node for one of its outputs. -/
def Strand.computes (s : Strand) (node : String) : Bool := s.frames.any (Frame.isOutputOf node)

theorem completed?_eq_some {t : Engine.Turn} {s : Strand} {node : String} {i : Invocation}
    (h : t.completed? = some (s, node, i)) :
    ∃ v port serial rest, t.next = some (s, .back (.invoked v i)) ∧
      s.frames = .output node port serial :: rest := by
  unfold Engine.Turn.completed? at h
  split at h
  · next s' v i' hn =>
    split at h
    · next node' port serial rest hf =>
      simp only [Option.some.injEq, Prod.mk.injEq] at h
      obtain ⟨rfl, rfl, rfl⟩ := h
      exact ⟨v, port, serial, rest, hn, hf⟩
    · simp at h
  · simp at h

/-- A run that ends is a run in progress. -/
theorem computes_of_completed {t : Engine.Turn} {s : Strand} {node : String} {i : Invocation}
    (h : t.completed? = some (s, node, i)) : s.computes node = true := by
  obtain ⟨v, port, serial, rest, -, hf⟩ := completed?_eq_some h
  simp [Strand.computes, hf, Frame.isOutputOf]

/-- The nodes that a strand is running are those whose outputs are in progress. -/
theorem Stacked.mem_of_computes {l : Level} {fs : List Frame} {nodes : List String} {as : List Account}
    (h : Stacked l fs nodes as) {node : String} (hf : fs.any (Frame.isOutputOf node) = true) :
    node ∈ nodes := by
  have houter : ∀ {fs : List Frame}, (∀ f ∈ fs, f.Outer) → fs.any (Frame.isOutputOf node) = false := by
    intro fs ho
    rw [List.any_eq_false]
    intro f hm
    have hout := ho f hm
    cases f <;> first | exact hout.elim | simp [Frame.isOutputOf]
  induction h with
  | outer ho =>
    rw [houter ho] at hf
    exact absurd hf Bool.false_ne_true
  | trigger ho | value ho =>
    rw [List.any_cons, houter ho] at hf
    exact absurd hf Bool.false_ne_true
  | pull _ _ ih | advance _ _ ih | checkpoint _ _ ih | sleep _ _ ih | walk _ ih => exact ih hf
  | output _ ih | hop _ ih =>
    simp only [List.any_cons, Frame.isOutputOf, Bool.false_or, Bool.or_eq_true, beq_iff_eq] at hf
    rcases hf with rfl | hf
    · exact List.mem_cons_self
    · exact List.mem_cons_of_mem _ (ih hf)

/-- A node whose output is in progress is not cached. -/
theorem Sits.cached?_of_computes {b : Book} {x : Strand × Parked} (h : Sits b x) {node : String}
    (hc : x.1.computes node = true) : x.1.scope.cached? node = none := by
  obtain ⟨s, p⟩ := x
  refine h.booked.apart node ?_
  obtain ⟨nodes, hpath, hfits⟩ := h.fits
  rw [hpath, List.mem_reverse]
  cases hfits with
  | begins _ hs | answers hs | joins hs | gathers hs | walks hs | walked hs | invokes _ _ hs
  | behaves _ _ hs | invoked _ _ hs | input hs | output hs | pulled hs | woken hs | sleeps hs
  | raised hs => exact hs.mem_of_computes hc

/-! ## What is remembered -/

/-- Whether the strand of a trigger remembers a run of a node: its notes are cached or have moved, and no
read that they are from saw a version before `lo`. -/
def Remembers (lo : Dependency → Nat) (T : Nat) (node : String) (ds : Dependencies) (t : Engine.Turn) :
    Prop :=
  ∀ x ∈ t.population, x.1.scope.trigger = T → ds.Within lo (t.engine.currentVersion x.1.scope) ∧
    (x.1.scope.cached? node = some ds ∨ ∃ d ∈ ds, d.2 < t.engine.currentVersion x.1.scope d.1)

/-- Notes that are out of date have moved. -/
theorem exists_moved {e : Engine} {sc : Scope} {lo : Dependency → Nat} {ds : Dependencies}
    (hw : ds.Within lo (e.currentVersion sc)) (hs : e.stillCurrent sc ds = false) :
    ∃ d ∈ ds, d.2 < e.currentVersion sc d.1 := by
  obtain ⟨d, hd, hne⟩ := List.all_eq_false.mp hs
  refine ⟨d, hd, lt_of_le_of_ne (hw d hd).2.2 fun heq => hne ?_⟩
  exact beq_iff_eq.mpr heq.symm

section Remembers

variable {lo : Nat → Dependency → Nat} {L : Ledger} {t : Engine.Turn} {T : Nat} {node : String}
  {ds : Dependencies}

/-- A change of a scope gives up what is cached for a node only when its notes have moved. -/
theorem Moves.cached_or_moved {e : Engine} {sc sc' : Scope} {lo : Dependency → Nat} (hm : Moves e sc sc')
    (hap : ∀ node ∈ sc.path.map Prod.fst, sc.cached? node = none)
    (hw : ds.Within lo (e.currentVersion sc)) (hc : sc.cached? node = some ds) :
    sc'.cached? node = some ds ∨ ∃ d ∈ ds, d.2 < e.currentVersion sc d.1 := by
  cases hm with
  | keeps hx =>
    left
    rw [Scope.cached?, hx.cached]
    exact hc
  | opens other port hidle hstale =>
    by_cases heq : node = other
    · right
      subst heq
      exact exists_moved hw (hstale ds hc)
    · left
      exact (Scope.cached?_resetNode sc heq).trans hc
  | stores other os ds' hbusy =>
    -- the node that is stored is in progress, and so is not the one that is cached
    left
    have hne : node ≠ other := by
      rintro rfl
      rw [hap node hbusy] at hc
      simp at hc
    rw [Scope.cached?_cache, if_neg hne]
    exact hc
  | leaves => exact .inl hc

/-- No step makes an engine forget a run of a node. -/
theorem Remembers.step (h : Orderly lo L t) (hT : T ≠ 0) (hk : T < t.engine.nextTrigger)
    (hr : Remembers (lo T) T node ds t) {t' : Engine.Turn} (hs : Step t t') :
    Remembers (lo T) T node ds t' := by
  have hev := h.evolves hs
  intro x hx ht
  rcases hev.strands x hx with h0 | hfresh | ⟨y, hy, hm⟩
  · exact absurd (ht.symm.trans h0) hT
  · omega
  · have hyT : y.1.scope.trigger = T := hm.trigger.symm.trans ht
    have hle : ∀ d : Dependency, d.Textual →
        t.engine.currentVersion y.1.scope d ≤ t'.engine.currentVersion x.1.scope d :=
      fun d hd => Engine.currentVersion_le h.counted hev.store hm.epoch_le hd
    obtain ⟨hw, hor⟩ := hr y hy hyT
    refine ⟨hw.mono hle, ?_⟩
    have hmoved : (∃ d ∈ ds, d.2 < t.engine.currentVersion y.1.scope d.1) →
        ∃ d ∈ ds, d.2 < t'.engine.currentVersion x.1.scope d.1 := by
      rintro ⟨d, hd, hlt⟩
      exact ⟨d, hd, hlt.trans_le (hle d.1 (hw d hd).1)⟩
    rcases hor with hc | hor
    · exact (hm.cached_or_moved (h.placed y hy).sits.booked.apart hw hc).imp_right hmoved
    · exact .inr (hmoved hor)

theorem Remembers.steps (h : Orderly lo L t) (hT : T ≠ 0) (hk : T < t.engine.nextTrigger)
    (hr : Remembers (lo T) T node ds t) {t' : Engine.Turn} (hs : Steps t t') :
    Remembers (lo T) T node ds t' ∧ ∃ L', Orderly lo L' t' := by
  have hall := h.along hs (P := fun u => T < u.engine.nextTrigger ∧ Remembers (lo T) T node ds u) ⟨hk, hr⟩
    fun _ hu hstep ⟨hku, hru⟩ => ⟨hku.trans_le (hu.evolves hstep).nextTrigger, hru.step hu hT hku hstep⟩
  exact ⟨hall.1.2, hall.2⟩

/-- An invocation that ends for an output is the innermost one of the book. -/
theorem Sits.covered_of_invoked {b : Book} {s : Strand} {v : Value} {i : Invocation}
    (h : Sits b (s, .turn (.back (.invoked v i)))) {port : String} {serial : Nat} {rest : List Frame}
    (hf : s.frames = .output node port serial :: rest) :
    ∃ a ∈ b.running, a.Covered i.dependencies := by
  obtain ⟨nodes, -, hfits⟩ := h.fits
  cases hfits with
  | answers hs =>
    rw [hf] at hs
    exact absurd (hs.outer_frames _ List.mem_cons_self) id
  | walked hs =>
    rw [hf] at hs
    nomatch hs
  | invoked hb ha _ =>
    rw [hb]
    exact ⟨_, List.mem_cons_self, ha⟩
  | woken hs =>
    rw [hf] at hs
    nomatch hs

/-- A run of a node that ends is remembered. -/
theorem Remembers.of_completed (h : Orderly lo L t) {s : Strand} {i : Invocation}
    (hc : t.completed? = some (s, node, i)) {t' : Engine.Turn} (hs : Step t t') :
    s.scope.trigger ≠ 0 ∧ s.scope.trigger < t.engine.nextTrigger ∧
      Remembers (lo s.scope.trigger) s.scope.trigger node i.dependencies t' := by
  obtain ⟨v, port, serial, rest, hn, hf⟩ := completed?_eq_some hc
  have hpop : t.population = (s, .turn (.back (.invoked v i))) :: t.engine.strands := by
    simp [Engine.Turn.population, hn]
  have hp := h.placed (s, .turn (.back (.invoked v i))) (by rw [hpop]; exact List.mem_cons_self)
  have hT : s.scope.trigger ≠ 0 := by
    intro h0
    have hout := hp.sits.named h0 (.output node port serial) (by simp [hf])
    exact hout
  obtain ⟨a, ha, hcov⟩ := hp.sits.covered_of_invoked hf
  have hw : i.dependencies.Within (lo s.scope.trigger) (t.engine.currentVersion s.scope) :=
    fun d hd => (hp.within.running a ha).kept d (hcov.kept d hd)
  refine ⟨hT, hp.known, ?_⟩
  cases hs with
  | job hnone => rw [hn] at hnone; simp at hnone
  | request hnone => rw [hn] at hnone; simp at hnone
  | turn hn' =>
    obtain ⟨rfl, rfl⟩ := Prod.mk.inj (Option.some.inj (hn'.symm.trans hn))
    intro x hx ht
    simp only [Engine.turn, hf, Engine.back, Engine.finishOutput] at hx ⊢
    rcases List.mem_cons.mp hx with rfl | hx
    · refine ⟨hw.mono fun d hd => ?_, .inl ?_⟩
      · exact Engine.currentVersion_le h.counted .refl (fun _ _ => le_rfl) hd
      · rw [Scope.cached?_cache, if_pos rfl]
    · have hap := h.apart
      rw [hpop] at hap
      exact absurd ((List.pairwise_cons.mp hap).1 x hx ht.symm) hT

end Remembers

/-! ## Runs of a node, one after another -/

section Reruns

variable {lo : Nat → Dependency → Nat} {L : Ledger} {t₁ t t₂ : Engine.Turn} {s : Strand} {node : String}
  {i : Invocation} {x : Strand × Parked}

/-- While a node runs again, something has moved that it had read before. -/
theorem exists_moved_of_rerun (h : Orderly lo L t₁) (hc : t₁.completed? = some (s, node, i))
    (hs : Step t₁ t) (hrun : Steps t t₂) (hx : x ∈ t₂.population)
    (ht : x.1.scope.trigger = s.scope.trigger) (hagain : x.1.computes node = true) :
    ∃ d ∈ i.dependencies, d.1.Textual ∧ lo s.scope.trigger d.1 ≤ d.2 ∧
      d.2 < t₂.engine.currentVersion x.1.scope d.1 := by
  obtain ⟨hT, hk, hrem⟩ := Remembers.of_completed h hc hs
  have hk' := hk.trans_le (h.evolves hs).nextTrigger
  obtain ⟨hrem', L', h'⟩ := hrem.steps (h.step hs) hT hk' hrun
  obtain ⟨hw, hor⟩ := hrem' x hx ht
  have hnone := (h'.placed x hx).sits.cached?_of_computes hagain
  rcases hor with hcached | ⟨d, hd, hlt⟩
  · rw [hnone] at hcached
    simp at hcached
  · exact ⟨d, hd, (hw d hd).1, (hw d hd).2.1, hlt⟩

theorem Orderly.wrote (h : Orderly lo L t) (hs : Steps t t₂) :
    Variables.Wrote t.engine.store t₂.engine.store :=
  (h.along hs (P := fun u => Variables.Wrote t.engine.store u.engine.store) .refl
    fun _ hu hstep hw => hw.trans (hu.evolves hstep).store).1

/-- What moves is an output that is published, or a variable that is written. -/
theorem written_or_published {e e' : Engine} {sc sc' : Scope} (hw : Variables.Wrote e.store e'.store)
    {d : Dependency} (hd : d.Textual) (hlt : e.currentVersion sc d < e'.currentVersion sc' d) :
    e.store.version < e'.store.version ∨
      ∃ node port, sc.epoch node (.str port) < sc'.epoch node (.str port) := by
  cases d with
  | output node port =>
    obtain ⟨text, rfl⟩ := hd
    exact .inr ⟨node, text, hlt⟩
  | oneVariable name =>
    left
    refine lt_of_le_of_ne (Variables.Wrote.version_le hw) fun heq => ?_
    have hsame := Variables.Wrote.eq_of_version_eq hw heq.symm
    simp only [Engine.currentVersion, hsame] at hlt
    exact lt_irrefl _ hlt
  | allVariables => exact .inl hlt

/-- In the trigger that begins next, nothing has been read. -/
theorem Orderly.after_nextTrigger (h : Orderly lo L t) : L.after t t.engine.nextTrigger = {} := by
  have hblank : L t.engine.nextTrigger = {} := h.blank _ (.inr le_rfl)
  cases hn : t.next with
  | none =>
    simp only [Ledger.after, hn]
    exact hblank
  | some x =>
    have hmem : (x.1, Parked.turn x.2) ∈ t.population := by
      simp [Engine.Turn.population, hn]
    simp only [Ledger.after, hn]
    rw [Function.update_of_ne (h.placed _ hmem).known.ne', hblank]

/-- The reads of a trigger that begins will see versions that are not before the present ones. -/
theorem Orderly.anchored (h : Orderly (fun _ _ => 0) L t) (hx : x ∈ t.population)
    (hT : x.1.scope.trigger ≠ 0) (hL : L x.1.scope.trigger = {}) :
    Orderly (fun T d => if T = x.1.scope.trigger then t.engine.currentVersion x.1.scope d else 0) L t := by
  refine ⟨fun y hy => ?_, h.apart, h.blank, fun T hT' d => ?_, h.positive, h.counted, h.parked⟩
  · have hp := h.placed y hy
    by_cases heq : y.1.scope.trigger = x.1.scope.trigger
    · -- no other strand runs the trigger
      have hsame : y = x := by
        by_contra hne
        exact hT (heq.symm.trans (h.apart.forall hy hx hne heq))
      subst hsame
      refine ⟨hp.sits, hp.known, ?_, fun d _ => ?_⟩
      · rw [hL]
        exact .empty _ _
      · rw [if_pos rfl]
    · have hlo : (fun d => if y.1.scope.trigger = x.1.scope.trigger then
          t.engine.currentVersion x.1.scope d else 0) = fun _ => 0 := by
        funext d
        exact if_neg heq
      refine ⟨hp.sits, hp.known, ?_, fun d _ => ?_⟩
      · rw [hlo]
        exact hp.within
      · rw [if_neg heq]
        exact Nat.zero_le _
  · refine if_neg ?_
    rintro rfl
    rcases hT' with h0 | hle
    · exact hT h0
    · have hknown := (h.placed x hx).known
      omega

/-- Whether a trigger began, with a scope, at an earlier state or at the present one. -/
def Began (T : Nat) (t₀ : Engine.Turn) (sc : Scope) (t : Engine.Turn) : Prop :=
  ∃ (u : Engine.Turn) (L : Ledger), Recorded u L ∧ u.engine.nextTrigger = T ∧ Step u t₀ ∧
    (∃ x ∈ t₀.population, x.1.scope = sc) ∧ sc.trigger = T ∧ Steps t₀ t

/-- Every trigger that has a strand has begun. -/
theorem Recorded.began (h : Recorded t L) (hx : x ∈ t.population) (hT : x.1.scope.trigger ≠ 0) :
    ∃ t₀ sc, Began x.1.scope.trigger t₀ sc t := by
  induction h generalizing x with
  | start config registry graph shortest requests =>
    exact absurd (eq_request_of_mem_opening hx).1 hT
  | @step t t' L h hs ih =>
    rcases (h.orderly.evolves hs).strands x hx with h0 | hfresh | ⟨y, hy, hm⟩
    · exact absurd h0 hT
    · exact ⟨t', x.1.scope, t, L, h, hfresh.symm, hs, ⟨x, hx, rfl⟩, rfl, .refl⟩
    · have htrigger := hm.trigger
      rw [htrigger] at hT ⊢
      obtain ⟨t₀, sc, u, L₀, hu, hnext, hstep, hsc, hsame, hrest⟩ := ih hy hT
      exact ⟨t₀, sc, u, L₀, hu, hnext, hstep, hsc, hsame, hrest.tail hs⟩

/-- A data-only node whose run has ended in a trigger is run again in it, to the end or not, only when
something has moved that the first run had read; and so only when, since the trigger began, a variable
was written or an output published. -/
theorem rerun_only_when_moved (hr : Recorded t₁ L) (hc : t₁.completed? = some (s, node, i))
    (hs : Step t₁ t) (hrun : Steps t t₂) (hx : x ∈ t₂.population)
    (ht : x.1.scope.trigger = s.scope.trigger) (hagain : x.1.computes node = true) :
    (∃ d ∈ i.dependencies, d.2 < t₂.engine.currentVersion x.1.scope d.1) ∧
      (∃ t₀ sc, Began s.scope.trigger t₀ sc t₁) ∧
      ∀ t₀ sc, Began s.scope.trigger t₀ sc t₁ → t₀.engine.store.version < t₂.engine.store.version ∨
        ∃ node port, sc.epoch node (.str port) < x.1.scope.epoch node (.str port) := by
  refine ⟨?_, ?_, ?_⟩
  · obtain ⟨d, hd, -, -, hlt⟩ := exists_moved_of_rerun hr.orderly hc hs hrun hx ht hagain
    exact ⟨d, hd, hlt⟩
  · obtain ⟨v, port, serial, rest, hn, -⟩ := completed?_eq_some hc
    have hmem : (s, Parked.turn (.back (.invoked v i))) ∈ t₁.population := by
      simp [Engine.Turn.population, hn]
    exact hr.began hmem (Remembers.of_completed hr.orderly hc hs).1
  · rintro t₀ sc ⟨u, L₀, hr₀, hnext, hstep, ⟨y, hy, rfl⟩, hsame, hrun₀⟩
    have hu := hr₀.orderly
    have hnext' : y.1.scope.trigger = u.engine.nextTrigger := hsame.trans hnext.symm
    have hT : y.1.scope.trigger ≠ 0 := by
      rw [hnext']
      exact hu.positive.ne'
    have hblank : L₀.after u y.1.scope.trigger = {} := by
      rw [hnext']
      exact hu.after_nextTrigger
    have h₀ := (hu.step hstep).anchored hy hT hblank
    obtain ⟨L₁, h₁⟩ := h₀.steps hrun₀
    obtain ⟨d, -, htext, hlo, hlt⟩ := exists_moved_of_rerun h₁ hc hs hrun hx ht hagain
    rw [if_pos hsame.symm] at hlo
    refine written_or_published (h₀.wrote (hrun₀.trans (hrun.head hs))) htext ?_
    exact hlo.trans_lt hlt

end Reruns

/-! ## A node that is run again -/

/-- Reads a variable. -/
def readingX : Behavior := fun _ => .ask (.readVariable "x") fun _ => .finish (.dict [(.str "value", .int 0)])

/-- Pulls its input before and after it writes a variable. -/
def poking : Behavior := fun _ =>
  .wait (.pull "in") fun _ => .ask (.setVariable "x" (.int 1)) fun _ => .wait (.pull "in") fun
    | .ok v => .finish (.dict [(.str "value", v)])
    | .error err => .fail err

/-- Pulls the input of a display that is fed by a node that writes what its own input reads. -/
def pokeSession : Engine.Turn :=
  opening (.initial {}
    { kinds := [.sketch "reader" .expression [] [Library.yields "value" .any] (some readingX),
        .sketch "poker" .expression [{ id := "in" }] [Library.yields "value" .any] (some poking),
        .sketch "display" .statement [{ id := "in" }] [] none] }
    { nodes := [{ serial := 0, id := "r", kind := "reader" }, { serial := 1, id := "k", kind := "poker" },
        { serial := 2, id := "p", kind := "display" }]
      edges := [⟨"r", "value", "k", "in"⟩, ⟨"k", "value", "p", "in"⟩] } 0.01)
    [.pull "p" "in"]

/-- The state after a number of steps of that session, with its ledger. -/
def poked (n : Nat) : Engine.Turn × Ledger := follow n (pokeSession, fun _ => {})

/-- The reader runs to its end twice in one trigger, and the variable has been written in between. -/
theorem rerun_poked : ∃ (s s' : Strand) (i i' : Invocation),
    (poked 10).1.completed? = some (s, "r", i) ∧ (poked 19).1.completed? = some (s', "r", i') ∧
      s'.scope.trigger = s.scope.trigger ∧
      ∃ d ∈ i.dependencies, d.2 < (poked 19).1.engine.currentVersion s'.scope d.1 := by
  have hfirst : (poked 10).1.completed?.any (fun x => x.2.1 == "r" && x.1.scope.trigger == 1) = true := by
    decide +kernel
  have hsecond : (poked 19).1.completed?.any (fun x => x.2.1 == "r" && x.1.scope.trigger == 1) = true := by
    decide +kernel
  obtain ⟨⟨s, node, i⟩, hc, hx⟩ := (Option.any_eq_true _ _).mp hfirst
  obtain ⟨⟨s', node', i'⟩, hc', hx'⟩ := (Option.any_eq_true _ _).mp hsecond
  simp only [Bool.and_eq_true, beq_iff_eq] at hx hx'
  obtain ⟨rfl, ht⟩ := hx
  obtain ⟨rfl, ht'⟩ := hx'
  obtain ⟨v, port, serial, rest, hn, -⟩ := completed?_eq_some hc
  obtain ⟨v', port', serial', rest', hn', -⟩ := completed?_eq_some hc'
  have hrun : Steps ((poked 10).1.engine.turn s (.back (.invoked v i))) (poked 19).1 := by
    have hsplit : poked 19 = follow (8 + 1) ((poked 10).1, (poked 10).2) := follow_add 10 9 _
    rw [hsplit, follow_of_next hn]
    exact steps_follow 8 _ _
  have hmem : (s', Parked.turn (.back (.invoked v' i'))) ∈ (poked 19).1.population := by
    simp [Engine.Turn.population, hn']
  refine ⟨s, s', i, i', hc, hc', ht'.trans ht.symm, ?_⟩
  exact (rerun_only_when_moved ((Recorded.start _ _ _ _ _).follow 10) hc (.turn hn) hrun hmem
    (ht'.trans ht.symm) (computes_of_completed hc')).1

end Patchbay
