import Patchbay.Proofs.Interleaving

/-!
# What a stop ends

A stop clears one flag for all triggers, and control flow asks that flag at every node. While the flag
stays cleared no trigger starts another node, wherever it waited. But the flag belongs to no run in
particular: a run, a step or a request to run one node sets it again, and a trigger that was stopped
goes on if it comes to its next node only then.

Results:
* `starts_after_stop_iff`: the nodes that are started after a stop, in any interleaving.
* `started_though_stopped`: a trigger that was stopped and starts its next node.
-/

namespace Patchbay

/-- What observers were told since an earlier state. -/
def toldSince (t₀ t : Engine.Turn) : List Notice := t.engine.trace.toList.drop t₀.engine.trace.size

/-- Whether control flow of the strand under way reaches a node while the engine runs, and what
observers are then told. -/
def Engine.Turn.Reaching (t : Engine.Turn) (n : Notice) : Prop :=
  ∃ s sig, t.next = some (s, sig) ∧ Reaches t.engine s sig n

/-- Whether a request to run something has set the flag between two states. -/
def Rerun (t t' : Engine.Turn) : Prop :=
  ∃ u u', Steps t u ∧ u.engine.running = false ∧ u.BeginsRun ∧ Step u u' ∧ u'.engine.running = true ∧
    Steps u' t'

section Traces

variable {lo : Nat → Dependency → Nat} {L : Ledger} {t₀ t : Engine.Turn} {n : Notice}

/-- Observers are told more and more. -/
theorem Orderly.trace_extends (h : Orderly lo L t₀) (hs : Steps t₀ t) :
    ∃ added, t.engine.trace.toList = t₀.engine.trace.toList ++ added := by
  refine (h.along hs (P := fun u => ∃ added, u.engine.trace.toList = t₀.engine.trace.toList ++ added)
    ⟨[], by simp⟩ fun _ hu hstep hbefore => ?_).1
  obtain ⟨added, htrace⟩ := hbefore
  obtain ⟨more, hmore, -⟩ := (hu.evolves hstep).trace
  exact ⟨added ++ more, by rw [hmore, htrace, List.append_assoc]⟩

theorem mem_toldSince_iff {added : List Notice}
    (h : t.engine.trace.toList = t₀.engine.trace.toList ++ added) : n ∈ toldSince t₀ t ↔ n ∈ added := by
  have hlen : t₀.engine.trace.size = t₀.engine.trace.toList.length := by simp
  rw [toldSince, h, hlen, List.drop_left]

/-- Of a node that was started, or is about to be, control flow had reached it while the engine ran. -/
theorem Orderly.reached (h : Orderly lo L t₀)
    (hquiet : ∀ x ∈ t₀.population, ∀ n, Announces x n → ¬n.StartsExec) (hs : Steps t₀ t) :
    ∀ n, n.StartsExec → n ∈ toldSince t₀ t ∨ (∃ x ∈ t.population, Announces x n) →
      ∃ u, Steps t₀ u ∧ Steps u t ∧ u.Reaching n := by
  refine (h.along hs (P := fun t => ∀ n, n.StartsExec → n ∈ toldSince t₀ t ∨
    (∃ x ∈ t.population, Announces x n) → ∃ u, Steps t₀ u ∧ Steps u t ∧ u.Reaching n) ?_ ?_).1
  · intro n hn hor
    have hnil : t₀.engine.trace.toList = t₀.engine.trace.toList ++ [] := by simp
    rcases hor with hmem | ⟨x, hx, ha⟩
    · rw [mem_toldSince_iff hnil] at hmem
      simp at hmem
    · exact absurd hn (hquiet x hx n ha)
  · intro t t' L' hfirst h' hlast ih n hn hor
    have hev := h'.evolves hlast
    have hearlier : (∃ u, Steps t₀ u ∧ Steps u t ∧ u.Reaching n) →
        ∃ u, Steps t₀ u ∧ Steps u t' ∧ u.Reaching n := by
      rintro ⟨u, hu, hu', hreach⟩
      exact ⟨u, hu, hu'.tail hlast, hreach⟩
    have hstarts : t.Starts n → ∃ u, Steps t₀ u ∧ Steps u t' ∧ u.Reaching n := by
      rintro ⟨s, sig, hnext, ha | hreach⟩
      · refine hearlier (ih n hn (.inr ⟨(s, .turn sig), ?_, ha⟩))
        simp [Engine.Turn.population, hnext]
      · exact ⟨t, hfirst, .single hlast, s, sig, hnext, hreach⟩
    rcases hor with hmem | ⟨x, hx, ha⟩
    · obtain ⟨added, htrace⟩ := h.trace_extends hfirst
      obtain ⟨more, hmore, hnew⟩ := hev.trace
      have hall : t'.engine.trace.toList = t₀.engine.trace.toList ++ (added ++ more) := by
        rw [hmore, htrace, List.append_assoc]
      rw [mem_toldSince_iff hall, List.mem_append] at hmem
      rcases hmem with hmem | hmem
      · exact hearlier (ih n hn (.inl ((mem_toldSince_iff htrace).mpr hmem)))
      · exact hstarts (hnew n hmem hn)
    · exact hstarts (hev.starts x hx n ha hn).2

/-- A strand is about to start a node by control flow only while the engine runs. -/
theorem Recorded.running_of_announces (h : Recorded t L) {x : Strand × Parked} (hx : x ∈ t.population)
    (ha : Announces x n) (hn : n.StartsExec) : t.engine.running = true := by
  cases h with
  | start config registry graph shortest requests =>
    obtain ⟨-, r, hr⟩ := eq_request_of_mem_opening hx
    obtain ⟨s, p⟩ := x
    subst hr
    exact ha.elim
  | step h hs => exact (h.orderly.evolves hs |>.starts x hx n ha hn).1

/-! ## Nodes that are reached -/

/-- What is under way goes on before anything else does. -/
theorem Steps.turn {t t' : Engine.Turn} (h : Steps t t') {s : Strand} {sig : Signal}
    (hn : t.next = some (s, sig)) (hn' : t'.next = none) : Steps (t.engine.turn s sig) t' := by
  cases h using Relation.ReflTransGen.head_induction_on with
  | refl => rw [hn] at hn'; simp at hn'
  | head hstep hrest => exact hstep.eq_turn hn ▸ hrest

/-- A node that control flow reaches while the engine runs has started when the strand next waits. -/
theorem Orderly.told_of_reaching (h : Orderly lo L t₀) (hr : t₀.Reaching n) (hs : Steps t₀ t)
    (hn : t.next = none) : n ∈ toldSince t₀ t := by
  obtain ⟨s, sig, hnext, hrun, node, rest, x, k, rfl, hk, rfl⟩ := hr
  have hs₁ := hs.turn hnext hn
  have h₁ := h.step (.turn hnext)
  -- whichever turn tells of it, the rest of the run only adds to the trace
  have htold : ∀ {u : Engine.Turn} {L' : Ledger}, Orderly lo L' u → Steps u t →
      t₀.engine.trace.toList ++ [.nodeStarted s.scope.trigger node k.id .exec] <+: u.engine.trace.toList →
      .nodeStarted s.scope.trigger node k.id .exec ∈ toldSince t₀ t := by
    rintro u L' hu hut ⟨more, hmore⟩
    obtain ⟨added, hadded⟩ := hu.trace_extends hut
    rw [← hmore, List.append_assoc, List.append_assoc] at hadded
    rw [mem_toldSince_iff hadded]
    exact List.mem_append_left _ (List.mem_singleton_self _)
  cases hb : k.behavior with
  | none =>
    refine htold h₁ hs₁ ?_
    simp only [Engine.turn, Engine.call, Engine.walk, hrun, hk, hb, Bool.not_true, Bool.false_eq_true,
      if_false, Engine.go, Engine.emitStarted, Engine.emitFinished, Engine.emit, Array.toList_push]
    exact List.prefix_append _ _
  | some b =>
    have hturn : t₀.engine.turn s (.call (.walk (node :: rest))) = t₀.engine.nest s (.walk rest)
        (.invoke { serial := x.serial, node := node, kind := k, mode := .exec }) := by
      simp only [Engine.turn, Engine.call, Engine.walk, hrun, hk, hb, Bool.not_true, Bool.false_eq_true,
        if_false]
    rw [hturn] at hs₁ h₁
    refine htold (h₁.step (.turn rfl)) (hs₁.turn rfl hn) ?_
    simp only [Engine.nest, Engine.go, Engine.turn, Engine.call, Engine.invoke, hb, Engine.emitStarted,
      Engine.emit, Array.toList_push]
    exact List.prefix_rfl

/-- A flag that was cleared and is set has been set by a request to run something. -/
theorem Orderly.rerun (h : Orderly lo L t₀) (hs : Steps t₀ t) (h₀ : t₀.engine.running = false)
    (hrun : t.engine.running = true) : Rerun t₀ t := by
  refine (h.along hs (P := fun t => t.engine.running = true → Rerun t₀ t) ?_ ?_).1 hrun
  · intro h₁
    rw [h₀] at h₁
    exact absurd h₁ Bool.false_ne_true
  · intro u u' L' hbefore hu hstep ih hu'
    cases hflag : u.engine.running with
    | true =>
      obtain ⟨v, v', hv, hv₀, hbegin, hset, hv₁, hrest⟩ := ih hflag
      exact ⟨v, v', hv, hv₀, hbegin, hset, hv₁, hrest.tail hstep⟩
    | false =>
      have hbegin := (hu.evolves hstep).running hu'
      rw [hflag] at hbegin
      exact ⟨u, u', hbefore, hflag, hbegin.resolve_left Bool.false_ne_true, hstep, hu', .refl⟩

end Traces

/-- In any interleaving after a stop, up to where all strands wait, a trigger starts a node by control flow
exactly when a new run has begun and the control flow of the trigger reaches the node while the flag is
set, whichever run the trigger was of. -/
theorem starts_after_stop_iff {t₀ t : Engine.Turn} {L : Ledger} (hr : Recorded t₀ L)
    (hstop : t₀.engine.running = false) (hs : Steps t₀ t) (hn : t.next = none) (T : Nat)
    (node kind : String) :
    .nodeStarted T node kind .exec ∈ toldSince t₀ t ↔
      ∃ u, Rerun t₀ u ∧ Steps u t ∧ u.Reaching (.nodeStarted T node kind .exec) := by
  have h := hr.orderly
  constructor
  · intro hmem
    have hquiet : ∀ x ∈ t₀.population, ∀ n, Announces x n → ¬n.StartsExec := by
      intro x hx n ha hexec
      rw [hr.running_of_announces hx ha hexec] at hstop
      exact absurd hstop.symm Bool.false_ne_true
    have hexec : (Notice.nodeStarted T node kind .exec).StartsExec := trivial
    obtain ⟨u, hu, hut, hreach⟩ := h.reached hquiet hs _ hexec (.inl hmem)
    have hrun : u.engine.running = true := by
      obtain ⟨s, sig, -, hrun, -⟩ := hreach
      exact hrun
    exact ⟨u, h.rerun hu hstop hrun, hut, hreach⟩
  · rintro ⟨u, ⟨v, v', hv, -, -, hstep, -, hv'⟩, hut, hreach⟩
    have hu : Steps t₀ u := (hv.tail hstep).trans hv'
    obtain ⟨L', h'⟩ := h.steps hu
    obtain ⟨before, hbefore⟩ := h.trace_extends hu
    obtain ⟨after, hafter⟩ := h'.trace_extends hut
    have hall : t.engine.trace.toList = t₀.engine.trace.toList ++ (before ++ after) := by
      rw [hafter, hbefore, List.append_assoc]
    have hmem := h'.told_of_reaching hreach hut hn
    rw [mem_toldSince_iff hafter] at hmem
    rw [mem_toldSince_iff hall]
    exact List.mem_append_right _ hmem

/-! ## A trigger that outlives its stop -/

/-- Whether a strand runs a root trigger. -/
def Strand.inTrigger (s : Strand) : Bool :=
  s.frames.any fun
    | .trigger _ _ => true
    | _ => false

/-- Whether the strand under way has a request to stop. -/
def Engine.Turn.stops (t : Engine.Turn) : Bool :=
  match t.next with
  | some (_, .call (.request (.command .stop))) => true
  | _ => false

/-- Whether observers are told that control flow has started a given node. -/
def Notice.isStart (T : Nat) (node kind : String) : Notice → Bool
  | .nodeStarted T' node' kind' .exec => T' == T && node' == node && kind' == kind
  | _ => false

theorem Notice.eq_of_isStart {T : Nat} {node kind : String} {n : Notice} (h : n.isStart T node kind = true) :
    n = .nodeStarted T node kind .exec := by
  unfold Notice.isStart at h
  split at h
  · simp only [Bool.and_eq_true, beq_iff_eq] at h
    obtain ⟨⟨rfl, rfl⟩, rfl⟩ := h
    rfl
  · exact absurd h Bool.false_ne_true

/-- Gives way to others, and ends. -/
def pausing : Behavior := fun _ => .wait .checkpoint fun _ => .finish .null

/-- A run comes to a node that pauses; it is stopped there, and then the node after it is run alone. -/
def pauseSession : Engine.Turn :=
  opening (.initial {}
    { kinds := [.sketch "event.start" .event [] [Library.leads "exec"] none,
        .sketch "pause" .statement [{ id := "exec", valueType := .exec }] [Library.leads "exec"] (some pausing),
        .sketch "mark" .statement [{ id := "exec", valueType := .exec }] [] none] }
    { nodes := [{ serial := 0, id := "s", kind := "event.start" }, { serial := 1, id := "p", kind := "pause" },
        { serial := 2, id := "m", kind := "mark" }]
      edges := [⟨"s", "exec", "p", "exec"⟩, ⟨"p", "exec", "m", "exec"⟩] } 0.01)
    [.startRun "r", .tick 2, .command .stop, .runNode "m", .tick 3]

/-- The state after a number of steps of that session, with its ledger. -/
def paused (n : Nat) : Engine.Turn × Ledger := follow n (pauseSession, fun _ => {})

theorem steps_paused (m n : Nat) : Steps (paused m).1 (paused (m + n)).1 := by
  have hsplit : paused (m + n) = follow n ((paused m).1, (paused m).2) := follow_add m n _
  rw [hsplit]
  exact steps_follow n _ _

theorem told_paused : .nodeStarted 1 "m" "mark" .exec ∈ toldSince (paused 17).1 (paused 34).1 := by
  have htold : (toldSince (paused 17).1 (paused 34).1).any (Notice.isStart 1 "m" "mark") = true := by
    decide +kernel
  obtain ⟨n, hmem, hn⟩ := List.any_eq_true.mp htold
  exact Notice.eq_of_isStart hn ▸ hmem

/-- The node after the pause is started because the request to run it alone has set the flag again. -/
theorem starts_after_stop_paused : ∃ u, Rerun (paused 17).1 u ∧ Steps u (paused 34).1 ∧
    u.Reaching (.nodeStarted 1 "m" "mark" .exec) := by
  have hstop : (paused 17).1.engine.running = false := by decide +kernel
  have hwaits : (paused 34).1.next.isNone = true := by decide +kernel
  have hr : Recorded (paused 17).1 (paused 17).2 := (Recorded.start _ _ _ _ _).follow 17
  exact (starts_after_stop_iff hr hstop (steps_paused 17 17) (Option.isNone_iff_eq_none.mp hwaits) 1 "m"
    "mark").mp told_paused

/-- A trigger that is in flight when it is stopped starts another node. -/
theorem started_though_stopped : ∃ (u t₀ t : Engine.Turn) (L : Ledger) (T : Nat) (node kind : String),
    Recorded u L ∧ u.stops = true ∧ (∃ x ∈ u.engine.strands, x.1.scope.trigger = T ∧ x.1.inTrigger = true) ∧
      Step u t₀ ∧ t₀.engine.running = false ∧ Steps t₀ t ∧
      .nodeStarted T node kind .exec ∈ toldSince t₀ t := by
  have hstops : (paused 16).1.stops = true := by decide +kernel
  have hflight : (paused 16).1.engine.strands.any
      (fun x => x.1.scope.trigger == 1 && x.1.inTrigger) = true := by decide +kernel
  have hstop : (paused 17).1.engine.running = false := by decide +kernel
  have hnext : (Engine.advance (paused 16).1).isSome = true := by decide +kernel
  obtain ⟨x, hx, hin⟩ := List.any_eq_true.mp hflight
  rw [Bool.and_eq_true, beq_iff_eq] at hin
  obtain ⟨t', ht'⟩ := Option.isSome_iff_exists.mp hnext
  have hsplit : paused 17 = (t', (paused 16).2.after (paused 16).1) := by
    have hadd : paused 17 = follow 1 ((paused 16).1, (paused 16).2) := follow_add 16 1 _
    rw [hadd]
    simp only [follow, ht']
  refine ⟨_, _, _, _, 1, "m", "mark", (Recorded.start _ _ _ _ _).follow 16, hstops, ⟨x, hx, hin⟩, ?_, hstop,
    steps_paused 17 17, told_paused⟩
  rw [hsplit]
  exact .of_advance ht'

end Patchbay
