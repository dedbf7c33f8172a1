import Patchbay.Proofs.Effects
import Patchbay.Proofs.Stopping

/-!
# Silence while stopped

From a stop until a run begins again, in whatever order triggers, timers, events and requests have
their turns: observers hear of no trigger that starts and of no node that control flow starts. A trigger
that has its first turn then is cancelled at once, and nobody hears of it.

Contents:
* `Engine.Turn.CallsStop`: the strand under way stops the engine.
* `Idle`: steps none of which begins a run.
* `Engine.Turn.Cancels`: a trigger that is cancelled as it begins.

Results:
* `silent_while_stopped`.
-/

namespace Patchbay

namespace Engine

/-- A change that leaves the flag cleared, and of which observers hear of no trigger that starts. -/
structure Hushed (e e' : Engine) : Prop where
  running : e'.running = false
  trace : ∃ added, e'.trace.toList = e.trace.toList ++ added ∧ ∀ n ∈ added, ¬n.StartsTrigger

namespace Hushed

variable {P : String → Prop} {e e' e'' : Engine}

theorem of_keeps (hr : e.running = false) (h : e.Keeps P e') : e.Hushed e' := by
  obtain ⟨added, ht, ha⟩ := h.trace
  refine ⟨h.running.trans hr, added, ht, fun n hn hs => ?_⟩
  have hrun := ha n hn hs
  rw [hr] at hrun
  exact absurd hrun Bool.false_ne_true

/-- A change of the graph or the variables after it. -/
theorem then_eq (h : e.Hushed e') (hr : e''.running = e'.running) (ht : e''.trace = e'.trace) :
    e.Hushed e'' :=
  ⟨hr.trans h.running, ht ▸ h.trace⟩

/-- A change of anything but what observers were told, before it. -/
theorem from_eq (h : e'.Hushed e'') (ht : e'.trace = e.trace) : e.Hushed e'' :=
  ⟨h.running, ht ▸ h.trace⟩

theorem stop (e : Engine) : e.Hushed e.stop.2 :=
  (of_keeps (P := fun _ => False) rfl (.stop e)).from_eq rfl

theorem removeNode (hr : e.running = false) (id : String) : e.Hushed (e.removeNode id).2 := by
  have hdisarm : ∀ n, e.Hushed (e.disarm n).2 := fun n => of_keeps (P := fun _ => False) hr (.disarm e n)
  rcases removeNode_cases e id with heq | ⟨n, -, heq | ⟨-, m, g, -, heq⟩⟩
  · rw [heq]
    exact of_keeps (P := fun _ => False) hr (.refl e)
  · rw [heq]
    exact hdisarm n
  · rw [heq]
    exact (hdisarm n).then_eq rfl rfl

/-- A document that can be read stops the engine, and one that cannot changes nothing. -/
theorem load {text : String} (hr : e.running = false ∨ ∃ d g, e.readGraph .byType text = .ok (d, g)) :
    e.Hushed (e.load text).2 := by
  rcases load_cases e text with ⟨⟨err, hread⟩, heq⟩ | heq | ⟨-, d, g, -, heq⟩
  · rw [heq]
    refine of_keeps (P := fun _ => False) (hr.resolve_right ?_) (.refl e)
    rintro ⟨d, g, hok⟩
    rw [hread] at hok
    cases hok
  · rw [heq]
    exact stop e
  · rw [heq]
    exact (stop e).then_eq rfl rfl

/-- While the engine is stopped no command starts a trigger. -/
theorem command (hr : e.running = false) (c : Command) : e.Hushed (e.command c).2 := by
  cases hc : c.clears with
  | false => exact of_keeps (P := fun _ => False) hr (.command e hc)
  | true =>
    have hsame : e.Hushed e := of_keeps (P := fun _ => False) hr (.refl e)
    rcases command_clears e hc with ⟨id, -, heq⟩ | ⟨text, -, heq | ⟨d, g, -, heq⟩⟩ | ⟨-, heq⟩ |
      ⟨text, -, heq⟩
    · rw [heq]
      exact removeNode hr id
    · rw [heq]
      exact hsame
    · rw [heq]
      exact hsame.then_eq rfl rfl
    · rw [heq]
      exact stop e
    · rw [heq]
      exact load (.inl hr)

end Hushed

end Engine

/-! ## Windows -/

/-- Whether the strand under way stops the engine: by a command, or by loading a document that can be
read. -/
def Engine.Turn.CallsStop (t : Engine.Turn) : Prop :=
  t.Carries .stop ∨ ∃ text d g, t.Carries (.load text) ∧ t.engine.readGraph .byType text = .ok (d, g)

/-- Steps one after another, none of which begins a run. -/
abbrev Idle : Engine.Turn → Engine.Turn → Prop :=
  Relation.ReflTransGen fun t t' => ¬t.Begins ∧ Step t t'

section Windows

variable {lo : Nat → Dependency → Nat} {L : Ledger} {t t' : Engine.Turn}

theorem Step.eq_command (h : Step t t') {c : Command} (hc : t.Carries c) :
    t'.engine = (t.engine.command c).2 := by
  obtain ⟨s, sig, hn, hsig⟩ := hc
  rw [h.eq_turn hn]
  rcases hsig with rfl | ⟨i, k, rfl⟩
  · simp only [Engine.turn, Engine.call, Engine.request]
    split <;> next heq => rw [heq]; rfl
  · rfl

/-- A strand that carries out a command starts no node. -/
theorem Engine.Turn.Carries.not_starts {c : Command} (hc : t.Carries c) (n : Notice) : ¬t.Starts n := by
  rintro ⟨s, sig, hn, hor⟩
  obtain ⟨s', sig', hn', hsig⟩ := hc
  obtain ⟨rfl, rfl⟩ := Prod.mk.inj (Option.some.inj (hn.symm.trans hn'))
  rcases hsig with rfl | ⟨i, k, rfl⟩
  · rcases hor with ha | ⟨_, _, _, _, _, hwalk, _⟩
    · exact ha.elim
    · cases hwalk
  · rcases hor with ha | ⟨_, _, _, _, _, hwalk, _⟩
    · exact ha.elim
    · cases hwalk

/-- A step of a stopped engine that begins no run. -/
theorem Step.hushed (h : Step t t') (hr : t.engine.running = false) (hb : ¬t.Begins) :
    t.engine.Hushed t'.engine := by
  cases h with
  | turn hn =>
    next s sig =>
    cases t.engine.turn_effect s sig with
    | keeps h => exact .of_keeps hr h
    | begins hbegin => exact absurd ⟨s, sig, hn, hbegin⟩ hb
    | steps _ queue h =>
      rcases h with h | ⟨hbegin, -⟩
      · rw [h]
        exact (Engine.Hushed.of_keeps (P := fun _ => False) hr (.refl t.engine)).then_eq rfl rfl
      · exact absurd ⟨s, sig, hn, hbegin⟩ hb
    | carries hc h => rw [h]; exact .command hr _
  | job hn scheduler j =>
    have h : ({ t.engine with scheduler := scheduler } : Engine).Keeps (fun _ => False) _ := .handle _ j
    have hr' : ({ t.engine with scheduler := scheduler } : Engine).running = false := hr
    exact (Engine.Hushed.of_keeps hr' h).from_eq rfl
  | request hn r => exact .of_keeps (P := fun _ => False) hr (.of_eq rfl rfl rfl rfl rfl rfl)

/-- The step that stops an engine. -/
theorem Step.hushed_stop (h : Step t t') (hs : t.CallsStop) : t.engine.Hushed t'.engine := by
  rcases hs with hc | ⟨text, d, g, hc, hread⟩
  · rw [h.eq_command hc, Engine.command_stop]
    exact .stop t.engine
  · rw [h.eq_command hc, Engine.command_load]
    exact .load (.inr ⟨d, g, hread⟩)

/-- Whether observers have heard of nothing that starts since an earlier state, and nothing is about to
start. -/
structure Silent (t₀ t : Engine.Turn) : Prop where
  running : t.engine.running = false
  idle : ∀ x ∈ t.population, ∀ n, Announces x n → ¬n.StartsExec
  trace : ∃ added, t.engine.trace.toList = t₀.engine.trace.toList ++ added ∧
    ∀ n ∈ added, ¬n.StartsTrigger ∧ ¬n.StartsExec

/-- Nothing starts by a step that leaves the flag cleared, unless it was about to. -/
theorem Orderly.silent_step {t₀ : Engine.Turn} (h : Orderly lo L t) (hs : Step t t')
    (hh : t.engine.Hushed t'.engine) (hnone : ∀ n, t.Starts n → ¬n.StartsExec)
    (htrace : ∃ added, t.engine.trace.toList = t₀.engine.trace.toList ++ added ∧
      ∀ n ∈ added, ¬n.StartsTrigger ∧ ¬n.StartsExec) : Silent t₀ t' := by
  have hev := h.evolves hs
  refine ⟨hh.running, fun x hx n ha hn => ?_, ?_⟩
  · have hrun := (hev.starts x hx n ha hn).1
    rw [hh.running] at hrun
    exact absurd hrun Bool.false_ne_true
  · obtain ⟨before, hbefore, hb⟩ := htrace
    obtain ⟨added, hadded, ha⟩ := hev.trace
    obtain ⟨added', hadded', ha'⟩ := hh.trace
    obtain rfl : added = added' := List.append_cancel_left (hadded.symm.trans hadded')
    refine ⟨before ++ added, by rw [hadded, hbefore, List.append_assoc], fun n hn => ?_⟩
    rcases List.mem_append.mp hn with hn | hn
    · exact hb n hn
    · exact ⟨ha' n hn, fun hs => hnone n (ha n hn hs) hs⟩

/-- From a stop on, as long as no run begins. -/
theorem Recorded.silent {t₀ t₁ t : Engine.Turn} (hr : Recorded t₀ L) (hstop : t₀.CallsStop)
    (hs : Step t₀ t₁) (hw : Idle t₁ t) : Silent t₀ t := by
  have hsilent : Silent t₀ t ∧ ∃ L', Orderly (fun _ _ => 0) L' t := by
    induction hw with
    | refl =>
      have hnone : ∀ n, ¬t₀.Starts n := by
        rcases hstop with hc | ⟨text, d, g, hc, -⟩
        · exact hc.not_starts
        · exact hc.not_starts
      exact ⟨hr.orderly.silent_step hs (hs.hushed_stop hstop) (fun n hn => absurd hn (hnone n))
        ⟨[], by simp, by simp⟩, _, hr.orderly.step hs⟩
    | tail _ hlast ih =>
      obtain ⟨hbefore, L', h⟩ := ih
      refine ⟨h.silent_step hlast.2 (hlast.2.hushed hbefore.running hlast.1) ?_ hbefore.trace, _,
        h.step hlast.2⟩
      rintro n ⟨s, sig, hn, ha | hreach⟩
      · exact hbefore.idle (s, .turn sig) (by simp [Engine.Turn.population, hn]) n ha
      · have hrun := hreach.1
        rw [hbefore.running] at hrun
        exact absurd hrun Bool.false_ne_true
  exact hsilent.1

end Windows

/-! ## Triggers that are cancelled -/

/-- The result of a trigger that is cancelled as it begins. -/
def Engine.cancelledTrigger (e : Engine) (node : String) : TriggerResult :=
  { trigger := e.nextTrigger, origin := node, status := .cancelled }

/-- Whether the trigger that the strand under way begins is cancelled at once, and a task that was started
for it ends with that. Observers are told nothing of it. -/
def Engine.Turn.Cancels (t : Engine.Turn) (s : Strand) (node : String) : Prop :=
  ∃ t', (∀ u, Step t u ↔ u = t') ∧ t'.engine.trace = t.engine.trace ∧
    t'.next = some (s, .back (.response (.trigger (t.engine.cancelledTrigger node)))) ∧
    ∀ id, s.frames = [.task id] → ∃ t'', (∀ u, Step t' u ↔ u = t'') ∧
      t''.engine.trace = t.engine.trace ∧ t''.next = none ∧
      ∀ k, t.engine.task? id = some k →
        (t''.engine.task? id).bind Task.outcome = some (.ok (.trigger (t.engine.cancelledTrigger node)))

section Cancelled

variable {t : Engine.Turn}

theorem step_iff {s : Strand} {sig : Signal} (hn : t.next = some (s, sig)) (u : Engine.Turn) :
    Step t u ↔ u = t.engine.turn s sig := by
  constructor
  · exact fun h => h.eq_turn hn
  · rintro rfl
    exact .turn hn

/-- Jobs that are queued change neither what observers were told nor the tasks. -/
theorem Engine.foldl_soon (id : Nat) (cs : List Callback) (e : Engine) :
    (cs.foldl (fun e c => e.soon (c.job id)) e).trace = e.trace ∧
      (cs.foldl (fun e c => e.soon (c.job id)) e).tasks = e.tasks := by
  induction cs generalizing e with
  | nil => exact ⟨rfl, rfl⟩
  | cons c rest ih => exact ih (e.soon (c.job id))

theorem Engine.trace_completeTask (e : Engine) (id : Nat) (outcome : Except Raised Response) :
    (e.completeTask id outcome).trace = e.trace := by
  unfold completeTask
  split
  · rfl
  · exact (foldl_soon id _ _).1

/-- A task that is done has its outcome. -/
theorem Engine.outcome_completeTask (e : Engine) {id : Nat} {k : Task} (hk : e.task? id = some k)
    (outcome : Except Raised Response) :
    ((e.completeTask id outcome).task? id).bind Task.outcome = some outcome := by
  simp only [completeTask, hk]
  simp only [task?] at hk
  simp only [task?, (foldl_soon id _ _).2, List.find?_map]
  have hsame : ((fun t : Task => t.id == id) ∘ fun t : Task =>
      if t.id == id then { t with outcome := some outcome, callbacks := [] } else t) =
      fun t => t.id == id := by
    funext t
    simp only [Function.comp]
    split <;> rfl
  have hid : k.id = id := by simpa using List.find?_some hk
  rw [hsame, hk]
  simp [hid]

/-- A trigger that begins while the engine is stopped. -/
theorem Engine.Turn.cancels (hr : t.engine.running = false) {s : Strand} {node : String} {origin : Origin}
    {port : Option String} {seeds : Dict}
    (hn : t.next = some (s, .call (.trigger node origin port seeds))) : t.Cancels s node := by
  have hturn : t.engine.turn s (.call (.trigger node origin port seeds)) =
      { t.engine with nextTrigger := t.engine.nextTrigger + 1 }.go s
        (.back (.response (.trigger (t.engine.cancelledTrigger node)))) := by
    simp only [Engine.turn, Engine.call, Engine.startTrigger, Engine.freshScope, hr, Bool.not_false, if_true]
    rfl
  refine ⟨_, step_iff hn, by rw [hturn]; rfl, by rw [hturn]; rfl, fun id hframes => ?_⟩
  have hback : (t.engine.turn s (.call (.trigger node origin port seeds))).next =
      some (s, .back (.response (.trigger (t.engine.cancelledTrigger node)))) := by rw [hturn]; rfl
  have hlast : (t.engine.turn s (.call (.trigger node origin port seeds))).engine.turn s
      (.back (.response (.trigger (t.engine.cancelledTrigger node)))) =
      ⟨({ t.engine with nextTrigger := t.engine.nextTrigger + 1 } : Engine).completeTask id
        (.ok (.trigger (t.engine.cancelledTrigger node))), none⟩ := by
    rw [hturn]
    simp only [Engine.turn, hframes]
    rfl
  refine ⟨_, step_iff hback, ?_, ?_, fun k hk => ?_⟩
  · rw [hlast]
    exact Engine.trace_completeTask _ _ _
  · rw [hlast]
  · rw [hlast]
    exact Engine.outcome_completeTask { t.engine with nextTrigger := t.engine.nextTrigger + 1 } hk _

end Cancelled

/-- In any interleaving between a stop and the beginning of the next run the flag stays cleared, observers
hear of no trigger that starts and of no node that control flow starts, and every trigger that has its
first turn is cancelled without a word. -/
theorem silent_while_stopped {t₀ t₁ t : Engine.Turn} {L : Ledger} (hr : Recorded t₀ L)
    (hstop : t₀.CallsStop) (hs : Step t₀ t₁) (hw : Idle t₁ t) :
    t.engine.running = false ∧ (∀ n ∈ toldSince t₀ t, ¬n.StartsTrigger ∧ ¬n.StartsExec) ∧
      ∀ s node origin port seeds, t.next = some (s, .call (.trigger node origin port seeds)) →
        t.Cancels s node := by
  have h := hr.silent hstop hs hw
  refine ⟨h.running, fun n hn => ?_, fun s node origin port seeds hn => Engine.Turn.cancels h.running hn⟩
  obtain ⟨added, htrace, hadded⟩ := h.trace
  exact hadded n ((mem_toldSince_iff htrace).mp hn)

/-! ## A loop that is stopped -/

/-- Whether the strand under way has a request for a run, for a step or to run one node. -/
def Engine.Turn.asksRun (t : Engine.Turn) : Bool :=
  match t.next with
  | some (_, .call .run) => true
  | some (_, .call (.request .step)) => true
  | some (_, .call (.request (.runNode _))) => true
  | _ => false

theorem Engine.Turn.Begins.asksRun {t : Engine.Turn} (h : t.Begins) : t.asksRun = true := by
  obtain ⟨s, sig, hn, hb⟩ := h
  unfold Engine.Begins at hb
  unfold Engine.Turn.asksRun
  rw [hn]
  split at hb
  · rfl
  · rfl
  · rfl
  · exact hb.elim

/-- Whether the strand under way begins a trigger on a task of its own. -/
def Engine.Turn.startsTask (t : Engine.Turn) : Bool :=
  match t.next with
  | some ({ frames := [.task _], .. }, .call (.trigger _ _ _ _)) => true
  | _ => false

theorem Engine.Turn.exists_of_startsTask {t : Engine.Turn} (h : t.startsTask = true) :
    ∃ s id node origin port seeds, s.frames = [.task id] ∧
      t.next = some (s, .call (.trigger node origin port seeds)) := by
  unfold startsTask at h
  split at h
  · next hn => exact ⟨_, _, _, _, _, _, rfl, hn⟩
  · cases h

theorem idle_follow (n : Nat) (t : Engine.Turn) (L : Ledger)
    (h : ∀ i < n, (follow i (t, L)).1.asksRun = false) : Idle t (follow n (t, L)).1 := by
  induction n generalizing t L with
  | zero => exact .refl
  | succ n ih =>
    have hnow : ¬t.Begins := fun hb => by
      have hfalse := h 0 (Nat.succ_pos n)
      rw [follow, hb.asksRun] at hfalse
      cases hfalse
    rw [follow]
    split
    · exact .refl
    · next t' ht =>
      refine (ih t' (L.after t) fun i hi => ?_).head ⟨hnow, .of_advance ht⟩
      have hlater := h (i + 1) (Nat.succ_lt_succ hi)
      simpa only [follow, ht] using hlater

/-- A run comes to a node that pauses and leads to itself. Another trigger is fired while it pauses, and
all is stopped before that has its first turn. -/
def loopSession : Engine.Turn :=
  opening (.initial {}
    { kinds := [.sketch "event.start" .event [] [Library.leads "exec"] none,
        .sketch "pause" .statement [{ id := "exec", valueType := .exec }] [Library.leads "exec"] (some pausing)] }
    { nodes := [{ serial := 0, id := "s", kind := "event.start" }, { serial := 1, id := "p", kind := "pause" }]
      edges := [⟨"s", "exec", "p", "exec"⟩, ⟨"p", "exec", "p", "exec"⟩] } 0.01)
    [.startRun "r", .tick 2, .command (.fire "s" "exec" []), .command .stop, .tick 3]

/-- The state after a number of steps of that session, with its ledger. -/
def looped (n : Nat) : Engine.Turn × Ledger := follow n (loopSession, fun _ => {})

/-- The trigger that was fired has its first turn after the stop, and is cancelled. -/
theorem silent_while_stopped_looped : (looped 29).1.engine.running = false ∧
    (∀ n ∈ toldSince (looped 18).1 (looped 29).1, ¬n.StartsTrigger ∧ ¬n.StartsExec) ∧
    ∃ s id node, s.frames = [.task id] ∧ (looped 29).1.Cancels s node := by
  have hstops : (looped 18).1.stops = true := by decide +kernel
  have hnext : (Engine.advance (looped 18).1).isSome = true := by decide +kernel
  have hasks : ∀ i < 10, (follow i (looped 19)).1.asksRun = false := by decide +kernel
  have hstarts : (looped 29).1.startsTask = true := by decide +kernel
  have hcalls : (looped 18).1.CallsStop := by
    unfold Engine.Turn.stops at hstops
    split at hstops
    · next s hn => exact .inl ⟨s, _, hn, .inl rfl⟩
    · cases hstops
  have hstep : Step (looped 18).1 (looped 19).1 := .of_advance (advance_follow hnext)
  have hidle : Idle (looped 19).1 (looped 29).1 := by
    have hadd : looped 29 = follow 10 ((looped 19).1, (looped 19).2) := follow_add 19 10 _
    rw [hadd]
    exact idle_follow 10 _ _ hasks
  obtain ⟨hrun, htold, hcancels⟩ :=
    silent_while_stopped ((Recorded.start _ _ _ _ _).follow 18) hcalls hstep hidle
  obtain ⟨s, id, node, origin, port, seeds, hframes, hn⟩ := Engine.Turn.exists_of_startsTask hstarts
  exact ⟨hrun, htold, s, id, node, hframes, hcancels s node origin port seeds hn⟩

end Patchbay
