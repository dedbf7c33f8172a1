import Mathlib.Tactic.IntervalCases
import Patchbay.Proofs.Births
import Patchbay.Proofs.Likeness

/-!
# Isolation of triggers

A trigger is followed through two runs of one program that behaves alike in every trigger. Whatever else goes
on in the two runs, the trigger has the same turns in both: other triggers may begin, end, fail or wait
between its turns, and it may be alone in one of the runs. So what is heard of it, the values that its
behaviours ask for and its result are the same but for its number.

Contents:
* `turnsIn`: the turns that a run has taken inside a trigger; `pulledIn`: the values they bring to behaviours.
* `Course`: a run in which a trigger begins while the program stays as it is.
* `Lockstep`: two states in which a trigger has come equally far.

Results:
* `Play.rests`: while an engine runs, sleeps last their time.
* `Lockstep.idle_left`, `Lockstep.idle_right`, `Lockstep.turn`: what the states of two runs keep in step.
* `lockstep_run`: after as many turns the trigger has come equally far in both runs.
* `triggers_isolated`: the trigger is the same in both runs.
-/

namespace Patchbay

/-! ## Sleeps of a run -/

namespace Engine

/-- A command after which the engine runs ends no sleep early. -/
theorem rests_command (e : Engine) (c : Command) (hrun : (e.command c).2.running = true) :
    e.scheduler.Rests (e.command c).2.scheduler := by
  cases hc : c.clears with
  | false =>
    have hk : e.Keeps (fun _ => False) (e.command c).2 := .command e hc
    exact hk.sleeps (hk.running.symm.trans hrun)
  | true =>
    have hstop : e.stop.2.running = false := (Keeps.stop (P := fun _ => False) e).running
    have hdisarm : ∀ n, (e.disarm n).2.running = true → e.scheduler.Rests (e.disarm n).2.scheduler := by
      intro n hn
      have hk : e.Keeps (fun _ => False) (e.disarm n).2 := .disarm e n
      exact hk.sleeps (hk.running.symm.trans hn)
    rcases command_clears e hc with ⟨id, -, h⟩ | ⟨text, -, h | ⟨d, g, -, h⟩⟩ | ⟨-, h⟩ | ⟨text, -, h⟩
    · rw [h] at hrun ⊢
      rcases removeNode_cases e id with h | ⟨n, -, h | ⟨-, m, g, -, h⟩⟩
      · rw [h]
        exact .refl _
      · rw [h] at hrun ⊢
        exact hdisarm n hrun
      · rw [h] at hrun ⊢
        exact hdisarm n hrun
    · rw [h]
      exact .refl _
    · rw [h]
      exact .refl _
    · rw [h, hstop] at hrun
      cases hrun
    · rw [h] at hrun ⊢
      rcases load_cases e text with ⟨-, h⟩ | h | ⟨-, d, g, -, h⟩
      · rw [h]
        exact .refl _
      · rw [h, hstop] at hrun
        cases hrun
      · rw [h] at hrun
        cases hstop.symm.trans hrun

end Engine

/-- While an engine runs, sleeps last their time. -/
theorem Play.rests {t t' : Engine.Turn} (hp : Play t t') (hrun : t'.engine.running = true) :
    t.engine.scheduler.Rests t'.engine.scheduler := by
  cases hp.effect with
  | keeps hk => exact hk.sleeps (hk.running.symm.trans hrun)
  | begins hk => exact hk.sleeps rfl
  | steps _ queue heq => rcases heq with heq | heq <;> rw [heq] <;> exact .of_eq rfl rfl
  | @carries c _ heq =>
    rw [heq] at hrun ⊢
    exact t.engine.rests_command c hrun

/-- A strand goes on with what it waits for, where sleeps last their time. -/
theorem Awaits.wake {z : Nat} {s s' : Strand} {sig : Signal} {q : Parked} {e e₁ : Engine}
    (h : Awaits z s sig (s', q)) (hlasts : e.scheduler.Lasts z) (hcome : e.hasCome q = true)
    (hsched : e₁.scheduler = e.scheduler) : Awaits z s sig (s', .turn (e₁.unpark q).1) := by
  refine ⟨h.1, ?_⟩
  have hsig := h.2
  cases q with
  | turn next => exact hsig
  | sleep id =>
    rw [Parked.signal?, ite_eq_iff] at hsig
    obtain ⟨hz, hflag⟩ := hsig.resolve_right fun h => by cases h.2
    have hended : (e₁.scheduler.endSleep id).1 = true := by
      rw [hsched]
      exact hlasts.flag_endSleep hz hcome
    show some (Signal.back (.flag (e₁.scheduler.endSleep id).1)) = some sig
    rw [hended, hflag]
  | task id => cases hsig
  | gather id => cases hsig

/-! ## Turns inside a trigger -/

instance : DecidablePred Frame.Outer
  | .arming _ _ _ | .gathering _ | .direct | .joining _ | .ticking _ | .advancing | .task _ | .session =>
    .isTrue trivial
  | .behavior _ _ _ | .walk _ | .output _ _ _ | .hop | .trigger _ _ | .value => .isFalse id

/-- The strand under way and what it does next, when it is inside a trigger. -/
def Engine.Turn.turnIn (t : Engine.Turn) (T : Nat) : Option (Strand × Signal) :=
  t.next.filter fun x => x.1.scope.trigger = T ∧ ¬∀ f ∈ x.1.frames, f.Outer

/-- The turns that a run has taken inside a trigger before a state, oldest first. -/
def turnsIn (run : Nat → Engine.Turn) (T k : Nat) : List (Strand × Signal) :=
  (List.range k).filterMap fun j => (run j).turnIn T

/-- The value that a turn brings to a behaviour, with the node and the input that it was asked for. -/
def Strand.pulled? (s : Strand) (sig : Signal) : Option (String × String × Value) :=
  match s.frames, sig with
  | .behavior i (.pull port) _ :: _, .back (.pulled v _) => some (i.node, port, v)
  | _, _ => none

/-- The values that were pulled inside a trigger before a state of a run, oldest first. -/
def pulledIn (run : Nat → Engine.Turn) (T k : Nat) : List (String × String × Value) :=
  (turnsIn run T k).filterMap fun x => x.1.pulled? x.2

section Turns

variable {run : Nat → Engine.Turn} {t : Engine.Turn} {s : Strand} {sig : Signal} {T k : Nat}

theorem Engine.Turn.turnIn_eq_some :
    t.turnIn T = some (s, sig) ↔
      t.next = some (s, sig) ∧ s.scope.trigger = T ∧ ¬∀ f ∈ s.frames, f.Outer := by
  rw [turnIn, Option.filter_eq_some_iff]
  simp

theorem Engine.Turn.outer_of_turnIn (h : t.turnIn T = none) (hn : t.next = some (s, sig))
    (hs : s.scope.trigger = T) : ∀ f ∈ s.frames, f.Outer := by
  by_contra hin
  rw [turnIn_eq_some.mpr ⟨hn, hs, hin⟩] at h
  cases h

theorem turnsIn_succ (run : Nat → Engine.Turn) (T k : Nat) :
    turnsIn run T (k + 1) = turnsIn run T k ++ ((run k).turnIn T).toList := by
  rw [turnsIn, turnsIn, List.range_succ, List.filterMap_append]
  cases h : (run k).turnIn T <;> simp [h]

theorem turnsIn_succ_of_none (h : (run k).turnIn T = none) : turnsIn run T (k + 1) = turnsIn run T k := by
  rw [turnsIn_succ, h]
  exact List.append_nil _

theorem pulledIn_succ_of_none (h : (run k).turnIn T = none) : pulledIn run T (k + 1) = pulledIn run T k := by
  rw [pulledIn, pulledIn, turnsIn_succ_of_none h]

theorem length_turnsIn_succ {x : Strand × Signal} (h : (run k).turnIn T = some x) :
    (turnsIn run T (k + 1)).length = (turnsIn run T k).length + 1 := by
  rw [turnsIn_succ, h]
  exact List.length_append

theorem pulledIn_succ (h : (run k).turnIn T = some (s, sig)) :
    pulledIn run T (k + 1) = pulledIn run T k ++ (s.pulled? sig).toList := by
  rw [pulledIn, turnsIn_succ, h, List.filterMap_append]
  cases hp : s.pulled? sig <;> simp [pulledIn, hp]

/-- The turn of a given number. -/
theorem exists_turnIn {m : Nat} (h : m < (turnsIn run T k).length) :
    ∃ j < k, ∃ x, (run j).turnIn T = some x ∧ (turnsIn run T j).length = m := by
  induction k with
  | zero => cases h
  | succ k ih =>
    cases hturn : (run k).turnIn T with
    | none =>
      rw [turnsIn_succ_of_none hturn] at h
      obtain ⟨j, hj, hrest⟩ := ih h
      exact ⟨j, hj.trans (Nat.lt_succ_self k), hrest⟩
    | some x =>
      rw [length_turnsIn_succ hturn] at h
      rcases Nat.lt_succ_iff_lt_or_eq.mp h with hlt | rfl
      · obtain ⟨j, hj, hrest⟩ := ih hlt
        exact ⟨j, hj.trans (Nat.lt_succ_self k), hrest⟩
      · exact ⟨k, Nat.lt_succ_self k, x, hturn, rfl⟩

/-- Other turns tell nothing of a trigger that has begun. -/
theorem Engine.Turn.toldOf_of_turnIn {lo : Nat → Dependency → Nat} {L : Ledger} (h : Orderly lo L t)
    (hknown : T < t.engine.nextTrigger) (hturn : t.turnIn T = none) : t.toldOf T = [] := by
  cases hn : t.next with
  | none => exact toldOf_of_none hn T
  | some x =>
    obtain ⟨s, sig⟩ := x
    by_cases hs : s.scope.trigger = T
    · have hf := outer_of_turnIn hturn hn hs
      have hsig := (h.placed _ (mem_population_of_next hn)).sits.outer_of_frames hf
      rw [toldOf, told_of_next hn, List.filter_eq_nil_iff]
      intro n hmem
      obtain ⟨node, origin, port, seeds, -, rfl⟩ := Engine.started_of_mem_told hf hsig hmem
      simpa [Notice.trigger?] using hknown.ne'
    · refine toldOf_eq_nil hknown fun s' sig' hn' => ?_
      obtain ⟨rfl, rfl⟩ := Prod.mk.inj (Option.some.inj (hn.symm.trans hn'))
      exact hs

end Turns

/-! ## A trigger in one run -/

/-- A run up to a state `n` in which something begins at a state `a`. From then on the engine runs, and its
program stays as it is. -/
structure Course (p : Program) (c : Call) (run : Nat → Engine.Turn) (a n : Nat) : Prop where
  opens : Opens (run 0)
  plays : ∀ k < n, Play (run k) (run (k + 1))
  starts : a < n
  begins : ∃ s, (run a).next = some (s, .call c)
  program : ∀ k, a ≤ k → k ≤ n → (run k).engine.program = p
  running : ∀ k, a ≤ k → k ≤ n → (run k).engine.running = true

namespace Course

variable {p : Program} {c : Call} {run : Nat → Engine.Turn} {a n k : Nat}

theorem orderly (h : Course p c run a n) (hk : k ≤ n) : ∃ L, Orderly (fun _ _ => 0) L (run k) :=
  orderly_run h.opens h.plays hk

/-- The sleeps that begin with the trigger or later last their time. -/
theorem lasts (h : Course p c run a n) (hak : a ≤ k) (hk : k ≤ n) :
    (run a).engine.scheduler.nextSleeper ≤ (run k).engine.scheduler.nextSleeper ∧
      (run k).engine.scheduler.Lasts (run a).engine.scheduler.nextSleeper := by
  induction k, hak using Nat.le_induction with
  | base => exact ⟨Nat.le_refl _, (reachable_run h.opens h.plays hk).kempt.scheduler.lasts⟩
  | succ k hak ih =>
    obtain ⟨hle, hlasts⟩ := ih (Nat.le_of_succ_le hk)
    have hrests := (h.plays k hk).rests (h.running (k + 1) (Nat.le_succ_of_le hak) hk)
    exact ⟨hle.trans hrests.next, hlasts.rests hrests⟩

end Course

section Waiting

variable {lo : Nat → Dependency → Nat} {L : Ledger} {t t' : Engine.Turn} {T z : Nat} {s : Strand} {sig : Signal}

/-- What the strand of a trigger goes on with does not depend on what happens beside it. -/
theorem During.awaits_idle (h : Orderly lo L t) (hT : T ≠ 0) (hknown : T < t.engine.nextTrigger) (hp : Play t t')
    (hlasts : t.engine.scheduler.Lasts z) (hturn : t.turnIn T = none) (hi : During T (Awaits z s sig) t) :
    During T (Awaits z s sig) t' := by
  cases hp with
  | @turn s' sig' hn =>
    by_cases hs : s'.scope.trigger = T
    · exact .outer h hT hknown hn hs (Engine.Turn.outer_of_turnIn hturn hn hs)
    · exact .other h hT hknown hn hs hi
  | job hn loop j =>
    rw [During, population_of_none hn] at hi
    intro x hx hxT
    rcases Engine.handle_waits _ j hx (hxT ▸ hT) with hold | ⟨q, e₁, hold, hcome, hsched, hq⟩
    · exact hi x hold hxT
    · obtain ⟨s', q'⟩ := x
      obtain rfl : q' = .turn (e₁.unpark q).1 := hq
      refine (hi (s', q) hold hxT).imp_right fun haw => haw.wake ?_ hcome hsched
      exact hlasts
  | request hn r =>
    rw [During, population_of_none hn] at hi
    intro x hx hxT
    rcases List.mem_cons.mp hx with rfl | hx
    · exact absurd hxT.symm hT
    · exact hi x hx hxT

/-- A strand that is outside a trigger stays outside. -/
theorem During.outside_idle (h : Orderly lo L t) (hT : T ≠ 0) (hknown : T < t.engine.nextTrigger) (hp : Play t t')
    (hi : During T (fun _ => False) t) : During T (fun _ => False) t' :=
  hi.step h hT hknown hp.step (fun _ _ _ hfalse => hfalse) (fun _ _ _ _ hfalse => hfalse.elim)

end Waiting

/-! ## Two runs in step -/

/-- Whether a trigger has come equally far in two states: its strands are alike, wherever they wait, or it is
over in both. -/
inductive Lockstep (p : Program) (T₁ T₂ z₁ z₂ : Nat) (t₁ t₂ : Engine.Turn) : Prop
  | inside {s₁ s₂ : Strand} {sig₁ sig₂ : Signal} (h : Alike p T₁ T₂ s₁ sig₁ s₂ sig₂)
      (h₁ : During T₁ (Awaits z₁ s₁ sig₁) t₁) (h₂ : During T₂ (Awaits z₂ s₂ sig₂) t₂)
  | outside (h₁ : During T₁ (fun _ => False) t₁) (h₂ : During T₂ (fun _ => False) t₂)

section Lockstep

variable {lo₁ lo₂ : Nat → Dependency → Nat} {L₁ L₂ : Ledger} {p : Program} {T₁ T₂ z₁ z₂ : Nat}
  {t₁ t₂ t₁' t₂' : Engine.Turn} {s₁ s₂ : Strand} {sig₁ sig₂ : Signal}

/-- The first run goes on beside the trigger. -/
theorem Lockstep.idle_left (h : Lockstep p T₁ T₂ z₁ z₂ t₁ t₂) (ho : Orderly lo₁ L₁ t₁) (hT : T₁ ≠ 0)
    (hknown : T₁ < t₁.engine.nextTrigger) (hp : Play t₁ t₁') (hlasts : t₁.engine.scheduler.Lasts z₁)
    (hturn : t₁.turnIn T₁ = none) : Lockstep p T₁ T₂ z₁ z₂ t₁' t₂ := by
  cases h with
  | inside h h₁ h₂ => exact .inside h (h₁.awaits_idle ho hT hknown hp hlasts hturn) h₂
  | outside h₁ h₂ => exact .outside (h₁.outside_idle ho hT hknown hp) h₂

/-- The second run goes on beside the trigger. -/
theorem Lockstep.idle_right (h : Lockstep p T₁ T₂ z₁ z₂ t₁ t₂) (ho : Orderly lo₂ L₂ t₂) (hT : T₂ ≠ 0)
    (hknown : T₂ < t₂.engine.nextTrigger) (hp : Play t₂ t₂') (hlasts : t₂.engine.scheduler.Lasts z₂)
    (hturn : t₂.turnIn T₂ = none) : Lockstep p T₁ T₂ z₁ z₂ t₁ t₂' := by
  cases h with
  | inside h h₁ h₂ => exact .inside h h₁ (h₂.awaits_idle ho hT hknown hp hlasts hturn)
  | outside h₁ h₂ => exact .outside h₁ (h₂.outside_idle ho hT hknown hp)

/-- Turns inside the trigger are taken by alike strands. -/
theorem Lockstep.alike (h : Lockstep p T₁ T₂ z₁ z₂ t₁ t₂) (hturn₁ : t₁.turnIn T₁ = some (s₁, sig₁))
    (hturn₂ : t₂.turnIn T₂ = some (s₂, sig₂)) : Alike p T₁ T₂ s₁ sig₁ s₂ sig₂ := by
  obtain ⟨hn₁, hs₁, hin₁⟩ := Engine.Turn.turnIn_eq_some.mp hturn₁
  obtain ⟨hn₂, hs₂, hin₂⟩ := Engine.Turn.turnIn_eq_some.mp hturn₂
  cases h with
  | inside h h₁ h₂ =>
    obtain ⟨rfl, hsig₁⟩ := (h₁ _ (Engine.Turn.mem_population_of_next hn₁) hs₁).resolve_left hin₁
    obtain ⟨rfl, hsig₂⟩ := (h₂ _ (Engine.Turn.mem_population_of_next hn₂) hs₂).resolve_left hin₂
    obtain rfl := Option.some.inj hsig₁
    obtain rfl := Option.some.inj hsig₂
    exact h
  | outside h₁ _ => exact ((h₁ _ (Engine.Turn.mem_population_of_next hn₁) hs₁).resolve_left hin₁).elim

/-- Both runs take a turn inside the trigger. -/
theorem Lockstep.turn (hiso : p.Isolated) (ho₁ : Orderly lo₁ L₁ t₁) (ho₂ : Orderly lo₂ L₂ t₂) (hT₁ : T₁ ≠ 0)
    (hT₂ : T₂ ≠ 0) (hp₁ : t₁.engine.program = p) (hp₂ : t₂.engine.program = p) (hr₁ : t₁.engine.running = true)
    (hr₂ : t₂.engine.running = true) (hz₁ : z₁ ≤ t₁.engine.scheduler.nextSleeper)
    (hz₂ : z₂ ≤ t₂.engine.scheduler.nextSleeper) (hturn₁ : t₁.turnIn T₁ = some (s₁, sig₁))
    (hturn₂ : t₂.turnIn T₂ = some (s₂, sig₂)) (h : Alike p T₁ T₂ s₁ sig₁ s₂ sig₂) :
    Lockstep p T₁ T₂ z₁ z₂ (t₁.engine.turn s₁ sig₁) (t₂.engine.turn s₂ sig₂) := by
  obtain ⟨hn₁, hs₁, -⟩ := Engine.Turn.turnIn_eq_some.mp hturn₁
  obtain ⟨hn₂, hs₂, -⟩ := Engine.Turn.turnIn_eq_some.mp hturn₂
  cases h.turn hiso hp₁ hp₂ hr₁ hr₂ with
  | inside halike h₁ h₂ =>
    exact .inside halike (.own ho₁ hT₁ hn₁ hs₁ (h₁.mono fun _ haw => .inr (haw.mono hz₁)))
      (.own ho₂ hT₂ hn₂ hs₂ (h₂.mono fun _ haw => .inr (haw.mono hz₂)))
  | outside h₁ h₂ =>
    exact .outside (.own ho₁ hT₁ hn₁ hs₁ (h₁.mono fun _ => .inl)) (.own ho₂ hT₂ hn₂ hs₂ (h₂.mono fun _ => .inl))

theorem Alike.toldOf_left (h : Alike p T₁ T₂ s₁ sig₁ s₂ sig₂) (hn : t₁.next = some (s₁, sig₁)) :
    t₁.toldOf T₁ = t₁.engine.told s₁ sig₁ := by
  rw [← h.place.trigger]
  exact Engine.Turn.toldOf_of_next hn fun node origin port seeds => (h.signal.ne_trigger node origin port seeds).1

theorem Alike.toldOf_right (h : Alike p T₁ T₂ s₁ sig₁ s₂ sig₂) (hn : t₂.next = some (s₂, sig₂)) :
    t₂.toldOf T₂ = t₂.engine.told s₂ sig₂ := by
  have ht₂ : s₂.scope.trigger = T₂ := by rw [h.place.scope]; rfl
  rw [← ht₂]
  exact Engine.Turn.toldOf_of_next hn fun node origin port seeds => (h.signal.ne_trigger node origin port seeds).2

/-- Alike strands bring the same value to the same behaviour. -/
theorem Alike.pulled? (h : Alike p T₁ T₂ s₁ sig₁ s₂ sig₂) : s₂.pulled? sig₂ = s₁.pulled? sig₁ := by
  obtain ⟨id₁, sc₁, fs₁⟩ := s₁
  obtain ⟨id₂, sc₂, fs₂⟩ := s₂
  obtain ⟨⟨-, -, -, hf⟩, hsig⟩ := h
  cases hf with
  | @behavior i w k₁ k₂ fs₁ fs₂ hi hk hf =>
    cases hsig with
    | @back r _ => cases w <;> cases r <;> rfl
    | _ => cases w <;> rfl
  | _ => cases hsig <;> rfl

end Lockstep

/-! ## From the beginning on -/

section Beginning

variable {p : Program} {node : String} {origin : Origin} {port : Option String} {seeds : Dict}
  {run : Nat → Engine.Turn} {a n k : Nat}

/-- The number of a trigger that begins, and that it is counted from then on. -/
theorem Course.known (h : Course p (.trigger node origin port seeds) run a n) (hak : a < k) (hk : k ≤ n) :
    (run a).engine.nextTrigger ≠ 0 ∧ (run a).engine.nextTrigger < (run k).engine.nextTrigger := by
  obtain ⟨L, hL⟩ := h.orderly h.starts.le
  obtain ⟨s, hbegins⟩ := h.begins
  exact ⟨hL.positive.ne', nextTrigger_lt_run h.opens h.plays hak hk hbegins⟩

/-- Inside a trigger no turn is taken before it has begun. -/
theorem Course.turnsIn_eq_nil (h : Course p (.trigger node origin port seeds) run a n) :
    turnsIn run (run a).engine.nextTrigger (a + 1) = [] := by
  rw [turnsIn, List.filterMap_eq_nil_iff]
  intro j hj
  have hja : j ≤ a := Nat.lt_succ_iff.mp (List.mem_range.mp hj)
  have hjn : j ≤ n := hja.trans h.starts.le
  obtain ⟨L, hL⟩ := h.orderly hjn
  have hle := nextTrigger_le_run h.opens h.plays hja h.starts.le
  cases hturn : (run j).turnIn (run a).engine.nextTrigger with
  | none => rfl
  | some x =>
    obtain ⟨hn, hs, -⟩ := Engine.Turn.turnIn_eq_some.mp hturn
    have hlt := (hL.placed _ (Engine.Turn.mem_population_of_next hn)).known
    exact absurd hs (hlt.trans_le hle).ne

/-- A trigger that begins while the engine runs, other than one that sets up a node. -/
theorem Engine.startTrigger_nests {e : Engine} (hrun : e.running = true) (s : Strand) (node : String)
    {origin : Origin} (horigin : origin ≠ .arm) (port : Option String) (seeds : Dict) :
    ∃ e₁, e.Welcomes e₁ ∧ e.turn s (.call (.trigger node origin port seeds)) =
      e₁.nest { s with scope := e.seeded node seeds } (.trigger node origin) (.walk (e.firstAgenda node port)) := by
  rcases e.startTrigger_cases s node origin port seeds with ⟨hstopped, -⟩ | ⟨-, -, -, harm, -⟩ | ⟨e₁, ht, heq⟩
  · rw [hrun] at hstopped
    cases hstopped
  · exact absurd harm horigin
  · exact ⟨e₁, ht.strands, heq⟩

/-- What is heard of a trigger when it has begun. -/
theorem Course.heard_begun (h : Course p (.trigger node origin port seeds) run a n) (horigin : origin ≠ .arm) :
    (run (a + 1)).engine.heard (run a).engine.nextTrigger =
      [.triggerStarted (run a).engine.nextTrigger node origin] := by
  obtain ⟨s, hbegins⟩ := h.begins
  have hadmits : (run a).engine.admits node origin = true := by
    rw [Engine.admits, h.running a (Nat.le_refl a) h.starts.le, Engine.armed, if_neg (by simpa using horigin)]
    rfl
  have htold : (run a).engine.told s (.call (.trigger node origin port seeds)) =
      [.triggerStarted (run a).engine.nextTrigger node origin] := by
    rw [Engine.told_of_raising?_none rfl]
    simp only [Engine.progress, hadmits, if_true]
  rw [heard_step (h.plays a h.starts).step, heard_eq_nil_of_unborn h.opens h.plays h.starts.le (Nat.le_refl _),
    Engine.Turn.toldOf, Engine.Turn.told_of_next hbegins, htold]
  simp [Notice.trigger?]

end Beginning

/-! ## To the end -/

section Ending

variable {p : Program} {node : String} {origin : Origin} {port : Option String} {seeds : Dict}
  {run : Nat → Engine.Turn} {a n j k : Nat} {R : TriggerResult}

/-- A trigger ends by a turn inside it. -/
theorem Course.turnIn_of_ends (h : Course p (.trigger node origin port seeds) run a n) (hk : k < n)
    (hends : (run k).Ends R) (hR : R.trigger = (run a).engine.nextTrigger) :
    a < k ∧ ∃ x, (run k).turnIn (run a).engine.nextTrigger = some x := by
  obtain ⟨L, hL⟩ := h.orderly hk.le
  have hbegun : a ≤ k := by
    by_contra hlt
    have hle := nextTrigger_le_run h.opens h.plays (Nat.succ_le_of_lt (Nat.lt_of_not_le hlt)) h.starts.le
    exact absurd hR ((hends.known hL (h.plays k hk).step).2.trans_le hle).ne
  rcases hends.cases hL with ⟨-, -, -, -, -, -, hstopped, -⟩ | ⟨s, sig, node', origin', fs, error, hn, hf, rfl, -⟩
  · rw [h.running k hbegun hk.le] at hstopped
    cases hstopped
  · refine ⟨lt_of_le_of_ne hbegun fun heq => ?_, _,
      Engine.Turn.turnIn_eq_some.mpr ⟨hn, hR, not_outer_of_top hf id⟩⟩
    have hlt := (hL.placed _ (Engine.Turn.mem_population_of_next hn)).known
    rw [← heq] at hlt
    exact absurd hR hlt.ne

/-- Inside a trigger no turn is taken after it has ended. -/
theorem Course.turnIn_after (h : Course p (.trigger node origin port seeds) run a n) (hends : (run j).Ends R)
    (hR : R.trigger = (run a).engine.nextTrigger) (hjk : j < k) (hk : k ≤ n) :
    (run k).turnIn (run a).engine.nextTrigger = none := by
  have hj : j < n := hjk.trans_le hk
  obtain ⟨L, hL⟩ := h.orderly hj.le
  obtain ⟨hT, hknown⟩ := hends.known hL (h.plays j hj).step
  obtain ⟨hover, -⟩ := heard_eq_of_over h.opens h.plays hjk hk hT (hends.over hL (h.plays j hj).step hT hknown)
  cases hturn : (run k).turnIn (run a).engine.nextTrigger with
  | none => rfl
  | some x =>
    obtain ⟨hn, hs, hin⟩ := Engine.Turn.turnIn_eq_some.mp hturn
    rw [← hR] at hs
    exact ((hover.outside _ (Engine.Turn.mem_population_of_next hn) hs).resolve_left hin).elim

theorem Engine.Turn.Ends.unique {t : Engine.Turn} {R R' : TriggerResult} (h : t.Ends R) (h' : t.Ends R') : R = R' := by
  obtain ⟨s, sig, e, s₁, hn, hturn, -⟩ := h
  obtain ⟨s', sig', e', s₂, hn', hturn', -⟩ := h'
  obtain ⟨rfl, rfl⟩ := Prod.mk.inj (Option.some.inj (hn.symm.trans hn'))
  exact Engine.result_inj (hturn.symm.trans hturn')

/-- The last turn inside a trigger is the one that ends it. -/
theorem Course.length_turnsIn_ended (h : Course p (.trigger node origin port seeds) run a n) (hk : k < n)
    (hends : (run k).Ends R) (hR : R.trigger = (run a).engine.nextTrigger) :
    (turnsIn run (run a).engine.nextTrigger n).length =
      (turnsIn run (run a).engine.nextTrigger k).length + 1 := by
  obtain ⟨-, x, hturn⟩ := h.turnIn_of_ends hk hends hR
  rw [← length_turnsIn_succ hturn]
  have hquiet : ∀ m, k + 1 ≤ m → m ≤ n → turnsIn run (run a).engine.nextTrigger m =
      turnsIn run (run a).engine.nextTrigger (k + 1) := by
    intro m hkm hm
    induction m, hkm using Nat.le_induction with
    | base => rfl
    | succ m hkm ih =>
      rw [turnsIn_succ_of_none (h.turnIn_after hends hR hkm (Nat.le_of_succ_le hm)), ih (Nat.le_of_succ_le hm)]
  rw [hquiet n hk (Nat.le_refl n)]

end Ending

section Runs

variable {p : Program} {node : String} {origin : Origin} {port : Option String} {seeds : Dict}
  {run₁ run₂ : Nat → Engine.Turn} {a₁ a₂ n₁ n₂ : Nat}

/-- Two triggers that begin alike are in step. -/
theorem lockstep_begun (horigin : origin ≠ .arm) (h₁ : Course p (.trigger node origin port seeds) run₁ a₁ n₁)
    (h₂ : Course p (.trigger node origin port seeds) run₂ a₂ n₂) (z₁ z₂ : Nat) :
    Lockstep p (run₁ a₁).engine.nextTrigger (run₂ a₂).engine.nextTrigger z₁ z₂ (run₁ (a₁ + 1))
      (run₂ (a₂ + 1)) := by
  obtain ⟨s₁, hn₁⟩ := h₁.begins
  obtain ⟨s₂, hn₂⟩ := h₂.begins
  obtain ⟨L₁, ho₁⟩ := h₁.orderly h₁.starts.le
  obtain ⟨L₂, ho₂⟩ := h₂.orderly h₂.starts.le
  have hp₁ := h₁.program a₁ (Nat.le_refl _) h₁.starts.le
  have hp₂ := h₂.program a₂ (Nat.le_refl _) h₂.starts.le
  have hr₁ := h₁.running a₁ (Nat.le_refl _) h₁.starts.le
  have hr₂ := h₂.running a₂ (Nat.le_refl _) h₂.starts.le
  obtain ⟨e₁, hw₁, heq₁⟩ := Engine.startTrigger_nests hr₁ s₁ node horigin port seeds
  obtain ⟨e₂, hw₂, heq₂⟩ := Engine.startTrigger_nests hr₂ s₂ node horigin port seeds
  have hagenda : (run₂ a₂).engine.firstAgenda node port = (run₁ a₁).engine.firstAgenda node port := by
    cases port with
    | none => rfl
    | some q => exact Engine.destinations_same hp₁ hp₂ node (some q)
  have halike : Alike p (run₁ a₁).engine.nextTrigger (run₂ a₂).engine.nextTrigger
      ⟨s₁.id, (run₁ a₁).engine.seeded node seeds, .trigger node origin :: s₁.frames⟩
      (.call (.walk ((run₁ a₁).engine.firstAgenda node port)))
      ⟨s₂.id, (run₂ a₂).engine.seeded node seeds, .trigger node origin :: s₂.frames⟩
      (.call (.walk ((run₂ a₂).engine.firstAgenda node port))) := by
    refine ⟨⟨Engine.seeded_trigger _ node seeds, ?_, ?_, .trigger ?_ ?_⟩, ?_⟩
    · exact Scope.publishAll_renumber _ node seeds { trigger := (run₁ a₁).engine.nextTrigger }
    · have hempty : ({ trigger := (run₁ a₁).engine.nextTrigger } : Scope).Local := fun _ hx => nomatch hx
      exact hempty.publishAll node seeds
    · exact (ho₁.placed _ (Engine.Turn.mem_population_of_next hn₁)).sits.outer_of_trigger
    · exact (ho₂.placed _ (Engine.Turn.mem_population_of_next hn₂)).sits.outer_of_trigger
    · rw [hagenda]
      exact .walk _
  rw [(h₁.plays a₁ h₁.starts).eq_turn hn₁, (h₂.plays a₂ h₂.starts).eq_turn hn₂]
  refine .inside halike (.begin ho₁ hn₁ rfl ?_) (.begin ho₂ hn₂ rfl ?_)
  · rw [heq₁]
    exact .go hw₁ (.inr ⟨rfl, rfl⟩)
  · rw [heq₂]
    exact .go hw₂ (.inr ⟨rfl, rfl⟩)

/-- After as many turns inside the trigger two runs are in step, and the same was heard and pulled. -/
theorem lockstep_run (hiso : p.Isolated) (horigin : origin ≠ .arm)
    (h₁ : Course p (.trigger node origin port seeds) run₁ a₁ n₁)
    (h₂ : Course p (.trigger node origin port seeds) run₂ a₂ n₂) {T₁ T₂ : Nat}
    (hT₁ : (run₁ a₁).engine.nextTrigger = T₁) (hT₂ : (run₂ a₂).engine.nextTrigger = T₂) {k₁ k₂ : Nat}
    (ha₁ : a₁ < k₁) (hk₁ : k₁ ≤ n₁) (ha₂ : a₂ < k₂) (hk₂ : k₂ ≤ n₂)
    (hlength : (turnsIn run₁ T₁ k₁).length = (turnsIn run₂ T₂ k₂).length) :
    Lockstep p T₁ T₂ (run₁ a₁).engine.scheduler.nextSleeper (run₂ a₂).engine.scheduler.nextSleeper (run₁ k₁)
        (run₂ k₂) ∧
      (run₂ k₂).engine.heard T₂ = ((run₁ k₁).engine.heard T₁).map (Notice.renumber T₂) ∧
      pulledIn run₂ T₂ k₂ = pulledIn run₁ T₁ k₁ := by
  subst hT₁ hT₂
  -- by the number of steps of both runs together: a step beside the trigger is taken back in one run, a turn
  -- inside it in both
  induction hm : k₁ + k₂ using Nat.strong_induction_on generalizing k₁ k₂ with
  | _ m ih =>
  obtain ⟨j₁, rfl⟩ : ∃ j, k₁ = j + 1 := ⟨k₁ - 1, by omega⟩
  obtain ⟨j₂, rfl⟩ : ∃ j, k₂ = j + 1 := ⟨k₂ - 1, by omega⟩
  have haj₁ : a₁ ≤ j₁ := Nat.le_of_lt_succ ha₁
  have haj₂ : a₂ ≤ j₂ := Nat.le_of_lt_succ ha₂
  obtain ⟨L₁, ho₁⟩ := h₁.orderly (Nat.le_of_succ_le hk₁)
  obtain ⟨L₂, ho₂⟩ := h₂.orderly (Nat.le_of_succ_le hk₂)
  obtain ⟨hz₁, hlasts₁⟩ := h₁.lasts haj₁ (Nat.le_of_succ_le hk₁)
  obtain ⟨hz₂, hlasts₂⟩ := h₂.lasts haj₂ (Nat.le_of_succ_le hk₂)
  by_cases hidle₁ : a₁ < j₁ ∧ (run₁ j₁).turnIn (run₁ a₁).engine.nextTrigger = none
  · obtain ⟨hlt, hturn⟩ := hidle₁
    obtain ⟨hT, hknown⟩ := h₁.known hlt (Nat.le_of_succ_le hk₁)
    rw [turnsIn_succ_of_none hturn] at hlength
    obtain ⟨hstep, hheard, hpulled⟩ := ih _ (by omega) hlt (Nat.le_of_succ_le hk₁) ha₂ hk₂ hlength rfl
    rw [heard_step (h₁.plays j₁ hk₁).step, Engine.Turn.toldOf_of_turnIn ho₁ hknown hturn, List.append_nil,
      pulledIn_succ_of_none hturn]
    exact ⟨hstep.idle_left ho₁ hT hknown (h₁.plays j₁ hk₁) hlasts₁ hturn, hheard, hpulled⟩
  by_cases hidle₂ : a₂ < j₂ ∧ (run₂ j₂).turnIn (run₂ a₂).engine.nextTrigger = none
  · obtain ⟨hlt, hturn⟩ := hidle₂
    obtain ⟨hT, hknown⟩ := h₂.known hlt (Nat.le_of_succ_le hk₂)
    rw [turnsIn_succ_of_none hturn] at hlength
    obtain ⟨hstep, hheard, hpulled⟩ := ih _ (by omega) ha₁ hk₁ hlt (Nat.le_of_succ_le hk₂) hlength rfl
    rw [heard_step (h₂.plays j₂ hk₂).step, Engine.Turn.toldOf_of_turnIn ho₂ hknown hturn, List.append_nil,
      pulledIn_succ_of_none hturn]
    exact ⟨hstep.idle_right ho₂ hT hknown (h₂.plays j₂ hk₂) hlasts₂ hturn, hheard, hpulled⟩
  have hturn₁ : j₁ = a₁ ∨ a₁ < j₁ ∧ ∃ x, (run₁ j₁).turnIn (run₁ a₁).engine.nextTrigger = some x := by
    refine haj₁.eq_or_lt.imp Eq.symm fun hlt => ⟨hlt, Option.ne_none_iff_exists'.mp fun hnone => hidle₁ ⟨hlt, hnone⟩⟩
  have hturn₂ : j₂ = a₂ ∨ a₂ < j₂ ∧ ∃ x, (run₂ j₂).turnIn (run₂ a₂).engine.nextTrigger = some x := by
    refine haj₂.eq_or_lt.imp Eq.symm fun hlt => ⟨hlt, Option.ne_none_iff_exists'.mp fun hnone => hidle₂ ⟨hlt, hnone⟩⟩
  rcases hturn₁ with rfl | ⟨hlt₁, ⟨s₁, sig₁⟩, hturn₁⟩ <;> rcases hturn₂ with rfl | ⟨hlt₂, ⟨s₂, sig₂⟩, hturn₂⟩
  · -- both have just begun
    rw [h₁.heard_begun horigin, h₂.heard_begun horigin, pulledIn, pulledIn, h₁.turnsIn_eq_nil, h₂.turnsIn_eq_nil]
    exact ⟨lockstep_begun horigin h₁ h₂ _ _, rfl, rfl⟩
  · rw [h₁.turnsIn_eq_nil, length_turnsIn_succ hturn₂] at hlength
    cases hlength
  · rw [h₂.turnsIn_eq_nil, length_turnsIn_succ hturn₁] at hlength
    cases hlength
  · -- both take a turn inside the trigger
    obtain ⟨hT₁, -⟩ := h₁.known hlt₁ (Nat.le_of_succ_le hk₁)
    obtain ⟨hT₂, -⟩ := h₂.known hlt₂ (Nat.le_of_succ_le hk₂)
    have hp₁ := h₁.program j₁ haj₁ (Nat.le_of_succ_le hk₁)
    have hp₂ := h₂.program j₂ haj₂ (Nat.le_of_succ_le hk₂)
    have hr₁ := h₁.running j₁ haj₁ (Nat.le_of_succ_le hk₁)
    have hr₂ := h₂.running j₂ haj₂ (Nat.le_of_succ_le hk₂)
    rw [length_turnsIn_succ hturn₁, length_turnsIn_succ hturn₂] at hlength
    obtain ⟨hstep, hheard, hpulled⟩ := ih _ (by omega) hlt₁ (Nat.le_of_succ_le hk₁) hlt₂ (Nat.le_of_succ_le hk₂)
      (Nat.succ.inj hlength) rfl
    have halike := hstep.alike hturn₁ hturn₂
    have hn₁ := (Engine.Turn.turnIn_eq_some.mp hturn₁).1
    have hn₂ := (Engine.Turn.turnIn_eq_some.mp hturn₂).1
    have htold₁ := halike.toldOf_left hn₁
    have htold₂ := halike.toldOf_right hn₂
    refine ⟨?_, ?_, ?_⟩
    · rw [(h₁.plays j₁ hk₁).eq_turn hn₁, (h₂.plays j₂ hk₂).eq_turn hn₂]
      exact .turn hiso ho₁ ho₂ hT₁ hT₂ hp₁ hp₂ hr₁ hr₂ hz₁ hz₂ hturn₁ hturn₂ halike
    · rw [heard_step (h₁.plays j₁ hk₁).step, heard_step (h₂.plays j₂ hk₂).step, htold₁, htold₂, hheard,
        halike.told hp₁ hp₂ hr₁ hr₂, List.map_append]
    · rw [pulledIn_succ hturn₁, pulledIn_succ hturn₂, hpulled, halike.pulled?]

/-- A trigger that has ended in one run has ended alike in another that has taken as many turns inside it. -/
theorem ends_run (hiso : p.Isolated) (horigin : origin ≠ .arm)
    (h₁ : Course p (.trigger node origin port seeds) run₁ a₁ n₁)
    (h₂ : Course p (.trigger node origin port seeds) run₂ a₂ n₂) {k₁ k₂ : Nat} {R₁ : TriggerResult}
    (hk₁ : k₁ < n₁) (hends : (run₁ k₁).Ends R₁) (hR₁ : R₁.trigger = (run₁ a₁).engine.nextTrigger) (hk₂ : k₂ ≤ n₂)
    (hlength : (turnsIn run₁ (run₁ a₁).engine.nextTrigger k₁).length <
      (turnsIn run₂ (run₂ a₂).engine.nextTrigger k₂).length) :
    ∃ j < k₂, ∃ R₂, (run₂ j).Ends R₂ ∧
      R₁.Like (run₁ a₁).engine.nextTrigger (run₂ a₂).engine.nextTrigger R₂ := by
  obtain ⟨hlt₁, ⟨s₁, sig₁⟩, hturn₁⟩ := h₁.turnIn_of_ends hk₁ hends hR₁
  obtain ⟨j, hj, ⟨s₂, sig₂⟩, hturn₂, hcount⟩ := exists_turnIn hlength
  have hlt₂ : a₂ < j := by
    by_contra hle
    have hmem : (s₂, sig₂) ∈ turnsIn run₂ (run₂ a₂).engine.nextTrigger (a₂ + 1) :=
      List.mem_filterMap.mpr ⟨j, List.mem_range.mpr (by omega), hturn₂⟩
    rw [h₂.turnsIn_eq_nil] at hmem
    cases hmem
  have hj₂ : j ≤ n₂ := hj.le.trans hk₂
  have hstep := (lockstep_run hiso horigin h₁ h₂ rfl rfl hlt₁ hk₁.le hlt₂ hj₂ hcount.symm).1
  obtain ⟨L₁, ho₁⟩ := h₁.orderly hk₁.le
  obtain ⟨R₂, hends₂, hlike⟩ := (hstep.alike hturn₁ hturn₂).ends ho₁ (h₁.running k₁ hlt₁.le hk₁.le)
    (h₂.running j hlt₂.le hj₂) (Engine.Turn.turnIn_eq_some.mp hturn₁).1 (Engine.Turn.turnIn_eq_some.mp hturn₂).1 hends
  exact ⟨j, hj, R₂, hends₂, hlike⟩

/-- Two runs take as many turns inside a trigger that ends in both. -/
theorem length_turnsIn_le (hiso : p.Isolated) (horigin : origin ≠ .arm)
    (h₁ : Course p (.trigger node origin port seeds) run₁ a₁ n₁)
    (h₂ : Course p (.trigger node origin port seeds) run₂ a₂ n₂) {k₁ k₂ : Nat} {R₁ R₂ : TriggerResult}
    (hk₁ : k₁ < n₁) (hends₁ : (run₁ k₁).Ends R₁) (hR₁ : R₁.trigger = (run₁ a₁).engine.nextTrigger)
    (hk₂ : k₂ < n₂) (hends₂ : (run₂ k₂).Ends R₂) (hR₂ : R₂.trigger = (run₂ a₂).engine.nextTrigger) :
    (turnsIn run₂ (run₂ a₂).engine.nextTrigger k₂).length ≤
      (turnsIn run₁ (run₁ a₁).engine.nextTrigger k₁).length := by
  by_contra hlt
  obtain ⟨j, hj, R, hends, hlike⟩ := ends_run hiso horigin h₁ h₂ hk₁ hends₁ hR₁ hk₂.le (Nat.lt_of_not_le hlt)
  obtain ⟨-, x, hturn⟩ := h₂.turnIn_of_ends hk₂ hends₂ hR₂
  rw [h₂.turnIn_after hends hlike.second hj hk₂.le] at hturn
  cases hturn

/-- Isolation of triggers: in two runs of a program whose behaviours use nothing that triggers share, a trigger
that begins alike is the same, whatever else goes on. After as many turns inside it the same was heard of it
and the same values were pulled, but for its number. When it has ended in one run it ends alike in the other as
soon as that has taken as many turns; and when it has ended in both, all of it was the same. -/
theorem triggers_isolated (hiso : p.Isolated) (horigin : origin ≠ .arm)
    (h₁ : Course p (.trigger node origin port seeds) run₁ a₁ n₁)
    (h₂ : Course p (.trigger node origin port seeds) run₂ a₂ n₂) {T₁ T₂ : Nat}
    (hT₁ : (run₁ a₁).engine.nextTrigger = T₁) (hT₂ : (run₂ a₂).engine.nextTrigger = T₂) :
    (∀ k₁ k₂, a₁ < k₁ → k₁ ≤ n₁ → a₂ < k₂ → k₂ ≤ n₂ →
        (turnsIn run₁ T₁ k₁).length = (turnsIn run₂ T₂ k₂).length →
        (run₂ k₂).engine.heard T₂ = ((run₁ k₁).engine.heard T₁).map (Notice.renumber T₂) ∧
          pulledIn run₂ T₂ k₂ = pulledIn run₁ T₁ k₁) ∧
      ∀ k₁ < n₁, ∀ R₁, (run₁ k₁).Ends R₁ → R₁.trigger = T₁ →
        (∀ k₂ ≤ n₂, (turnsIn run₁ T₁ n₁).length ≤ (turnsIn run₂ T₂ k₂).length →
          ∃ j < k₂, ∃ R₂, (run₂ j).Ends R₂ ∧ R₁.Like T₁ T₂ R₂) ∧
        ∀ k₂ < n₂, ∀ R₂, (run₂ k₂).Ends R₂ → R₂.trigger = T₂ →
          R₁.Like T₁ T₂ R₂ ∧
          (run₂ n₂).engine.heard T₂ = ((run₁ n₁).engine.heard T₁).map (Notice.renumber T₂) ∧
          pulledIn run₂ T₂ n₂ = pulledIn run₁ T₁ n₁ := by
  subst hT₁ hT₂
  refine ⟨fun k₁ k₂ ha₁ hk₁ ha₂ hk₂ hlength => ?_, fun k₁ hk₁ R₁ hends₁ hR₁ => ⟨fun k₂ hk₂ hlength => ?_, ?_⟩⟩
  · exact (lockstep_run hiso horigin h₁ h₂ rfl rfl ha₁ hk₁ ha₂ hk₂ hlength).2
  · rw [h₁.length_turnsIn_ended hk₁ hends₁ hR₁] at hlength
    exact ends_run hiso horigin h₁ h₂ hk₁ hends₁ hR₁ hk₂ hlength
  · intro k₂ hk₂ R₂ hends₂ hR₂
    have hcount : (turnsIn run₁ (run₁ a₁).engine.nextTrigger k₁).length =
        (turnsIn run₂ (run₂ a₂).engine.nextTrigger k₂).length :=
      Nat.le_antisymm (length_turnsIn_le hiso horigin h₂ h₁ hk₂ hends₂ hR₂ hk₁ hends₁ hR₁)
        (length_turnsIn_le hiso horigin h₁ h₂ hk₁ hends₁ hR₁ hk₂ hends₂ hR₂)
    have hall : (turnsIn run₁ (run₁ a₁).engine.nextTrigger n₁).length =
        (turnsIn run₂ (run₂ a₂).engine.nextTrigger n₂).length := by
      rw [h₁.length_turnsIn_ended hk₁ hends₁ hR₁, h₂.length_turnsIn_ended hk₂ hends₂ hR₂, hcount]
    obtain ⟨hlt₁, ⟨s₁, sig₁⟩, hturn₁⟩ := h₁.turnIn_of_ends hk₁ hends₁ hR₁
    obtain ⟨hlt₂, ⟨s₂, sig₂⟩, hturn₂⟩ := h₂.turnIn_of_ends hk₂ hends₂ hR₂
    obtain ⟨L₁, ho₁⟩ := h₁.orderly hk₁.le
    have hstep := (lockstep_run hiso horigin h₁ h₂ rfl rfl hlt₁ hk₁.le hlt₂ hk₂.le hcount).1
    obtain ⟨R, hends, hlike⟩ := (hstep.alike hturn₁ hturn₂).ends ho₁ (h₁.running k₁ hlt₁.le hk₁.le)
      (h₂.running k₂ hlt₂.le hk₂.le) (Engine.Turn.turnIn_eq_some.mp hturn₁).1
      (Engine.Turn.turnIn_eq_some.mp hturn₂).1 hends₁
    obtain rfl : R = R₂ := hends.unique hends₂
    exact ⟨hlike, (lockstep_run hiso horigin h₁ h₂ rfl rfl h₁.starts (Nat.le_refl _) h₂.starts (Nat.le_refl _)
      hall).2⟩

end Runs

/-! ## A trigger beside one that fails, and alone -/

/-- Asks for its input, lets others run, and ends with what it got. -/
def patient : Behavior := fun _ => .wait (.pull "in") fun
  | .ok v => .wait .checkpoint fun _ => .finish v
  | .error err => .fail err

/-- Lets others run, and fails. -/
def doomed : Behavior := fun _ => .wait .checkpoint fun _ => .fail (.fault .zeroDivision)

/-- Two nodes to fire from, one wired to a node that fails; the other one is fired after some commands. -/
def crowdSession (commands : List Command) : Engine.Turn :=
  opening (.initial {}
    { kinds := [.sketch "bell" .statement [{ id := "exec", valueType := .exec }]
          [Library.leads "exec", Library.yields "value" .any] none,
        .sketch "task" .statement [{ id := "exec", valueType := .exec }, { id := "in" }] [] (some patient),
        .sketch "trap" .statement [{ id := "exec", valueType := .exec }] [] (some doomed)] }
    { nodes := [{ serial := 0, id := "b", kind := "bell" }, { serial := 1, id := "t", kind := "task" },
        { serial := 2, id := "c", kind := "bell" }, { serial := 3, id := "x", kind := "trap" },
        { serial := 4, id := "i", kind := "bell" }]
      edges := [⟨"b", "exec", "t", "exec"⟩, ⟨"b", "value", "t", "in"⟩, ⟨"c", "exec", "x", "exec"⟩]
      nextSerial := 5 } 0.01)
    ([.runNode "i"] ++ commands.map .command ++ [.command (.fire "b" "exec" [("value", .int 7)]), .join])

/-- The state after a number of steps when the other node is fired first. -/
def crowded (n : Nat) : Engine.Turn := (follow n (crowdSession [.fire "c" "exec" []], fun _ => {})).1

/-- The state after a number of steps when nothing else is fired. -/
def alone (n : Nat) : Engine.Turn := (follow n (crowdSession [], fun _ => {})).1

theorem isolated_crowdSession : (crowdSession []).engine.program.Isolated := by
  intro k hk b hb state T₁ T₂
  rcases List.mem_cons.mp hk with rfl | hk
  · cases hb
  rcases List.mem_cons.mp hk with rfl | hk
  · obtain rfl := Option.some.inj hb
    refine .wait fun r₁ r₂ hr => ?_
    cases hr with
    | ok v => exact .wait fun _ _ _ => .finish v
    | error herr => exact .fail herr
  · rw [List.mem_singleton.mp hk] at hb
    obtain rfl := Option.some.inj hb
    exact .wait fun _ _ _ => .fail (.fault _)

/-- The call of the trigger that is fired in both sessions. -/
def crowdCall : Call := .trigger "b" .event (some "exec") [(.str "value", .int 7)]

theorem course_crowded : Course (crowdSession []).engine.program crowdCall crowded 18 40 where
  opens := by
    show Opens (crowdSession _)
    refine ⟨_, _, _, _, _, ?_, rfl⟩
    exact ⟨by decide, by decide⟩
  plays := by
    have hgoes : ∀ k < 40, (Engine.advance (crowded k)).isSome = true := by decide +kernel
    exact fun k hk => .of_advance (advance_follow (hgoes k hk))
  starts := by decide
  begins := by with_unfolding_all exact ⟨_, rfl⟩
  program := by
    intro k ha hk
    interval_cases k <;> with_unfolding_all rfl
  running := by decide +kernel

theorem course_alone : Course (crowdSession []).engine.program crowdCall alone 11 27 where
  opens := by
    show Opens (crowdSession _)
    refine ⟨_, _, _, _, _, ?_, rfl⟩
    exact ⟨by decide, by decide⟩
  plays := by
    have hgoes : ∀ k < 27, (Engine.advance (alone k)).isSome = true := by decide +kernel
    exact fun k hk => .of_advance (advance_follow (hgoes k hk))
  starts := by decide
  begins := by with_unfolding_all exact ⟨_, rfl⟩
  program := by
    intro k ha hk
    interval_cases k <;> with_unfolding_all rfl
  running := by decide +kernel

/-- Beside a trigger that fails between its turns the trigger is as it is alone. -/
theorem triggers_isolated_crowded : (∃ R, (crowded 30).Ends R ∧ R.status = .error) ∧
    ∃ R₁ R₂, (crowded 37).Ends R₁ ∧ (alone 24).Ends R₂ ∧ R₁.Like 3 2 R₂ ∧
      (alone 27).engine.heard 2 = ((crowded 40).engine.heard 3).map (Notice.renumber 2) ∧
      pulledIn alone 2 27 = pulledIn crowded 3 40 ∧ pulledIn crowded 3 40 = [("t", "in", .int 7)] := by
  obtain ⟨s, f, node, origin, fs, hn, hf⟩ : ∃ s f node origin fs, (crowded 30).next = some (s, .raise (.failure f)) ∧
      s.frames = .trigger node origin :: fs := by
    with_unfolding_all exact ⟨_, _, _, _, _, rfl, rfl⟩
  refine ⟨⟨_, .of_trigger hn hf (.inr ⟨f, rfl, rfl⟩), rfl⟩, ?_⟩
  obtain ⟨s₁, x₁, node₁, origin₁, fs₁, hn₁, hf₁, hT₁⟩ : ∃ s x node origin fs,
      (crowded 37).next = some (s, .back x) ∧ s.frames = .trigger node origin :: fs ∧ s.scope.trigger = 3 := by
    with_unfolding_all exact ⟨_, _, _, _, _, rfl, rfl, rfl⟩
  obtain ⟨s₂, x₂, node₂, origin₂, fs₂, hn₂, hf₂, hT₂⟩ : ∃ s x node origin fs,
      (alone 24).next = some (s, .back x) ∧ s.frames = .trigger node origin :: fs ∧ s.scope.trigger = 2 := by
    with_unfolding_all exact ⟨_, _, _, _, _, rfl, rfl, rfl⟩
  have hends₁ := Engine.Turn.Ends.of_trigger hn₁ hf₁ (.inl ⟨⟨x₁, rfl⟩, rfl⟩)
  have hends₂ := Engine.Turn.Ends.of_trigger hn₂ hf₂ (.inl ⟨⟨x₂, rfl⟩, rfl⟩)
  have hfirst : (crowded 18).engine.nextTrigger = 3 := by decide +kernel
  have hsecond : (alone 11).engine.nextTrigger = 2 := by decide +kernel
  have hboth := (triggers_isolated isolated_crowdSession (by decide) course_crowded course_alone
    hfirst hsecond).2 37 (by decide) _ hends₁ hT₁
  obtain ⟨hlike, hheard, hpulled⟩ := hboth.2 24 (by decide) _ hends₂ hT₂
  refine ⟨_, _, hends₁, hends₂, hlike, hheard, hpulled, ?_⟩
  with_unfolding_all rfl

end Patchbay
