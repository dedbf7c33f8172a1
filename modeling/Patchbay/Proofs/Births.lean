import Patchbay.Proofs.Courses

/-!
# Births of triggers

A scope is opened by a turn that begins a trigger, or by one that is asked for a value from outside. The
strand of the turn is then in that scope, with the trigger or the request for a value on top. No other turn
leaves a strand in a new scope. So what holds of a strand at its birth and is kept from then on holds all
along a run.

Contents:
* `Signal.OpensScope`: the turns that open a scope.
* `Born`: the strand that such a turn leaves.

Results:
* `Engine.nextTrigger_turn`: other turns leave the count of triggers alone.
* `Orderly.born`: a strand in a new scope was born by the turn.
* `during_run`: induction along the course of a trigger, from its birth; `during_since`: from a step at which it is
  born.
-/

namespace Patchbay

/-! ## Turns that open a scope -/

/-- Whether a turn opens a scope: for a trigger, or for a value that is asked for from outside. -/
def Signal.OpensScope : Signal → Prop
  | .call (.trigger _ _ _ _) => True
  | .call (.request (.pull _ _)) => True
  | _ => False

namespace Engine

section Counting

variable (e : Engine) (s : Strand)

theorem nextTrigger_failInvocation (i : Invocation) (err : Raised) :
    (e.failInvocation s i err).engine.nextTrigger = e.nextTrigger := by
  rw [failInvocation_eq]
  split <;> rfl

theorem nextTrigger_walk (agenda : List String) : (e.walk s agenda).engine.nextTrigger = e.nextTrigger := by
  unfold walk
  repeat' split
  all_goals rfl

theorem nextTrigger_invoke (i : Invocation) : (e.invoke s i).engine.nextTrigger = e.nextTrigger := by
  unfold invoke
  split
  · rfl
  · exact nextTrigger_failInvocation _ s i _

theorem nextTrigger_awaitFor (i : Invocation) (w : Wait) (k : Except Raised w.Reply → Script) :
    (e.awaitFor s i w k).engine.nextTrigger = e.nextTrigger := by
  cases w with
  | pull | checkpoint => rfl
  | advance | sleep =>
    simp only [awaitFor]
    split <;> rfl

theorem nextTrigger_behave (i : Invocation) (script : Script) :
    (e.behave s i script).engine.nextTrigger = e.nextTrigger := by
  cases script with
  | finish v =>
    simp only [behave, finishInvocation]
    split <;> rfl
  | fail err => exact nextTrigger_failInvocation e s i err
  | again state =>
    simp only [behave]
    split
    · rfl
    · exact nextTrigger_failInvocation e s i _
  | ask q k => cases q <;> rfl
  | edit c k => exact (Tended.command e c).nextTrigger
  | wait w k => exact nextTrigger_awaitFor e s i w k

theorem nextTrigger_pullOutput (node port : String) :
    (e.pullOutput s node port).engine.nextTrigger = e.nextTrigger := by
  unfold pullOutput runForOutput
  dsimp only
  repeat' split
  all_goals rfl

theorem nextTrigger_armNext (rest starts : List String) (results : List TriggerResult) :
    (e.armNext s rest starts results).engine.nextTrigger = e.nextTrigger := by
  cases rest with
  | cons node rest => rfl
  | nil => exact ((Tended.spawnStarts starts e).trans (.gather _ (e.spawnStarts starts).1 s.id)).nextTrigger

theorem nextTrigger_startRun : (e.startRun s).engine.nextTrigger = e.nextTrigger := by
  unfold startRun
  split
  · rfl
  · exact nextTrigger_armNext _ s _ _ _

theorem nextTrigger_step : (e.step s).engine.nextTrigger = e.nextTrigger := by
  unfold step
  split
  · rfl
  · next hnext =>
    obtain ⟨rest, rfl | ⟨-, rfl⟩⟩ := nextStep_eq_ok hnext
    · rfl
    · rfl

theorem nextTrigger_join (results : List TriggerResult) : (e.join s results).engine.nextTrigger = e.nextTrigger := by
  unfold join
  split
  · rfl
  · exact (Tended.gather e _ _).nextTrigger

theorem nextTrigger_answerRequest (result : Except Raised Response) :
    (e.answerRequest s result).engine.nextTrigger = e.nextTrigger := by
  unfold answerRequest nextRequest
  dsimp only
  split <;> rfl

theorem nextTrigger_request {r : Request} (h : ∀ id port, r ≠ .pull id port) :
    (e.request s r).engine.nextTrigger = e.nextTrigger := by
  cases r with
  | command c =>
    rw [request_command]
    exact (Tended.command e c).nextTrigger
  | run | refused | startRun => rfl
  | step => exact nextTrigger_step e s
  | runNode id =>
    simp only [request]
    split <;> rfl
  | pull id port => exact absurd rfl (h id port)
  | join => exact nextTrigger_join e s []
  | waitRun name =>
    simp only [request, waitRun]
    split
    · rfl
    · split
      · rfl
      · rfl
      · exact (Tended.onDone e _ _).nextTrigger
  | tick n => cases n <;> rfl
  | advance ms =>
    simp only [request, pass]
    repeat' split
    all_goals rfl

theorem nextTrigger_back (f : Frame) (r : Result) : (e.back s f r).engine.nextTrigger = e.nextTrigger := by
  cases f with
  | behavior i w k => exact congrArg Engine.nextTrigger (resumeBehavior_engine i w k r)
  | walk rest =>
    cases r with
    | invoked v i =>
      simp only [back, continueFrom]
      repeat' split
      all_goals rfl
    | _ => rfl
  | output | gathering => cases r <;> first | rfl | (rename_i x; cases x <;> rfl)
  | hop | trigger | value | advancing => rfl
  | arming =>
    cases r with
    | response x => cases x <;> exact nextTrigger_armNext e s _ _ _
    | _ => exact nextTrigger_armNext e s _ _ _
  | direct =>
    cases r with
    | response x =>
      cases x with
      | trigger t =>
        simp only [back]
        split <;> rfl
      | _ => rfl
    | _ => rfl
  | joining results =>
    cases r with
    | response x => cases x <;> exact nextTrigger_join e s _
    | _ => exact nextTrigger_join e s _
  | ticking n => cases n <;> rfl
  | task id => exact (Tended.completeTask e id _).nextTrigger
  | session => exact nextTrigger_answerRequest e s _

theorem nextTrigger_raise (f : Frame) (err : Raised) : (e.raise s f err).engine.nextTrigger = e.nextTrigger := by
  cases f with
  | trigger => cases err <;> rfl
  | task id => exact (Tended.completeTask e id _).nextTrigger
  | session => exact nextTrigger_answerRequest e s _
  | _ => rfl

/-- A turn that opens no scope leaves the count of triggers alone. -/
theorem nextTrigger_turn {sig : Signal} (h : ¬sig.OpensScope) :
    (e.turn s sig).engine.nextTrigger = e.nextTrigger := by
  obtain ⟨id, sc, frames⟩ := s
  cases sig with
  | call c =>
    cases c with
    | trigger => exact absurd trivial h
    | walk agenda => exact nextTrigger_walk e _ agenda
    | invoke i => exact nextTrigger_invoke e _ i
    | behave i script => exact nextTrigger_behave e _ i script
    | input node port => exact congrArg Engine.nextTrigger (pullInput_engine node port)
    | output node port => exact nextTrigger_pullOutput e _ node port
    | run => exact nextTrigger_startRun e _
    | request r =>
      refine nextTrigger_request e _ fun id port heq => h ?_
      rw [heq]
      trivial
  | back r =>
    cases frames with
    | nil => rfl
    | cons f frames => exact nextTrigger_back e _ f r
  | raise err =>
    cases frames with
    | nil => rfl
    | cons f frames => exact nextTrigger_raise e _ f err

end Counting

end Engine

/-! ## Strands in a new scope -/

/-- The strand that a turn leaves in a scope that it has opened. -/
inductive Born (e : Engine) (s : Strand) : Signal → Strand × Parked → Prop
  | trigger {node : String} {origin : Origin} {port : Option String} {seeds : Dict}
      (hadmits : e.admits node origin = true) :
      Born e s (.call (.trigger node origin port seeds))
        (⟨s.id, e.seeded node seeds, .trigger node origin :: s.frames⟩,
          .turn (.call (.walk (e.firstAgenda node port))))
  | value {id port : String} :
      Born e s (.call (.request (.pull id port)))
        (⟨s.id, { trigger := e.nextTrigger }, .value :: s.frames⟩, .turn (.call (.input id port)))

/-- Control flow begins only in a trigger that may begin. -/
theorem Engine.admits_of_nest {e e₁ : Engine} {s s' : Strand} {node : String} {origin : Origin}
    {port : Option String} {seeds : Dict} {f : Frame} {c : Call}
    (h : e.startTrigger s node origin port seeds = e₁.nest s' f c) : e.admits node origin = true := by
  unfold admits
  cases hrun : e.running with
  | false =>
    rw [startTrigger_refused hrun] at h
    cases congrArg Engine.Turn.next h
  | true =>
    rw [startTrigger_eq e s node origin port seeds hrun] at h
    rw [Bool.true_and, ← armed_freshScope]
    generalize e.freshScope.2.armed node origin = x at h ⊢
    obtain ⟨r, e₂⟩ := x
    cases r with
    | error err => cases congrArg Engine.Turn.next h
    | ok u => rfl

/-- What is begun outside triggers leaves its strand there until then. -/
theorem Sits.outer_of_call {b : Book} {s : Strand} {c : Call} (h : Sits b (s, .turn (.call c))) (hc : c.Outer) :
    ∀ f ∈ s.frames, f.Outer := by
  obtain ⟨nodes, -, hfits⟩ := h.fits
  cases hfits with
  | begins _ hs =>
    generalize b.running = as at hs
    cases hs with
    | outer hout => exact hout
  | _ => exact hc.elim

theorem Stacked.outer_of_outer {l : Level} {f : Frame} {fs : List Frame} {nodes : List String} {as : List Account}
    (h : Stacked l (f :: fs) nodes as) (hout : f.Outer) : ∀ g ∈ f :: fs, g.Outer := by
  cases h with
  | outer h => exact h
  | _ => exact hout.elim

/-- A strand whose innermost frame is outside triggers is outside. -/
theorem Sits.outer_of_outer {b : Book} {s : Strand} {q : Parked} (h : Sits b (s, q)) {f : Frame} {fs : List Frame}
    (hf : s.frames = f :: fs) (hout : f.Outer) : ∀ g ∈ s.frames, g.Outer := by
  obtain ⟨nodes, -, hfits⟩ := h.fits
  rw [hf] at hfits ⊢
  cases hfits with
  | begins _ hs | answers hs | joins hs | gathers hs | walks hs | walked hs | invokes _ _ hs | behaves _ _ hs
  | invoked _ _ hs | input hs | output hs | pulled hs _ | woken hs | sleeps hs | raised hs =>
    exact hs.outer_of_outer hout

/-- A scope is opened from outside triggers. -/
theorem Born.outer {e : Engine} {s : Strand} {sig : Signal} {x : Strand × Parked} (h : Born e s sig x) {b : Book}
    (hsits : Sits b (s, .turn sig)) : ∀ f ∈ s.frames, f.Outer := by
  cases h with
  | trigger _ => exact hsits.outer_of_call trivial
  | value => exact hsits.outer_of_call trivial

section Births

variable {lo : Nat → Dependency → Nat} {L : Ledger} {t : Engine.Turn} {s : Strand} {sig : Signal}

/-- A strand in a scope that was not there before a turn was born by it. -/
theorem Orderly.born (h : Orderly lo L t) (hn : t.next = some (s, sig)) {x : Strand × Parked}
    (hx : x ∈ (t.engine.turn s sig).population) (hT : x.1.scope.trigger = t.engine.nextTrigger) :
    Born t.engine s sig x := by
  -- strands from before the turn, and new ones without a trigger, have other numbers
  have hold : ∀ {e₁ : Engine}, t.engine.freshScope.2.Tended e₁ → x ∉ e₁.strands := by
    intro e₁ htended hmem
    obtain ⟨news, hstrands, hnews⟩ := htended.strands
    rw [hstrands, List.mem_append] at hmem
    rcases hmem with hmem | hmem
    · rw [(hnews x hmem).scope] at hT
      exact h.positive.ne hT
    · have hknown := h.placed x (by rw [Engine.Turn.population_of_next hn]; exact List.mem_cons_of_mem _ hmem)
      exact hknown.known.ne hT
  have hs : s.scope.trigger < t.engine.nextTrigger := (h.placed _ (Engine.Turn.mem_population_of_next hn)).known
  by_cases hopens : sig.OpensScope
  · cases sig with
    | call c =>
      cases c with
      | trigger node origin port seeds =>
        have hx' : x ∈ (t.engine.startTrigger s node origin port seeds).population := hx
        rcases t.engine.startTrigger_cases s node origin port seeds with ⟨-, heq⟩ | ⟨e₁, err, ht, -, heq⟩ | ⟨e₁, ht, heq⟩
        · rw [heq] at hx'
          rcases List.mem_cons.mp hx' with rfl | hx'
          · exact absurd hT hs.ne
          · exact absurd hx' (hold (.refl _))
        · rw [heq] at hx'
          rcases List.mem_cons.mp hx' with rfl | hx'
          · exact absurd hT hs.ne
          · exact absurd hx' (hold ht)
        · have hadmits := Engine.admits_of_nest heq
          rw [heq] at hx'
          rcases List.mem_cons.mp hx' with rfl | hx'
          · exact .trigger hadmits
          · exact absurd hx' (hold ht)
      | request r =>
        cases r with
        | pull id port =>
          rcases List.mem_cons.mp hx with rfl | hx'
          · exact .value
          · exact absurd hx' (hold (.refl _))
        | _ => exact hopens.elim
      | _ => exact hopens.elim
    | _ => exact hopens.elim
  · have hknown := ((h.step (.turn hn)).placed x hx).known
    rw [t.engine.nextTrigger_turn s hopens] at hknown
    exact absurd hT hknown.ne

/-- A trigger that ends was counted when it began. -/
theorem Engine.Turn.Ends.known {R : TriggerResult} (hends : t.Ends R) (h : Orderly lo L t) {t' : Engine.Turn}
    (hs : Step t t') : R.trigger ≠ 0 ∧ R.trigger < t'.engine.nextTrigger := by
  rcases hends.cases h with ⟨s, node, origin, port, seeds, hn, -, rfl⟩ |
    ⟨s, sig, node, origin, fs, error, hn, hf, rfl, -⟩
  · refine ⟨h.positive.ne', ?_⟩
    rw [hs.eq_turn hn]
    exact (Engine.nextTrigger_startTrigger t.engine s node origin port seeds).ge
  · have hplaced := h.placed _ (mem_population_of_next hn)
    refine ⟨fun hzero => ?_, hplaced.known.trans_le (h.evolves hs).nextTrigger⟩
    have hout := hplaced.sits.named hzero (.trigger node origin)
    exact hout (by rw [hf]; exact List.mem_cons_self)

end Births

/-! ## From birth on -/

section Runs

variable {run : Nat → Engine.Turn} {n : Nat} {T : Nat} {P : Nat → Strand × Parked → Prop}

theorem Opens.nextTrigger {t : Engine.Turn} (h : Opens t) : t.engine.nextTrigger = 1 := by
  obtain ⟨config, registry, graph, shortest, requests, -, rfl⟩ := h
  cases requests <;> rfl

/-- A step at which a trigger may be born. -/
theorem During.of_unborn {lo : Nat → Dependency → Nat} {L : Ledger} {t t' : Engine.Turn} (h : Orderly lo L t)
    (hs : Step t t') (hT : T ≠ 0) (hunborn : t.engine.nextTrigger ≤ T) {Q : Strand × Parked → Prop}
    (hborn : ∀ s sig x, t.next = some (s, sig) → t.engine.nextTrigger = T → Born t.engine s sig x → Q x) :
    During T Q t' := by
  intro x hx hxT
  have hnot : ∀ y ∈ t.population, y.1.scope.trigger ≠ T :=
    fun y hy => ((h.placed y hy).known.trans_le hunborn).ne
  cases hn : t.next with
  | none =>
    rw [population_of_none hn] at hnot
    rcases hs.waits hn hx (hxT ▸ hT) with hold | ⟨p, -, hold, -⟩
    · exact absurd hxT (hnot x hold)
    · exact absurd hxT (hnot (x.1, p) hold)
  | some y =>
    obtain ⟨s, sig⟩ := y
    obtain rfl := hs.eq_turn hn
    rcases (h.evolves hs).strands x hx with h0 | hnext | ⟨y, hy, hm⟩
    · exact absurd (hxT.symm.trans h0) hT
    · exact .inr (hborn s sig x hn (hnext.symm.trans hxT) (h.born hn hx hnext))
    · exact absurd (hm.trigger.symm.trans hxT) (hnot y hy)

/-- A step in the course of a trigger: its strand has a turn, or waits while something else happens. -/
theorem During.next {lo : Nat → Dependency → Nat} {L : Ledger} {t t' : Engine.Turn} {Q Q' : Strand × Parked → Prop}
    (h : Orderly lo L t) (hT : T ≠ 0) (hknown : T < t.engine.nextTrigger) (hs : Step t t') (hi : During T Q t)
    (hturn : ∀ s sig, t.next = some (s, sig) → s.scope.trigger = T → (¬∀ f ∈ s.frames, f.Outer) →
      Q (s, .turn sig) → t.engine.Finds (fun x => (∀ f ∈ x.1.frames, f.Outer) ∨ Q' x) (t.engine.turn s sig))
    (hother : (∀ s sig, t.next = some (s, sig) → s.scope.trigger ≠ T) → ∀ x, Q x → Q' x)
    (hwake : ∀ s p e, Q (s, p) → Q (s, .turn (Engine.unpark e p).1)) : During T Q' t' := by
  cases hn : t.next with
  | none =>
    have hkept := hother fun s sig hsome => nomatch hn.symm.trans hsome
    intro x hx hxT
    exact (hi.idle hT hs hn hwake x hx hxT).imp_right (hkept x)
  | some y =>
    obtain ⟨s, sig⟩ := y
    rw [hs.eq_turn hn]
    by_cases hsT : s.scope.trigger = T
    · by_cases hf : ∀ f ∈ s.frames, f.Outer
      · exact .outer h hT hknown hn hsT hf
      · have hQ := (hi _ (Engine.Turn.mem_population_of_next hn) hsT).resolve_left hf
        exact .own h hT hn hsT (hturn s sig hn hsT hf hQ)
    · have hkept := hother fun s' sig' hsome => by
        obtain ⟨rfl, rfl⟩ := Prod.mk.inj (Option.some.inj (hn.symm.trans hsome))
        exact hsT
      intro x hx hxT
      exact (During.other h hT hknown hn hsT hi x hx hxT).imp_right (hkept x)

/-- What holds of the strand of a trigger when it is born, and is kept by its turns and by whatever else
happens, holds of it all along a run. -/
theorem during_run (hopens : Opens (run 0)) (hplays : ∀ k < n, Play (run k) (run (k + 1))) (hT : T ≠ 0)
    (hborn : ∀ k < n, ∀ s sig x, (run k).next = some (s, sig) → (run k).engine.nextTrigger = T →
      Born (run k).engine s sig x → P (k + 1) x)
    (hturn : ∀ k < n, ∀ s sig, (run k).next = some (s, sig) → s.scope.trigger = T →
      (¬∀ f ∈ s.frames, f.Outer) → P k (s, .turn sig) →
      (run k).engine.Finds (fun x => (∀ f ∈ x.1.frames, f.Outer) ∨ P (k + 1) x) ((run k).engine.turn s sig))
    (hother : ∀ k < n, T < (run k).engine.nextTrigger →
      (∀ s sig, (run k).next = some (s, sig) → s.scope.trigger ≠ T) → ∀ x, P k x → P (k + 1) x)
    (hwake : ∀ k < n, ∀ s p e, P k (s, p) → P k (s, .turn (Engine.unpark e p).1)) {k : Nat} (hk : k ≤ n) :
    During T (P k) (run k) := by
  induction k with
  | zero =>
    obtain ⟨L, hL⟩ := orderly_run hopens hplays (Nat.zero_le n)
    intro x hx hxT
    have hknown := (hL.placed x hx).known
    rw [hopens.nextTrigger, hxT] at hknown
    exact absurd (Nat.lt_one_iff.mp hknown) hT
  | succ k ih =>
    have hi := ih (Nat.le_of_succ_le hk)
    obtain ⟨L, hL⟩ := orderly_run hopens hplays (Nat.le_of_succ_le hk)
    have hs := (hplays k hk).step
    by_cases hknown : T < (run k).engine.nextTrigger
    · exact hi.next hL hT hknown hs (hturn k hk) (hother k hk hknown) (hwake k hk)
    · exact .of_unborn hL hs hT (Nat.le_of_not_lt hknown) (hborn k hk)

/-- What holds of the strand of a trigger when it is born at a step, and is kept from then on, holds of it at a
later step. -/
theorem during_since (hopens : Opens (run 0)) (hplays : ∀ k < n, Play (run k) (run (k + 1))) {a b : Nat}
    (hab : a < b) (hb : b ≤ n) {s : Strand} {node : String} {origin : Origin} {port : Option String} {seeds : Dict}
    (hstart : (run a).next = some (s, .call (.trigger node origin port seeds)))
    (hT : (run a).engine.nextTrigger = T)
    (hborn : ∀ x, Born (run a).engine s (.call (.trigger node origin port seeds)) x → P (a + 1) x)
    (hturn : ∀ k, a < k → k < b → ∀ s sig, (run k).next = some (s, sig) → s.scope.trigger = T →
      (¬∀ f ∈ s.frames, f.Outer) → P k (s, .turn sig) →
      (run k).engine.Finds (fun x => (∀ f ∈ x.1.frames, f.Outer) ∨ P (k + 1) x) ((run k).engine.turn s sig))
    (hother : ∀ k, a < k → k < b → ∀ x, P k x → P (k + 1) x)
    (hwake : ∀ k, a < k → k < b → ∀ s p e, P k (s, p) → P k (s, .turn (Engine.unpark e p).1)) :
    During T (P b) (run b) := by
  induction b, hab using Nat.le_induction with
  | base =>
    obtain ⟨L, hL⟩ := orderly_run hopens hplays (Nat.le_of_succ_le hb)
    have hT₀ : T ≠ 0 := hT ▸ hL.positive.ne'
    refine .of_unborn hL (hplays a hb).step hT₀ hT.le fun s' sig x hn _ hborn' => ?_
    obtain ⟨rfl, rfl⟩ := Prod.mk.inj (Option.some.inj (hn.symm.trans hstart))
    exact hborn x hborn'
  | succ k hak ih =>
    obtain ⟨L, hL⟩ := orderly_run hopens hplays (Nat.le_of_succ_le hb)
    have hknown := nextTrigger_lt_run hopens hplays hak (Nat.le_of_succ_le hb) hstart
    have hi := ih (Nat.le_of_succ_le hb) (fun j haj hjk => hturn j haj (Nat.lt_succ_of_lt hjk))
      (fun j haj hjk => hother j haj (Nat.lt_succ_of_lt hjk)) fun j haj hjk => hwake j haj (Nat.lt_succ_of_lt hjk)
    rw [hT] at hknown
    have hT₀ : T ≠ 0 := by
      obtain ⟨L, hL⟩ := orderly_run hopens hplays ((Nat.le_of_succ_le hak).trans (Nat.le_of_succ_le hb))
      exact hT ▸ hL.positive.ne'
    exact hi.next hL hT₀ hknown (hplays k hb).step (hturn k hak (Nat.lt_succ_self k))
      (fun _ => hother k hak (Nat.lt_succ_self k)) (hwake k hak (Nat.lt_succ_self k))

end Runs

end Patchbay
