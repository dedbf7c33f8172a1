import Patchbay.Proofs.Beats
import Patchbay.Proofs.Births

/-!
# Containment

A behaviour may fail in any way, but what reaches control flow is an error that was reported at a node: the
invocation turns a fault into one, and a fault that comes up from an input goes to the behaviour that asked for
it. So a trigger that has begun ends with a result, whatever happens inside it; unless a behaviour that its control
flow has invoked raises an error whose text cannot be written. Then nothing is reported, and a fault leaves the
trigger.

Contents:
* `Contained`: whether a strand raises no fault that leaves its trigger.
* `Signal.Spills`, `Engine.Turn.Spills`: whether an error without a text ends an invocation of control flow.
* `Within`: a trigger that a strand runs above other frames; `Conducts`: the same up to its result.
* `Fetches`: the same from its call on.

Results:
* `Contained.turn`: no other turn lets a fault out.
* `Engine.Turn.Spills.resumes`: such an error leaves its trigger as a fault.
* `Conducts.turn`, `Conducts.unpark`: a trigger that has begun goes on, or ends with a result.
* `Fetches.turn`, `Fetches.unpark`: a trigger goes on, ends with a result, or could not be set up.
-/

namespace Patchbay

/-- Every strand of a session fits the place that it is at. -/
theorem sits_run {run : Nat → Engine.Turn} {n : Nat} (hopens : Opens (run 0))
    (hbeats : ∀ k < n, Beat (run k) (run (k + 1))) {k : Nat} (hk : k ≤ n) : ∀ x ∈ (run k).population, ∃ b, Sits b x := by
  obtain ⟨L, ho⟩ := orderly_run hopens (fun k hk => (hbeats k hk).play) hk
  exact fun x hx => ⟨_, (ho.placed x hx).sits⟩

/-! ## Faults -/

/-- Whether a frame is of control flow, to which no fault comes. -/
def Frame.isFlow : Frame → Bool
  | .walk _ | .trigger _ _ => true
  | _ => false

/-- Whether a fault that comes to the first of some frames leaves a trigger. -/
def leadsOut : List Frame → Bool
  | .trigger _ _ :: _ | .walk _ :: .trigger _ _ :: _ => true
  | _ => false

/-- Whether a strand raises no fault that leaves its trigger. -/
def Contained (x : Strand × Parked) : Prop := x.2.isFault = true → leadsOut x.1.frames = false

theorem Contained.of_eq {x : Strand × Parked} (h : x.2.isFault = false) : Contained x := by
  intro hfault
  rw [h] at hfault
  cases hfault

theorem Frame.Outer.isFlow {f : Frame} (h : f.Outer) : f.isFlow = false := by
  cases f <;> first | rfl | exact h.elim

theorem leadsOut_of_head {fs : List Frame} (h : fs.head?.any Frame.isFlow = false) : leadsOut fs = false := by
  cases fs with
  | nil => rfl
  | cons f rest => cases f <;> first | rfl | cases h

/-- Outside triggers nothing leaves one. -/
theorem leadsOut_of_outer {fs : List Frame} (h : ∀ f ∈ fs, f.Outer) : leadsOut fs = false := by
  refine leadsOut_of_head ?_
  cases fs with
  | nil => rfl
  | cons f rest => exact (h f List.mem_cons_self).isFlow

namespace Stacked

variable {l : Level} {f : Frame} {fs : List Frame} {nodes : List String} {as : List Account}

/-- What waits for a value is no control flow. -/
theorem leadsOut_of_value (h : Stacked .value fs nodes as) : leadsOut fs = false := by
  cases h with
  | value => rfl
  | pull => rfl

/-- A fault that leaves a frame inside a trigger does not come to its control flow. -/
theorem leadsOut_below (h : Stacked l (f :: fs) nodes as) (hin : leadsOut (f :: fs) = false)
    (hcatches : f.catches = false) : leadsOut fs = false := by
  cases h with
  | outer hout => exact leadsOut_of_outer fun g hg => hout g (List.mem_cons_of_mem _ hg)
  | value hout => exact leadsOut_of_outer hout
  | output hs => exact hs.leadsOut_of_value
  | hop => rfl
  | trigger => cases hin
  | walk hs =>
    cases hs with
    | trigger => cases hin
    | advance => rfl
  | pull | advance | checkpoint | sleep => cases hcatches

/-- An invocation that a fault would leave a trigger from belongs to the control flow of the trigger. -/
theorem eq_of_leadsOut (h : Stacked .invocation fs nodes as) (hout : leadsOut fs = true) :
    ∃ agenda node origin base, fs = .walk agenda :: .trigger node origin :: base ∧ ∀ f ∈ base, f.Outer := by
  cases h with
  | walk hs =>
    cases hs with
    | trigger hall => exact ⟨_, _, _, _, rfl, hall⟩
    | advance => cases hout
  | output | hop => cases hout

end Stacked

/-- Whether a behaviour that the control flow of a trigger has invoked raises an error whose text cannot be written.
The trigger is above the frames `base`. -/
def Signal.Spills (sig : Signal) (fs : List Frame) (node : String) (origin : Origin) (base : List Frame) : Prop :=
  ∃ i g agenda, sig = .call (.behave i (.fail (.mute g))) ∧ fs = .walk agenda :: .trigger node origin :: base

variable {e : Engine} {s : Strand} {sig : Signal} {b : Book}

/-- No other turn lets a fault out of a trigger. -/
theorem Contained.turn (hc : Contained (s, .turn sig)) (hs : Sits b (s, .turn sig))
    (hheld : ∀ node origin base, ¬sig.Spills s.frames node origin base) {x : Strand × Parked} {id : Nat}
    (hx : Heir id (sig.below s.frames) (sig.mayFault s.frames) x) : Contained x := by
  intro hfault
  obtain ⟨hmay, hframes⟩ := hx.fault hfault
  rw [hframes]
  obtain ⟨nodes, -, hfits⟩ := hs.fits
  cases sig with
  | call c =>
    cases c with
    | walk | invoke => cases hmay
    | behave i script =>
      obtain ⟨g, rfl⟩ : ∃ g, script = .fail (.mute g) := by
        simp only [Signal.mayFault] at hmay
        split at hmay <;> simp_all
      cases hfits with
      | begins hc => exact hc.elim
      | behaves _ _ h =>
        by_contra hout
        obtain ⟨agenda, node, origin, base, hfs, -⟩ := h.eq_of_leadsOut (Bool.not_eq_false _ ▸ hout)
        exact hheld node origin base ⟨i, g, agenda, rfl, hfs⟩
    | trigger | run | request => exact leadsOut_of_outer (hs.outer_of_call trivial)
    | input =>
      cases hfits with
      | begins hc => exact hc.elim
      | input h => exact h.leadsOut_of_value
    | output =>
      cases hfits with
      | begins hc => exact hc.elim
      | output h => exact h.leadsOut_of_value
  | back r => cases hmay
  | raise err =>
    obtain ⟨hfaulty, hcatches⟩ : (Signal.raise err).isFault = true ∧ s.frames.head?.any Frame.catches = false := by
      cases err with
      | failure => cases hmay
      | fault | mute => exact ⟨rfl, by simpa [Signal.mayFault] using hmay⟩
    have hin : leadsOut s.frames = false := hc hfaulty
    cases hfr : s.frames with
    | nil => rfl
    | cons f rest =>
      rw [hfr] at hfits hin hcatches
      cases hfits with
      | raised h => exact h.leadsOut_below hin hcatches

/-! ## Faults that leave a trigger -/

/-- Whether what a strand had called is over in a state: the strand goes on with what it had in progress. -/
def Engine.Turn.Resumes (t : Engine.Turn) (s : Strand) (sig : Signal) : Prop :=
  ∃ s' : Strand, t.next = some (s', sig) ∧ s'.id = s.id ∧ s'.frames = s.frames

/-- Whether an error without a text ends an invocation of the control flow of a trigger, which the strand `s` has
begun. -/
def Engine.Turn.Spills (t : Engine.Turn) (s : Strand) (node : String) (origin : Origin) : Prop :=
  ∃ (s' : Strand) (sig : Signal), t.next = some (s', sig) ∧ s'.id = s.id ∧ sig.Spills s'.frames node origin s.frames

/-- An error without a text leaves its trigger as a fault, with nothing between. -/
theorem Engine.Turn.Spills.resumes {t t₁ t₂ t₃ : Engine.Turn} {node : String} {origin : Origin}
    (h : t.Spills s node origin) (hb : Beat t t₁) (hb₁ : Beat t₁ t₂) (hb₂ : Beat t₂ t₃) :
    t₃.Resumes s (.raise (.fault .value)) := by
  obtain ⟨s', sig, hn, hid, i, g, agenda, rfl, hf⟩ := h
  -- out of the invocation, of the walk and of the trigger
  obtain rfl : t₁ = t.engine.go s' (.raise (.fault .value)) := hb.play.eq_turn hn
  obtain rfl := hb₁.play.eq_turn rfl
  rw [Engine.turn_raise hf] at hb₂
  obtain rfl := hb₂.play.eq_turn rfl
  exact ⟨_, rfl, hid, rfl⟩

/-! ## Triggers -/

/-- Whether a trigger of a strand above the frames `base` has begun and goes on. -/
def Within (node : String) (origin : Origin) (base : List Frame) (x : Strand × Parked) : Prop :=
  ∃ pre, x.1.frames = pre ++ .trigger node origin :: base ∧ Contained x

/-- A trigger of a strand above the frames `base` that has begun: it goes on, or it is over and its result goes to
those frames. -/
inductive Conducts (node : String) (origin : Origin) (base : List Frame) : Strand × Parked → Prop
  | within {s : Strand} {p : Parked} (pre : List Frame) (hf : s.frames = pre ++ .trigger node origin :: base)
      (hc : Contained (s, p)) : Conducts node origin base (s, p)
  | yields {s : Strand} {r : TriggerResult} (hf : s.frames = base) (hr : r.origin = node) :
      Conducts node origin base (s, .turn (.back (.response (.trigger r))))

/-- A trigger of a strand above the frames `base`: it is about to begin, or it has begun. -/
inductive Fetches (node : String) (origin : Origin) (base : List Frame) : Strand × Parked → Prop
  | begins {s : Strand} (hf : s.frames = base) :
      Fetches node origin base (s, .turn (.call (.trigger node origin none [])))
  | conducts {x : Strand × Parked} (h : Conducts node origin base x) : Fetches node origin base x

/-- Above a trigger there is nothing of a request, a run or a task. -/
theorem Sits.not_outer_above {q : Parked} (h : Sits b (s, q)) {node : String} {origin : Origin} {f : Frame}
    {pre base : List Frame} (hf : s.frames = f :: pre ++ .trigger node origin :: base) : ¬f.Outer := by
  intro hout
  have hall := h.outer_of_outer hf hout
  refine hall (.trigger node origin) ?_
  rw [hf]
  simp

namespace Conducts

variable {node : String} {origin : Origin} {base : List Frame}

/-- A strand with a trigger waits for its turn or for a sleep. -/
theorem parked {p : Parked} (h : Conducts node origin base (s, p)) (hs : Sits b (s, p)) :
    (∃ sig, p = .turn sig) ∨ ∃ i, p = .sleep i := by
  cases h with
  | yields => exact .inl ⟨_, rfl⟩
  | within pre hf hc =>
    have houter : ∀ {nodes as}, Stacked .outer s.frames nodes as → False := by
      intro nodes as hst
      cases hst with
      | outer hall => exact hall (.trigger node origin) (by simp [hf])
    cases p with
    | turn sig => exact .inl ⟨sig, rfl⟩
    | sleep i => exact .inr ⟨i, rfl⟩
    | task id =>
      obtain ⟨nodes, -, hfits⟩ := hs.fits
      cases hfits with
      | joins h => exact (houter h).elim
    | gather id =>
      obtain ⟨nodes, -, hfits⟩ := hs.fits
      cases hfits with
      | gathers h => exact (houter h).elim

/-- A strand that is taken up goes on with its trigger. -/
theorem unpark {p : Parked} (h : Conducts node origin base (s, p)) (hs : Sits b (s, p)) (e : Engine) :
    Conducts node origin base (s, .turn (e.unpark p).1) := by
  obtain ⟨sig, rfl⟩ | ⟨i, rfl⟩ := h.parked hs
  · exact h
  · cases h with
    | within pre hf hc => exact .within pre hf (.of_eq rfl)

/-- A strand with a trigger that has begun begins no other one. -/
theorem ne_trigger {p : Parked} (h : Conducts node origin base (s, p)) (hs : Sits b (s, p)) (node' : String)
    (origin' : Origin) (port : Option String) (seeds : Dict) :
    p ≠ .turn (.call (.trigger node' origin' port seeds)) := by
  rintro rfl
  cases h with
  | within pre hf hc =>
    have hout := hs.outer_of_call trivial
    exact hout (.trigger node origin) (by simp [hf])

theorem of_within {x : Strand × Parked} (h : Within node origin base x) : Conducts node origin base x := by
  obtain ⟨pre, hf, hc⟩ := h
  exact .within pre hf hc

/-- What leaves a trigger of a strand leaves the one that the strand has in progress. -/
theorem spills_of_spills {pre : List Frame} (hf : s.frames = pre ++ .trigger node origin :: base)
    (hs : Sits b (s, .turn sig)) {node' : String} {origin' : Origin} {base' : List Frame}
    (h : sig.Spills s.frames node' origin' base') : sig.Spills s.frames node origin base := by
  obtain ⟨i, g, agenda, rfl, hf'⟩ := h
  refine ⟨i, g, agenda, rfl, ?_⟩
  obtain ⟨nodes, -, hfits⟩ := hs.fits
  dsimp only at hfits
  cases hfits with
  | begins hc => exact hc.elim
  | behaves _ _ hst =>
    rw [hf'] at hst
    cases hst with
    | walk hst =>
      cases hst with
      | trigger hall =>
        rw [hf'] at hf ⊢
        match pre with
        | [] => cases hf
        | [f] =>
          obtain ⟨rfl, hrest⟩ := List.cons.inj hf
          rw [hrest]
          rfl
        | f :: g :: pre =>
          obtain ⟨-, hrest⟩ := List.cons.inj hf
          obtain ⟨-, hrest⟩ := List.cons.inj hrest
          exact (hall (.trigger node origin) (by simp [hrest])).elim

/-- A turn that comes to nothing outside the trigger leaves it in progress. -/
theorem stays (pre : List Frame) (hbelow : sig.below s.frames = pre ++ .trigger node origin :: base)
    (htop : ∀ f, sig.top s.frames = some f → ¬f.Outer) (hc : Contained (s, .turn sig)) (hs : Sits b (s, .turn sig))
    (hheld : ∀ node origin base, ¬sig.Spills s.frames node origin base) :
    ∃ x ∈ (e.turn s sig).population, x.1.id = s.id ∧ Within node origin base x := by
  obtain ⟨own, news, hpop, -, -, hown, hover⟩ := (turn_passes e s sig).population
  cases own with
  | none =>
    rcases hover rfl with ⟨f, hf, hout⟩ | ⟨-, hnil⟩
    · exact absurd hout (htop f hf)
    · rw [hbelow] at hnil
      simp at hnil
  | some x =>
    rcases hown x rfl with hheir | ⟨hsession, -⟩
    · obtain ⟨pushed, hf, -⟩ := hheir.frames
      refine ⟨x, by simp [hpop], hheir.id, pushed ++ pre, ?_, hc.turn hs hheld hheir⟩
      rw [hf, hbelow, List.append_assoc]
    · exact absurd trivial (htop _ hsession)

/-- The turn of a strand that has a trigger in progress: the trigger goes on, or it ends, or an error without a text
is about to leave it. -/
theorem turn_within {pre : List Frame} (hf : s.frames = pre ++ .trigger node origin :: base)
    (hc : Contained (s, .turn sig)) (hs : Sits b (s, .turn sig)) :
    (∀ f, sig.top s.frames = some f → ¬f.Outer) ∧
      ((∃ x ∈ (e.turn s sig).population, x.1.id = s.id ∧ Within node origin base x) ∨
        (∃ error, e.turn s sig = e.endTrigger { s with frames := base } node origin error) ∨
        sig.Spills s.frames node origin base) := by
  have htop : ∀ f, sig.top s.frames = some f → ¬f.Outer := by
    intro f hfirst
    cases sig with
    | call c => cases hfirst
    | back | raise =>
      cases pre with
      | nil =>
        rw [hf] at hfirst
        obtain rfl := Option.some.inj hfirst
        exact id
      | cons g pre =>
        rw [hf] at hfirst
        obtain rfl := Option.some.inj hfirst
        exact hs.not_outer_above hf
  refine ⟨htop, ?_⟩
  by_cases hspills : sig.Spills s.frames node origin base
  · exact .inr (.inr hspills)
  have hheld : ∀ node' origin' base', ¬sig.Spills s.frames node' origin' base' :=
    fun _ _ _ h => hspills (spills_of_spills hf hs h)
  rw [or_iff_left hspills]
  -- with nothing above its frame, what returns or raises ends the trigger; else it stays above
  cases sig with
  | call c => exact .inl (stays pre hf htop hc hs hheld)
  | back r =>
    cases pre with
    | nil =>
      rw [Engine.turn_back hf]
      exact .inr ⟨none, rfl⟩
    | cons g pre =>
      refine .inl (stays pre ?_ htop hc hs hheld)
      simp [Signal.below, hf]
  | raise err =>
    cases pre with
    | nil =>
      rw [Engine.turn_raise hf]
      cases err with
      | failure x => exact .inr ⟨some x, rfl⟩
      | fault | mute =>
        have hin := hc rfl
        dsimp only at hin
        rw [hf] at hin
        cases hin
    | cons g pre =>
      refine .inl (stays pre ?_ htop hc hs hheld)
      simp [Signal.below, hf]

/-- The turn of a strand with a trigger that has begun: it is over and its result goes on, or it goes on, or an
error without a text is about to leave it. -/
theorem turn (h : Conducts node origin base (s, .turn sig)) (hs : Sits b (s, .turn sig)) :
    (∃ r, sig = .back (.response (.trigger r)) ∧ s.frames = base ∧ r.origin = node) ∨
      ((sig.top s.frames).bind Frame.task? = none ∧
        ∃ x ∈ (e.turn s sig).population, x.1.id = s.id ∧ Conducts node origin base x) ∨
      sig.Spills s.frames node origin base := by
  cases h with
  | yields hf hr => exact .inl ⟨_, rfl, hf, hr⟩
  | within pre hf hc =>
    obtain ⟨htop, hturn⟩ := turn_within (e := e) hf hc hs
    have htask : (sig.top s.frames).bind Frame.task? = none := by
      cases hfirst : sig.top s.frames with
      | none => rfl
      | some f =>
        have hout := htop f hfirst
        cases f <;> first | rfl | exact absurd trivial hout
    rcases hturn with ⟨x, hx, hid, hwithin⟩ | ⟨error, hends⟩ | hspills
    · exact .inr (.inl ⟨htask, x, hx, hid, .of_within hwithin⟩)
    · rw [hends]
      exact .inr (.inl ⟨htask, _, List.mem_cons_self, rfl, .yields rfl rfl⟩)
    · exact .inr (.inr hspills)

end Conducts

namespace Fetches

variable {node : String} {origin : Origin} {base : List Frame}

/-- A strand with a trigger waits for its turn or for a sleep. -/
theorem parked {p : Parked} (h : Fetches node origin base (s, p)) (hs : Sits b (s, p)) :
    (∃ sig, p = .turn sig) ∨ ∃ i, p = .sleep i := by
  cases h with
  | begins => exact .inl ⟨_, rfl⟩
  | conducts h => exact h.parked hs

/-- A strand that is taken up goes on with its trigger. -/
theorem unpark {p : Parked} (h : Fetches node origin base (s, p)) (hs : Sits b (s, p)) (e : Engine) :
    Fetches node origin base (s, .turn (e.unpark p).1) := by
  cases h with
  | begins hf => exact .begins hf
  | conducts h => exact .conducts (h.unpark hs e)

theorem armed_of_ne (e : Engine) (node : String) (h : origin ≠ .arm) : e.armed node origin = (.ok (), e) := by
  unfold Engine.armed
  rw [if_neg (by simpa using h)]

/-- The turn of a strand with a trigger: it is over and its result goes on; or its node could not be set up; or it
goes on; or an error without a text is about to leave it. -/
theorem turn (h : Fetches node origin base (s, .turn sig)) (hs : Sits b (s, .turn sig)) :
    (∃ r, sig = .back (.response (.trigger r)) ∧ s.frames = base ∧ r.origin = node) ∨
      (∃ err, ∃ e' : Engine, sig = .call (.trigger node .arm none []) ∧ origin = .arm ∧ e.running = true ∧
        (e.armed node .arm).1 = .error err ∧ e.turn s sig = e'.go s (.raise err) ∧ s.frames = base) ∨
      ((sig.top s.frames).bind Frame.task? = none ∧
        ∃ x ∈ (e.turn s sig).population, x.1.id = s.id ∧ Fetches node origin base x) ∨
      sig.Spills s.frames node origin base := by
  cases h with
  | conducts h =>
    rcases h.turn (e := e) hs with hover | ⟨htop, x, hx, hid, hconducts⟩ | hspills
    · exact .inl hover
    · exact .inr (.inr (.inl ⟨htop, x, hx, hid, .conducts hconducts⟩))
    · exact .inr (.inr (.inr hspills))
  | begins hf =>
    have heq : e.turn s (.call (.trigger node origin none [])) = e.startTrigger s node origin none [] := rfl
    cases hrun : e.running with
    | false =>
      rw [heq, Engine.startTrigger_refused hrun]
      exact .inr (.inr (.inl ⟨rfl, _, List.mem_cons_self, rfl, .conducts (.yields hf rfl)⟩))
    | true =>
      have hfresh := Engine.armed_freshScope e node origin
      rw [heq, Engine.startTrigger_eq e s node origin none [] hrun]
      generalize e.freshScope.2.armed node origin = armed at hfresh ⊢
      obtain ⟨result, e₁⟩ := armed
      cases result with
      | error err =>
        have harm : origin = .arm := by
          by_contra hne
          rw [armed_of_ne e node hne] at hfresh
          cases hfresh
        subst harm
        exact .inr (.inl ⟨err, e₁, rfl, rfl, rfl, hfresh.symm, rfl, hf⟩)
      | ok u =>
        exact .inr (.inr (.inl ⟨rfl, _, List.mem_cons_self, rfl, .conducts (.within [] (by simp [hf]) (.of_eq rfl))⟩))

end Fetches

end Patchbay
