import Patchbay.Proofs.Telling

/-!
# What is heard of a trigger

Observers hear of a trigger from its start on, by the turns of the one strand that runs it. When the
trigger is over its strand goes on outside, with the request or task that waited for the trigger, and
nothing more is heard of it.

Contents:
* `Engine.heard`: what observers were told of a trigger; `Engine.Turn.toldOf`: what a turn adds.
* `During`: what holds of the strand inside a trigger; `Over`: whether there is none any more.

Results:
* `heard_step`: what a step adds to what was heard.
* `turn_staysOut`: a turn outside triggers leaves its strand outside, or in a new trigger.
* `During.step`: what the turns of the strand inside a trigger keep is kept by every step.
* `Over.step`, `Over.toldOf_eq_nil`: a trigger that is over stays so, and no turn tells of it.
-/

namespace Patchbay

/-! ## What was heard -/

/-- What observers were told of a trigger, oldest first. -/
def Engine.heard (e : Engine) (T : Nat) : List Notice :=
  e.trace.toList.filter fun n => n.trigger? == some T

/-- What the turn of the strand under way tells of a trigger. -/
def Engine.Turn.toldOf (t : Engine.Turn) (T : Nat) : List Notice :=
  t.told.filter fun n => n.trigger? == some T

theorem Engine.heard_eq_filter_record (e : Engine) (T : Nat) :
    e.heard T = e.record.filter fun n => n.trigger? == some T := by
  rw [Engine.record, List.filter_filter]
  refine List.filter_congr fun n _ => ?_
  cases h : n.trigger? with
  | none => rfl
  | some m => simp

/-- A step adds to what was heard of a trigger what its turn tells of it. -/
theorem heard_step {t t' : Engine.Turn} (h : Step t t') (T : Nat) :
    t'.engine.heard T = t.engine.heard T ++ t.toldOf T := by
  rw [Engine.heard_eq_filter_record, (Engine.Turn.tells_step h).record, List.filter_append,
    ← Engine.heard_eq_filter_record]
  rfl

theorem Engine.Turn.toldOf_of_none {t : Engine.Turn} (h : t.next = none) (T : Nat) : t.toldOf T = [] := by
  rw [toldOf, told_of_none h, List.filter_nil]

/-- A turn tells only of the trigger of its strand and of one that starts. -/
theorem Engine.Turn.toldOf_eq_nil {t : Engine.Turn} {T : Nat} (hnext : T < t.engine.nextTrigger)
    (hs : ∀ s sig, t.next = some (s, sig) → s.scope.trigger ≠ T) : t.toldOf T = [] := by
  cases hn : t.next with
  | none => exact toldOf_of_none hn T
  | some x =>
    obtain ⟨s, sig⟩ := x
    rw [toldOf, told_of_next hn, List.filter_eq_nil_iff]
    intro n hmem
    rcases Engine.trigger?_of_mem_told hmem with htrigger | ⟨node, origin, port, seeds, -, rfl⟩
    · simpa [htrigger] using hs s sig hn
    · simpa [Notice.trigger?] using hnext.ne'

/-- What a turn tells is of the trigger of its strand, unless one starts. -/
theorem Engine.Turn.toldOf_of_next {t : Engine.Turn} {s : Strand} {sig : Signal} (hn : t.next = some (s, sig))
    (hsig : ∀ node origin port seeds, sig ≠ .call (.trigger node origin port seeds)) :
    t.toldOf s.scope.trigger = t.engine.told s sig := by
  rw [toldOf, told_of_next hn, List.filter_eq_self]
  intro n hmem
  rcases Engine.trigger?_of_mem_told hmem with htrigger | ⟨node, origin, port, seeds, heq, -⟩
  · rw [htrigger, beq_self_eq_true]
  · exact absurd heq (hsig node origin port seeds)

/-! ## The strand of a trigger -/

section Strands

variable {lo : Nat → Dependency → Nat} {L : Ledger} {t : Engine.Turn} {s : Strand} {sig : Signal} {T : Nat}

theorem Engine.Turn.population_of_next (hn : t.next = some (s, sig)) :
    t.population = (s, .turn sig) :: t.engine.strands := by
  simp [population, hn]

theorem Engine.Turn.mem_population_of_next (hn : t.next = some (s, sig)) : (s, .turn sig) ∈ t.population := by
  rw [population_of_next hn]
  exact List.mem_cons_self

/-- Beside the strand that has the turn no other is in its trigger. -/
theorem Orderly.apart_of_next (h : Orderly lo L t) (hn : t.next = some (s, sig)) (hT : s.scope.trigger ≠ 0)
    {y : Strand × Parked} (hy : y ∈ t.engine.strands) : y.1.scope.trigger ≠ s.scope.trigger := by
  have hapart := h.apart
  rw [Engine.Turn.population_of_next hn] at hapart
  intro heq
  exact hT ((List.pairwise_cons.mp hapart).1 y hy heq.symm)

/-- A strand in a trigger that was known before a turn of another strand has waited all along. -/
theorem Orderly.mem_of_other (h : Orderly lo L t) (hn : t.next = some (s, sig)) (hT : T ≠ 0)
    (hknown : T < t.engine.nextTrigger) (hs : s.scope.trigger ≠ T) {x : Strand × Parked}
    (hx : x ∈ (t.engine.turn s sig).population) (hxT : x.1.scope.trigger = T) : x ∈ t.engine.strands := by
  have hp := h.placed _ (Engine.Turn.mem_population_of_next hn)
  obtain ⟨own, g⟩ := turn_goes hp.sits (fun y hy => (hp.within.last.kept y hy).1) h.positive
  obtain ⟨news, hpop, hnews⟩ := g.population
  rw [hpop, List.mem_append, List.mem_append] at hx
  rcases hx with hx | hx | hx
  · cases g.follows x (Option.mem_toList.mp hx) with
    | moves hm _ => exact absurd (hm.trigger.symm.trans hxT) hs
    | fresh ht _ _ => exact absurd (ht.symm.trans hxT) hknown.ne'
  · rw [(hnews x hx).scope] at hxT
    exact absurd hxT.symm hT
  · exact hx

end Strands

/-! ## Outside triggers -/

/-- Whether all strands still wait, beside new ones. -/
def Engine.Welcomes (e e' : Engine) : Prop := ∃ news, e'.strands = news ++ e.strands ∧ ∀ x ∈ news, Newcomer x

theorem Engine.Welcomes.of_eq {e e' : Engine} (h : e'.strands = e.strands) : e.Welcomes e' :=
  ⟨[], h, by simp⟩

/-- Where every strand comes from after a turn: it waited, it is new, or it is the strand of the turn and `P`
holds of it. -/
def Engine.Finds (e : Engine) (P : Strand × Parked → Prop) (t : Engine.Turn) : Prop :=
  ∀ x ∈ t.population, x ∈ e.strands ∨ Newcomer x ∨ P x

namespace Engine.Finds

variable {e e' : Engine} {P : Strand × Parked → Prop} {s' : Strand}

theorem of_mem (h : e.Welcomes e') {x : Strand × Parked} (hx : x ∈ e'.strands) :
    x ∈ e.strands ∨ Newcomer x ∨ P x := by
  obtain ⟨news, hs, hn⟩ := h
  rw [hs, List.mem_append] at hx
  exact hx.elim (fun hx => .inr (.inl (hn x hx))) .inl

theorem ended (h : e.Welcomes e') : e.Finds P ⟨e', none⟩ := fun _ hx => of_mem h hx

theorem go (h : e.Welcomes e') {sig : Signal} (hP : P (s', .turn sig)) : e.Finds P (e'.go s' sig) := by
  intro x hx
  rcases List.mem_cons.mp hx with rfl | hx
  · exact .inr (.inr hP)
  · exact of_mem h hx

theorem park (h : e.Welcomes e') {p : Parked} (hP : P (s', p)) : e.Finds P ⟨e'.park s' p, none⟩ := by
  intro x hx
  rcases List.mem_cons.mp hx with rfl | hx
  · exact .inr (.inr hP)
  · exact of_mem h hx

theorem mono {Q : Strand × Parked → Prop} {t : Engine.Turn} (h : e.Finds P t) (hPQ : ∀ x, P x → Q x) :
    e.Finds Q t :=
  fun x hx => (h x hx).imp_right fun hx => hx.imp_right (hPQ x)

end Engine.Finds

/-- Whether a turn outside triggers has left its strand outside, or in a new trigger. -/
abbrev StaysOut (e : Engine) (sc : Scope) (t : Engine.Turn) : Prop :=
  e.Finds (fun x => x.1.scope.trigger = e.nextTrigger ∨ x.1.scope = sc ∧ ∀ f ∈ x.1.frames, f.Outer) t

namespace StaysOut

variable {e e' : Engine} {sc : Scope} {s' : Strand}

theorem ended (h : e.Welcomes e') : StaysOut e sc ⟨e', none⟩ := Engine.Finds.ended h

theorem go (h : e.Welcomes e') (hs : s'.scope = sc) (hf : ∀ f ∈ s'.frames, f.Outer) (sig : Signal) :
    StaysOut e sc (e'.go s' sig) :=
  Engine.Finds.go h (.inr ⟨hs, hf⟩)

theorem park (h : e.Welcomes e') (hs : s'.scope = sc) (hf : ∀ f ∈ s'.frames, f.Outer) (p : Parked) :
    StaysOut e sc ⟨e'.park s' p, none⟩ :=
  Engine.Finds.park h (.inr ⟨hs, hf⟩)

/-- The strand is in a new trigger. -/
theorem fresh (h : e.Welcomes e') (ht : s'.scope.trigger = e.nextTrigger) (sig : Signal) :
    StaysOut e sc (e'.go s' sig) :=
  Engine.Finds.go h (.inl ht)

end StaysOut

section Turns

variable {e e' : Engine} {s : Strand} (hf : ∀ f ∈ s.frames, f.Outer)

include hf

theorem startTrigger_staysOut (node : String) (origin : Origin) (port : Option String) (seeds : Dict) :
    StaysOut e s.scope (e.startTrigger s node origin port seeds) := by
  cases hrun : e.running with
  | false =>
    have hrun' : e.freshScope.2.running = false := hrun
    simp only [Engine.startTrigger, hrun', Bool.not_false, if_true]
    have hsame : e.Welcomes e.freshScope.2 := .of_eq rfl
    exact .go hsame rfl hf _
  | true =>
    have harmed : e.Welcomes (e.freshScope.2.armed node origin).2 := (Engine.armed_tended _ node origin).strands
    rw [Engine.startTrigger_eq e s node origin port seeds hrun]
    generalize e.freshScope.2.armed node origin = x at harmed ⊢
    obtain ⟨r, e₁⟩ := x
    cases r with
    | error err => exact .go harmed rfl hf _
    | ok u => exact .fresh harmed (Scope.Extends.publishAll node seeds { trigger := e.nextTrigger }).trigger _

theorem armNext_staysOut (h : e.strands = e'.strands) (rest starts : List String)
    (results : List TriggerResult) : StaysOut e s.scope (e'.armNext s rest starts results) := by
  have hframes : ∀ f, f.Outer → ∀ g ∈ f :: s.frames, g.Outer :=
    fun f hout => List.forall_mem_cons.mpr ⟨hout, hf⟩
  cases rest with
  | cons node rest => exact .go (.of_eq h.symm) rfl (hframes (.arming rest starts results) trivial) _
  | nil =>
    have hstrands := ((Engine.Tended.spawnStarts starts e').trans (.gather _ (e'.spawnStarts starts).1 s.id)).strands
    rw [← h] at hstrands
    exact .park hstrands rfl (hframes (.gathering results) trivial) _

theorem startRun_staysOut : StaysOut e s.scope (e.startRun s) := by
  unfold Engine.startRun
  split
  · exact .go (.of_eq rfl) rfl hf _
  · exact armNext_staysOut hf rfl _ _ _

theorem step_staysOut : StaysOut e s.scope (e.step s) := by
  unfold Engine.step
  split
  · exact .go (.of_eq rfl) rfl hf _
  · next hnext =>
    obtain ⟨rest, rfl | ⟨-, rfl⟩⟩ := Engine.nextStep_eq_ok hnext
    · exact .go (.of_eq rfl) rfl hf _
    · exact .go (.of_eq rfl) rfl hf _

theorem join_staysOut (results : List TriggerResult) : StaysOut e s.scope (e.join s results) := by
  unfold Engine.join
  split
  · exact .go (.of_eq rfl) rfl hf _
  · exact .park (Engine.Tended.gather e _ _).strands rfl (List.forall_mem_cons.mpr ⟨trivial, hf⟩) _

theorem tick_staysOut (n : Nat) : StaysOut e s.scope (e.tick s n) := by
  cases n with
  | zero => exact .go (.of_eq rfl) rfl hf _
  | succ n => exact .park (.of_eq rfl) rfl (List.forall_mem_cons.mpr ⟨trivial, hf⟩) _

theorem pass_staysOut (ms : Value) : StaysOut e s.scope (e.pass s ms) := by
  have hframes : ∀ f ∈ Frame.advancing :: s.frames, f.Outer := List.forall_mem_cons.mpr ⟨trivial, hf⟩
  unfold Engine.pass
  dsimp only
  split
  · split
    · exact .park (.of_eq rfl) rfl hframes _
    · split
      · exact .go (.of_eq rfl) rfl hf _
      · exact .park (.of_eq rfl) rfl hframes _
  · exact .go (.of_eq rfl) rfl hf _
  · exact .go (.of_eq rfl) rfl hf _

theorem waitRun_staysOut (name : String) : StaysOut e s.scope (e.waitRun s name) := by
  unfold Engine.waitRun
  split
  · exact .go (.of_eq rfl) rfl hf _
  · split
    · exact .go (.of_eq rfl) rfl hf _
    · exact .go (.of_eq rfl) rfl hf _
    · exact .park (Engine.Tended.onDone e _ _).strands rfl hf _

theorem request_staysOut (r : Request) : StaysOut e s.scope (e.request s r) := by
  cases r with
  | command c =>
    rw [Engine.request_command]
    exact .go (Engine.Tended.command e c).strands rfl hf _
  | run => exact .go (.of_eq rfl) rfl hf _
  | step => exact step_staysOut hf
  | runNode id =>
    refine .go (.of_eq ?_) rfl (List.forall_mem_cons.mpr ⟨trivial, hf⟩) _
    split <;> rfl
  | pull id port =>
    have hsame : e.Welcomes e.freshScope.2 := .of_eq rfl
    exact .fresh hsame rfl _
  | join => exact join_staysOut hf []
  | startRun name => exact .go (Engine.Tended.startTask e (c := .run) trivial []).strands rfl hf _
  | waitRun name => exact waitRun_staysOut hf name
  | tick n => exact tick_staysOut hf n
  | advance ms => exact pass_staysOut hf ms
  | refused err => exact .go (.of_eq rfl) rfl hf _

omit hf in
theorem answerRequest_staysOut (result : Except Raised Response) :
    StaysOut e s.scope (e.answerRequest s result) := by
  unfold Engine.answerRequest Engine.nextRequest
  dsimp only
  split
  · exact .ended (.of_eq rfl)
  · exact .go (.of_eq rfl) rfl (by simp [Frame.Outer]) _

theorem back_staysOut {f : Frame} (hout : f.Outer) (r : Result) : StaysOut e s.scope (e.back s f r) := by
  have hback : ∀ sig, StaysOut e s.scope (e.go s sig) := .go (.of_eq rfl) rfl hf
  cases f with
  | arming rest starts results =>
    cases r with
    | response x => cases x <;> exact armNext_staysOut hf rfl _ _ _
    | _ => exact armNext_staysOut hf rfl _ _ _
  | gathering results =>
    cases r with
    | response x => cases x <;> exact hback _
    | _ => exact hback _
  | direct =>
    cases r with
    | response x =>
      cases x with
      | trigger t =>
        simp only [Engine.back]
        split <;> exact hback _
      | _ => exact hback _
    | _ => exact hback _
  | joining results =>
    cases r with
    | response x => cases x <;> exact join_staysOut hf _
    | _ => exact join_staysOut hf _
  | ticking n => cases r <;> exact tick_staysOut hf n
  | advancing => cases r <;> exact hback _
  | task id => cases r <;> exact .ended (Engine.Tended.completeTask e id _).strands
  | session => cases r <;> exact answerRequest_staysOut _
  | _ => exact hout.elim

theorem raise_staysOut {f : Frame} (hout : f.Outer) (err : Raised) : StaysOut e s.scope (e.raise s f err) := by
  cases f with
  | task id => exact .ended (Engine.Tended.completeTask e id _).strands
  | session => exact answerRequest_staysOut _
  | behavior | walk | output | hop | trigger | value => exact hout.elim
  | _ => exact .go (.of_eq rfl) rfl hf _

/-- A turn outside triggers leaves its strand outside, or in a new trigger. -/
theorem turn_staysOut {sig : Signal} (hsig : sig.Outer) : StaysOut e s.scope (e.turn s sig) := by
  obtain ⟨id, sc, frames⟩ := s
  cases sig with
  | call c =>
    cases c with
    | trigger node origin port seeds => exact startTrigger_staysOut hf node origin port seeds
    | run => exact startRun_staysOut hf
    | request r => exact request_staysOut hf r
    | _ => exact hsig.elim
  | back r =>
    cases frames with
    | nil => exact .ended (.of_eq rfl)
    | cons f frames =>
      obtain ⟨hout, hrest⟩ := List.forall_mem_cons.mp hf
      exact back_staysOut (s := ⟨id, sc, frames⟩) hrest hout r
  | raise err =>
    cases frames with
    | nil => exact .ended (.of_eq rfl)
    | cons f frames =>
      obtain ⟨hout, hrest⟩ := List.forall_mem_cons.mp hf
      exact raise_staysOut (s := ⟨id, sc, frames⟩) hrest hout err

end Turns

/-! ## Strands inside a trigger -/

/-- Whether `P` holds of every strand inside a trigger. A strand that is done with it is outside. -/
def During (T : Nat) (P : Strand × Parked → Prop) (t : Engine.Turn) : Prop :=
  ∀ x ∈ t.population, x.1.scope.trigger = T → (∀ f ∈ x.1.frames, f.Outer) ∨ P x

/-- A strand with a frame on top that is not an outer one is inside its trigger. -/
theorem not_outer_of_top {frames fs : List Frame} {f : Frame} (hf : frames = f :: fs) (hout : ¬f.Outer) :
    ¬∀ g ∈ frames, g.Outer := by
  rw [hf]
  exact fun hall => hout (hall f List.mem_cons_self)

/-- What holds inside a trigger holds of the strand that takes the turn with such a frame on top. -/
theorem During.of_top {t : Engine.Turn} {T : Nat} {P : Strand × Parked → Prop} {s : Strand} {sig : Signal}
    {f : Frame} {fs : List Frame} (h : During T P t) (hn : t.next = some (s, sig)) (hs : s.scope.trigger = T)
    (hf : s.frames = f :: fs) (hout : ¬f.Outer) : P (s, .turn sig) :=
  (h _ (Engine.Turn.mem_population_of_next hn) hs).resolve_left (not_outer_of_top hf hout)

/-- What a strand outside triggers does next is about no trigger in progress. -/
theorem Sits.outer_of_frames {b : Book} {s : Strand} {sig : Signal} (h : Sits b (s, .turn sig))
    (hf : ∀ f ∈ s.frames, f.Outer) : sig.Outer := by
  obtain ⟨nodes, -, hfits⟩ := h.fits
  cases hfits with
  | begins hc _ => exact hc
  | answers | walked | invoked | pulled | woken | raised => exact trivial
  | walks hs => exact absurd hf (hs.not_outer nofun)
  | invokes _ _ hs => exact absurd hf (hs.not_outer nofun)
  | behaves _ _ hs => exact absurd hf (hs.not_outer nofun)
  | input hs => exact absurd hf (hs.not_outer nofun)
  | output hs => exact absurd hf (hs.not_outer nofun)

/-- By a job of the loop, a strand in a trigger goes on waiting, or what it waits for has come and it is taken up
again. -/
theorem Engine.handle_waits (e : Engine) (j : Job) {x : Strand × Parked} (hx : x ∈ (e.handle j).population)
    (hT : x.1.scope.trigger ≠ 0) :
    x ∈ e.strands ∨ ∃ p, ∃ e₁ : Engine, (x.1, p) ∈ e.strands ∧ e.hasCome p = true ∧ e₁.scheduler = e.scheduler ∧
      x.2 = .turn (e₁.unpark p).1 := by
  have htended : ∀ {e' : Engine}, e.Tended e' → x ∈ e'.strands → x ∈ e.strands := by
    intro e' ht hmem
    obtain ⟨news, hstrands, hnews⟩ := ht.strands
    rw [hstrands, List.mem_append] at hmem
    rcases hmem with hmem | hmem
    · rw [(hnews x hmem).scope] at hT
      exact absurd rfl hT
    · exact hmem
  cases j with
  | resume id =>
    rcases handle_resume e id with heq | ⟨s, p, e₁, e', hfind, hcome, heq, hsched, hstrands, -⟩
    · rw [heq] at hx
      exact .inl hx
    · rw [heq] at hx
      rcases List.mem_cons.mp hx with rfl | hx
      · exact .inr ⟨p, e₁, List.mem_of_find?_eq_some hfind, hcome, hsched, rfl⟩
      · have hold : x ∈ e'.strands := hx
        rw [hstrands] at hold
        exact .inl (List.mem_of_mem_filter hold)
  | timeout id => exact .inl hx
  | fire id => exact .inl (htended (.expire id e) hx)
  | elapse id => exact .inl hx
  | discard id => exact .inl hx
  | gather id task => exact .inl (htended (.gatherDone e id task) hx)

/-- Between turns, a strand in a trigger goes on waiting or is taken up again. -/
theorem Step.waits {t t' : Engine.Turn} (hs : Step t t') (hn : t.next = none) {x : Strand × Parked}
    (hx : x ∈ t'.population) (hT : x.1.scope.trigger ≠ 0) :
    x ∈ t.engine.strands ∨ ∃ p, ∃ e₁ : Engine, (x.1, p) ∈ t.engine.strands ∧ x.2 = .turn (e₁.unpark p).1 := by
  cases hs with
  | turn hn' => rw [hn] at hn'; cases hn'
  | job _ scheduler j =>
    rcases Engine.handle_waits _ j hx hT with hold | ⟨p, e₁, hmem, -, -, hp⟩
    · exact .inl hold
    · exact .inr ⟨p, e₁, hmem, hp⟩
  | request _ r =>
    rcases List.mem_cons.mp hx with rfl | hx
    · exact absurd rfl hT
    · exact .inl hx

section During

variable {lo : Nat → Dependency → Nat} {L : Ledger} {t t' : Engine.Turn} {T : Nat}
  {P Q : Strand × Parked → Prop} {s : Strand} {sig : Signal}

/-- After a turn of the strand inside a trigger. -/
theorem During.own (h : Orderly lo L t) (hT : T ≠ 0) (hn : t.next = some (s, sig)) (hs : s.scope.trigger = T)
    (hfind : t.engine.Finds (fun x => (∀ f ∈ x.1.frames, f.Outer) ∨ Q x) (t.engine.turn s sig)) :
    During T Q (t.engine.turn s sig) := by
  intro x hx hxT
  rcases hfind x hx with hold | hnew | hown
  · exact absurd (hxT.trans hs.symm) (h.apart_of_next hn (hs ▸ hT) hold)
  · rw [hnew.scope] at hxT
    exact absurd hxT.symm hT
  · exact hown

/-- After the turn that begins a trigger. -/
theorem During.begin (h : Orderly lo L t) (hn : t.next = some (s, sig)) (hT : t.engine.nextTrigger = T)
    (hfind : t.engine.Finds (fun x => (∀ f ∈ x.1.frames, f.Outer) ∨ Q x) (t.engine.turn s sig)) :
    During T Q (t.engine.turn s sig) := by
  intro x hx hxT
  rcases hfind x hx with hold | hnew | hown
  · have hmem : x ∈ t.population := by
      rw [Engine.Turn.population_of_next hn]
      exact List.mem_cons_of_mem _ hold
    exact absurd (hxT.trans hT.symm) (h.placed x hmem).known.ne
  · rw [hnew.scope] at hxT
    exact absurd (hxT.trans hT.symm) h.positive.ne
  · exact hown

/-- A strand that is done with a trigger stays outside. -/
theorem During.outer (h : Orderly lo L t) (hT : T ≠ 0) (hknown : T < t.engine.nextTrigger)
    (hn : t.next = some (s, sig)) (hs : s.scope.trigger = T) (hf : ∀ f ∈ s.frames, f.Outer) :
    During T Q (t.engine.turn s sig) := by
  have hmem := Engine.Turn.mem_population_of_next hn
  intro x hx hxT
  rcases turn_staysOut hf ((h.placed _ hmem).sits.outer_of_frames hf) x hx with hold | hnew | hfresh | ⟨-, hout⟩
  · exact absurd (hxT.trans hs.symm) (h.apart_of_next hn (hs ▸ hT) hold)
  · rw [hnew.scope] at hxT
    exact absurd hxT.symm hT
  · exact absurd (hxT.symm.trans hfresh) hknown.ne
  · exact .inl hout

/-- A turn of another strand. -/
theorem During.other (h : Orderly lo L t) (hT : T ≠ 0) (hknown : T < t.engine.nextTrigger)
    (hn : t.next = some (s, sig)) (hs : s.scope.trigger ≠ T) (hi : During T P t) :
    During T P (t.engine.turn s sig) := by
  intro x hx hxT
  refine hi x ?_ hxT
  rw [Engine.Turn.population_of_next hn]
  exact List.mem_cons_of_mem _ (h.mem_of_other hn hT hknown hs hx hxT)

/-- A step between turns. -/
theorem During.idle (hT : T ≠ 0) (hs : Step t t') (hn : t.next = none) (hi : During T P t)
    (hwake : ∀ s p e, P (s, p) → P (s, .turn (Engine.unpark e p).1)) : During T P t' := by
  intro x hx hxT
  rcases hs.waits hn hx (hxT ▸ hT) with hold | ⟨p, e₁, hold, hp⟩
  · exact hi x (by rw [population_of_none hn]; exact hold) hxT
  · obtain ⟨s, q⟩ := x
    obtain rfl : q = .turn (Engine.unpark e₁ p).1 := hp
    exact (hi (s, p) (by rw [population_of_none hn]; exact hold) hxT).imp_right (hwake s p e₁)

/-- Any step, when `P` is kept by the turns of the strand inside the trigger. -/
theorem During.step (h : Orderly lo L t) (hT : T ≠ 0) (hknown : T < t.engine.nextTrigger) (hs : Step t t')
    (hi : During T P t) (hwake : ∀ s p e, P (s, p) → P (s, .turn (Engine.unpark e p).1))
    (hturn : ∀ s sig, t.next = some (s, sig) → s.scope.trigger = T → P (s, .turn sig) →
      t.engine.Finds (fun x => (∀ f ∈ x.1.frames, f.Outer) ∨ P x) (t.engine.turn s sig)) : During T P t' := by
  cases hn : t.next with
  | none => exact hi.idle hT hs hn hwake
  | some x =>
    obtain ⟨s, sig⟩ := x
    obtain rfl := hs.eq_turn hn
    by_cases hsT : s.scope.trigger = T
    · rcases hi _ (Engine.Turn.mem_population_of_next hn) hsT with hf | hP
      · exact .outer h hT hknown hn hsT hf
      · exact .own h hT hn hsT (hturn s sig hn hsT hP)
    · exact .other h hT hknown hn hsT hi

end During

/-! ## Triggers that are over -/

/-- Whether a trigger is over: it has begun, and no strand is inside it. -/
structure Over (T : Nat) (t : Engine.Turn) : Prop where
  begun : T < t.engine.nextTrigger
  outside : During T (fun _ => False) t

section Over

variable {lo : Nat → Dependency → Nat} {L : Ledger} {t t' : Engine.Turn} {T : Nat}

/-- No turn tells of a trigger that is over. -/
theorem Over.toldOf_eq_nil (h : Orderly lo L t) (ho : Over T t) : t.toldOf T = [] := by
  cases hn : t.next with
  | none => exact Engine.Turn.toldOf_of_none hn T
  | some x =>
    obtain ⟨s, sig⟩ := x
    have hmem := Engine.Turn.mem_population_of_next hn
    by_cases hs : s.scope.trigger = T
    · have hf := (ho.outside _ hmem hs).resolve_right id
      rw [Engine.Turn.toldOf, Engine.Turn.told_of_next hn, List.filter_eq_nil_iff]
      intro n hmem'
      obtain ⟨node, origin, port, seeds, -, rfl⟩ :=
        Engine.started_of_mem_told hf ((h.placed _ hmem).sits.outer_of_frames hf) hmem'
      simpa [Notice.trigger?] using ho.begun.ne'
    · refine Engine.Turn.toldOf_eq_nil ho.begun fun s' sig' hn' => ?_
      obtain ⟨rfl, rfl⟩ := Prod.mk.inj (Option.some.inj (hn.symm.trans hn'))
      exact hs

/-- A trigger that is over stays so. -/
theorem Over.step (h : Orderly lo L t) (ho : Over T t) (hT : T ≠ 0) (hs : Step t t') : Over T t' := by
  refine ⟨ho.begun.trans_le (h.evolves hs).nextTrigger, ho.outside.step h hT ho.begun hs ?_ ?_⟩
  · exact fun _ _ _ hfalse => hfalse
  · exact fun _ _ _ _ hfalse => hfalse.elim

end Over

end Patchbay
