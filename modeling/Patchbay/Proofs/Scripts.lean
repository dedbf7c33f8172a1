import Patchbay.Proofs.Births
import Patchbay.Proofs.Propagation

/-!
# Scripts in progress

What is left of a behaviour is a script: the strand that runs it is about to go on with it, or waits for
something with the script in a frame. A turn of the strand takes at most the innermost script one step
further, by the answer that its request has got, and leaves those below alone. So what is known of a script
when its invocation begins, and is kept by every step of it, is known all along a run.

Contents:
* `InProgress`: what holds of every script that a strand has in progress.
* `Carries`: that it is kept by each step that a turn may take.

Results:
* `turn_inProgress`: every turn of a strand.
* `inProgress_run`: all along a run.
-/

namespace Patchbay

/-- Whether a frame is of a behaviour. -/
def Frame.isBehavior : Frame → Bool
  | .behavior _ _ _ => true
  | _ => false

/-- The script that a strand is about to go on with. -/
def Signal.script? : Signal → Option (Invocation × Script)
  | .call (.behave i script) => some (i, script)
  | _ => none

/-- The script that a strand goes on with when it has its turn. -/
def Parked.script? : Parked → Option (Invocation × Script)
  | .turn sig => sig.script?
  | _ => none

/-- Whether `Q` holds of every script that waits in some frames, with its invocation and the frames below. -/
def Waiting (Q : Invocation → Script → List Frame → Prop) (fs : List Frame) : Prop :=
  ∀ i w k gs, Frame.behavior i w k :: gs <:+ fs → Q i (.wait w k) gs

/-- Whether `Q` holds of every script that a strand has in progress. -/
structure InProgress (Q : Invocation → Script → List Frame → Prop) (x : Strand × Parked) : Prop where
  frames : Waiting Q x.1.frames
  parked : ∀ i script, x.2.script? = some (i, script) → Q i script x.1.frames

/-- Whether what `Q` says of the scripts of a strand before a turn, `Q'` says after it. -/
structure Carries (e : Engine) (s : Strand) (sig : Signal) (Q Q' : Invocation → Script → List Frame → Prop) :
    Prop where
  /-- scripts that the turn leaves alone -/
  stays : ∀ i w k fs, Frame.behavior i w k :: fs <:+ s.frames → Q i (.wait w k) fs → Q' i (.wait w k) fs
  invoke : ∀ i b, sig = .call (.invoke i) → i.kind.behavior = some b → Q' i (b .null) s.frames
  again : ∀ i b state, sig = .call (.behave i (.again state)) → i.kind.behavior = some b →
    Q i (.again state) s.frames → Q' i (b state) s.frames
  ask : ∀ i q k, sig = .call (.behave i (.ask q k)) → Q i (.ask q k) s.frames →
    Q' (e.perform i s.scope q).invocation (k (e.perform i s.scope q).reply) s.frames
  edit : ∀ i c k, sig = .call (.behave i (.edit c k)) → Q i (.edit c k) s.frames → Q' i (k (e.command c).1) s.frames
  /-- the script begins to wait -/
  wait : ∀ i w k advanced, sig = .call (.behave i (.wait w k)) → Q i (.wait w k) s.frames →
    Q' { i with advanced := advanced } (.wait w k) s.frames
  /-- it may not wait -/
  refused : ∀ i w k err, sig = .call (.behave i (.wait w k)) → Q i (.wait w k) s.frames → Q' i (k (.error err)) s.frames
  /-- the value that it waited for has come -/
  pulled : ∀ i port k fs v ds, sig = .back (.pulled v ds) → s.frames = .behavior i (.pull port) k :: fs →
    Q i (.wait (.pull port) k) fs → Q' { i with dependencies := i.dependencies.merge ds } (k (.ok v)) fs
  /-- what else it waited for has come -/
  woken : ∀ i w k fs r a, sig = .back r → s.frames = .behavior i w k :: fs → (∀ port, w ≠ .pull port) →
    Q i (.wait w k) fs → Q' i (k (.ok a)) fs
  /-- what it waited for has failed -/
  raised : ∀ i w k fs err, sig = .raise err → s.frames = .behavior i w k :: fs → Q i (.wait w k) fs →
    Q' i (k (.error err)) fs

namespace Waiting

variable {Q Q' : Invocation → Script → List Frame → Prop} {fs gs : List Frame}

theorem of_suffix (h : Waiting Q fs) (hgs : gs <:+ fs) : Waiting Q gs :=
  fun i w k _ hsuffix => h i w k _ (hsuffix.trans hgs)

theorem tail {f : Frame} (h : Waiting Q (f :: fs)) : Waiting Q fs := h.of_suffix (List.suffix_cons f fs)

/-- One more frame, of no behaviour. -/
theorem push (h : Waiting Q fs) {f : Frame} (hf : f.isBehavior = false) : Waiting Q (f :: fs) := by
  intro i w k gs hgs
  rcases List.suffix_cons_iff.mp hgs with heq | hgs
  · rw [← (List.cons.inj heq).1] at hf
    cases hf
  · exact h i w k gs hgs

/-- One more frame, of a behaviour that waits. -/
theorem wait {i : Invocation} {w : Wait} {k : Except Raised w.Reply → Script} (hQ : Q i (.wait w k) fs)
    (h : Waiting Q fs) : Waiting Q (.behavior i w k :: fs) := by
  intro i' w' k' gs hgs
  rcases List.suffix_cons_iff.mp hgs with heq | hgs
  · obtain ⟨hframe, rfl⟩ := List.cons.inj heq
    obtain ⟨rfl, rfl, hk⟩ := Frame.behavior.inj hframe
    obtain rfl := eq_of_heq hk
    exact hQ
  · exact h i' w' k' gs hgs

/-- Outside triggers no script waits. -/
theorem of_outer (h : ∀ f ∈ fs, f.Outer) : Waiting Q fs := by
  intro i w k gs hgs
  exact (h _ (hgs.subset List.mem_cons_self)).elim

end Waiting

/-! ## Turns -/

section Turns

variable {Q Q' : Invocation → Script → List Frame → Prop} {e e' : Engine} {s s' : Strand} {sig : Signal}

/-- A turn that leaves its strand with a script to go on with. -/
theorem goes_script (hw : e.Welcomes e') {i : Invocation} {script : Script} (hf : Waiting Q' s'.frames)
    (hQ : Q' i script s'.frames) : e.Stays (InProgress Q') (e'.go s' (.call (.behave i script))) := by
  refine .go hw (.inr ⟨hf, fun j script' heq => ?_⟩)
  obtain ⟨rfl, rfl⟩ := Prod.mk.inj (Option.some.inj heq)
  exact hQ

/-- A turn that leaves its strand with something else to do. -/
theorem goes_other (hw : e.Welcomes e') {sig' : Signal} (hsig : sig'.script? = none)
    (hf : Waiting Q' s'.frames) : e.Stays (InProgress Q') (e'.go s' sig') :=
  .go hw (.inr ⟨hf, fun _ _ heq => nomatch hsig.symm.trans heq⟩)

/-- A turn after which its strand waits. -/
theorem parks_other (hw : e.Welcomes e') {q : Parked} (hq : q.script? = none) (hf : Waiting Q' s'.frames) :
    e.Stays (InProgress Q') ⟨e'.park s' q, none⟩ :=
  .park hw (.inr ⟨hf, fun _ _ heq => nomatch hq.symm.trans heq⟩)

theorem failInvocation_inProgress (hw : e.Welcomes e') (i : Invocation) (err : Raised) (hf : Waiting Q' s'.frames) :
    e.Stays (InProgress Q') (e'.failInvocation s' i err) := by
  rw [Engine.failInvocation_eq]
  split
  · exact goes_other hw rfl hf
  · have hreport : e.Welcomes (e'.report s'.scope i (err.atInvocation s'.scope.trigger i)).2 := hw
    exact goes_other hreport rfl hf

theorem walk_inProgress (agenda : List String) (hf : Waiting Q' s.frames) :
    e.Stays (InProgress Q') (e.walk s agenda) := by
  have hsame : e.Welcomes e := .of_eq rfl
  have hcases := e.walk_cases s agenda
  generalize e.walk s agenda = t at hcases ⊢
  cases hcases with
  | done | stopped | unknown => exact goes_other hsame rfl hf
  | invokes => exact goes_other hsame rfl (hf.push rfl)
  | passes => exact goes_other (.of_eq rfl) rfl hf

theorem awaitFor_inProgress {i : Invocation} {w : Wait} {k : Except Raised w.Reply → Script}
    (hf : Waiting Q' s.frames) (hwait : ∀ advanced, Q' { i with advanced := advanced } (.wait w k) s.frames)
    (hrefused : ∀ err, Q' i (k (.error err)) s.frames) : e.Stays (InProgress Q') (e.awaitFor s i w k) := by
  have hsame : e.Welcomes e := .of_eq rfl
  cases w with
  | pull port => exact goes_other hsame rfl (hf.wait (hwait i.advanced))
  | advance port =>
    simp only [Engine.awaitFor]
    split
    · exact goes_script hsame hf (hrefused _)
    · exact goes_other hsame rfl (hf.wait (hwait _))
  | checkpoint => exact parks_other (.of_eq rfl) rfl (hf.wait (hwait i.advanced))
  | sleep seconds =>
    simp only [Engine.awaitFor]
    split
    · exact goes_script hsame hf (hrefused _)
    · exact parks_other (.of_eq rfl) rfl (hf.wait (hwait i.advanced))

theorem behave_inProgress {i : Invocation} {script : Script} (hf : Waiting Q' s.frames)
    (h : Carries e s (.call (.behave i script)) Q Q') (hQ : Q i script s.frames) :
    e.Stays (InProgress Q') (e.behave s i script) := by
  have hsame : e.Welcomes e := .of_eq rfl
  cases script with
  | finish v =>
    refine goes_other (.of_eq ?_) rfl hf
    dsimp only
    split <;> rfl
  | fail err => exact failInvocation_inProgress hsame i err hf
  | again state =>
    simp only [Engine.behave]
    split
    · next b hb => exact goes_script hsame hf (h.again i b state rfl hb hQ)
    · exact failInvocation_inProgress hsame i _ hf
  | ask q k => exact goes_script (e.welcomes_perform i s.scope q) hf (h.ask i q k rfl hQ)
  | edit c k => exact goes_script (Engine.Tended.command e c).strands hf (h.edit i c k rfl hQ)
  | wait w k =>
    exact awaitFor_inProgress hf (fun advanced => h.wait i w k advanced rfl hQ) fun err => h.refused i w k err rfl hQ

theorem script?_outputResult (sc : Scope) (node port : String) (ds : Dependencies) :
    (Engine.outputResult sc node port ds).script? = none := by
  unfold Engine.outputResult
  split <;> rfl

theorem script?_literalResult (p : Port) (v : Value) : (Engine.literalResult p v).script? = none := by
  unfold Engine.literalResult
  split <;> rfl

theorem pullInput_inProgress (node port : String) (hf : Waiting Q' s.frames) :
    e.Stays (InProgress Q') (e.pullInput s node port) := by
  have hsame : e.Welcomes e := .of_eq rfl
  have hcases := e.pullInput_cases s node port
  generalize e.pullInput s node port = t at hcases ⊢
  cases hcases with
  | literal => exact goes_other hsame (script?_literalResult _ _) hf
  | _ => exact goes_other hsame rfl hf

theorem pullOutput_inProgress (node port : String) (hf : Waiting Q' s.frames) :
    e.Stays (InProgress Q') (e.pullOutput s node port) := by
  have hsame : e.Welcomes e := .of_eq rfl
  have hcases := e.pullOutput_cases s node port
  generalize e.pullOutput s node port = t at hcases ⊢
  cases hcases with
  | current => exact goes_other hsame (script?_outputResult _ _ _ _) hf
  | @runs n k =>
    have hcases := e.runForOutput_cases s n k port
    generalize e.runForOutput s n k port = t at hcases ⊢
    cases hcases with
    | hops => exact parks_other (.of_eq rfl) rfl ((hf.push rfl).push rfl)
    | nests => exact goes_other hsame rfl (hf.push rfl)
  | _ => exact goes_other hsame rfl hf

theorem continueFrom_inProgress (i : Invocation) (v : Value) (rest : List String) (hf : Waiting Q' s.frames) :
    e.Stays (InProgress Q') (e.continueFrom s i v rest) := by
  have hsame : e.Welcomes e := .of_eq rfl
  unfold Engine.continueFrom
  cases v with
  | str port =>
    dsimp only
    split
    · exact goes_other hsame rfl hf
    · exact goes_other (.of_eq rfl) rfl hf
  | _ => exact goes_other hsame rfl hf

theorem resume_inProgress {id : Nat} {sc : Scope} {i : Invocation} {w : Wait} {k : Except Raised w.Reply → Script}
    {fs : List Frame} {r : Result} (h : Carries e ⟨id, sc, .behavior i w k :: fs⟩ (.back r) Q Q')
    (hf : Waiting Q' fs) (hQ : Q i (.wait w k) fs) (hr : ∀ port, w = .pull port → ∃ v ds, r = .pulled v ds) :
    e.Stays (InProgress Q') (e.resumeBehavior ⟨id, sc, fs⟩ i w k r) := by
  have hsame : e.Welcomes e := .of_eq rfl
  cases w with
  | pull port =>
    obtain ⟨v, ds, rfl⟩ := hr port rfl
    exact goes_script hsame hf (h.pulled i port k fs v ds rfl rfl hQ)
  | advance | checkpoint => exact goes_script hsame hf (h.woken i _ k fs r _ rfl rfl nofun hQ)
  | sleep =>
    cases r with
    | flag b => exact goes_script hsame hf (h.woken i _ k fs _ _ rfl rfl nofun hQ)
    | _ => exact goes_script hsame hf (h.woken i _ k fs _ _ rfl rfl nofun hQ)

theorem back_inProgress {id : Nat} {sc : Scope} {f : Frame} {fs : List Frame} {r : Result} {b : Book}
    (hsits : Sits b (⟨id, sc, f :: fs⟩, .turn (.back r))) (h : Carries e ⟨id, sc, f :: fs⟩ (.back r) Q Q')
    (hp : Waiting Q (f :: fs)) (hf : Waiting Q' fs) (hinside : ¬∀ g ∈ f :: fs, g.Outer) :
    e.Stays (InProgress Q') (e.back ⟨id, sc, fs⟩ f r) := by
  have hsame : e.Welcomes e := .of_eq rfl
  obtain ⟨nodes, -, hfits⟩ := hsits.fits
  cases hfits with
  | answers hs =>
    generalize b.running = as at hs
    cases hs with
    | outer hout => exact absurd hout hinside
  | walked hs =>
    generalize b.running = as at hs
    cases hs with
    | trigger hout => exact .go (.of_eq rfl) (.inl hout)
    | advance _ _ => exact resume_inProgress h hf (hp _ _ _ _ List.suffix_rfl) nofun
  | invoked _ _ hs =>
    cases hs with
    | walk _ => exact continueFrom_inProgress _ _ _ hf
    | output _ => exact goes_other (.of_eq rfl) (script?_outputResult _ _ _ _) hf
    | hop _ => exact parks_other (.of_eq rfl) rfl hf
  | pulled hs _ =>
    generalize b.running = as at hs
    cases hs with
    | value hout => exact .go hsame (.inl hout)
    | pull _ _ => exact resume_inProgress h hf (hp _ _ _ _ List.suffix_rfl) fun _ _ => ⟨_, _, rfl⟩
  | woken hs =>
    generalize b.running = as at hs
    cases hs with
    | checkpoint _ _ => exact resume_inProgress h hf (hp _ _ _ _ List.suffix_rfl) nofun
    | sleep _ _ => exact resume_inProgress h hf (hp _ _ _ _ List.suffix_rfl) nofun

theorem raise_inProgress {id : Nat} {sc : Scope} {f : Frame} {fs : List Frame} {err : Raised} {b : Book}
    (hsits : Sits b (⟨id, sc, f :: fs⟩, .turn (.raise err))) (h : Carries e ⟨id, sc, f :: fs⟩ (.raise err) Q Q')
    (hp : Waiting Q (f :: fs)) (hf : Waiting Q' fs) (hinside : ¬∀ g ∈ f :: fs, g.Outer) :
    e.Stays (InProgress Q') (e.raise ⟨id, sc, fs⟩ f err) := by
  have hsame : e.Welcomes e := .of_eq rfl
  cases f with
  | behavior i w k => exact goes_script hsame hf (h.raised i w k fs err rfl rfl (hp _ _ _ _ List.suffix_rfl))
  | trigger node origin =>
    have hout := hsits.outer_below_trigger rfl
    cases err with
    | failure f => exact .go (.of_eq rfl) (.inl hout)
    | fault f => exact .go hsame (.inl hout)
    | mute f => exact .go hsame (.inl hout)
  | hop => exact parks_other (.of_eq rfl) rfl hf
  | walk | output | value => exact goes_other hsame rfl hf
  | _ => exact absurd (hsits.outer_of_outer rfl trivial) hinside

/-- What a turn keeps of the scripts that its strand has in progress. -/
theorem turn_inProgress {b : Book} (hsits : Sits b (s, .turn sig)) (h : Carries e s sig Q Q')
    (hp : InProgress Q (s, .turn sig)) (hinside : ¬∀ f ∈ s.frames, f.Outer) :
    e.Stays (InProgress Q') (e.turn s sig) := by
  obtain ⟨id, sc, frames⟩ := s
  have hf : Waiting Q' frames := fun i w k fs hfs => h.stays i w k fs hfs (hp.frames i w k fs hfs)
  cases sig with
  | call c =>
    cases c with
    | walk agenda => exact walk_inProgress agenda hf
    | invoke i =>
      show e.Stays _ (e.invoke _ i)
      unfold Engine.invoke
      split
      · next b hb => exact goes_script (.of_eq rfl) hf (h.invoke i b rfl hb)
      · exact failInvocation_inProgress (.of_eq rfl) i _ hf
    | behave i script => exact behave_inProgress hf h (hp.parked i script rfl)
    | input node port => exact pullInput_inProgress node port hf
    | output node port => exact pullOutput_inProgress node port hf
    | _ => exact absurd (hsits.outer_of_call trivial) hinside
  | back r =>
    cases frames with
    | nil => exact (hinside (by simp)).elim
    | cons f fs => exact back_inProgress hsits h hp.frames hf.tail hinside
  | raise err =>
    cases frames with
    | nil => exact (hinside (by simp)).elim
    | cons f fs => exact raise_inProgress hsits h hp.frames hf.tail hinside

end Turns

/-! ## Runs -/

theorem InProgress.unpark {Q : Invocation → Script → List Frame → Prop} {s : Strand} {q : Parked}
    (h : InProgress Q (s, q)) (e : Engine) : InProgress Q (s, .turn (e.unpark q).1) := by
  refine ⟨h.frames, fun i script heq => ?_⟩
  cases q with
  | turn sig => exact h.parked i script heq
  | sleep id => cases heq
  | task id =>
    simp only [Parked.script?, Engine.unpark] at heq
    split at heq <;> cases heq
  | gather id =>
    simp only [Parked.script?, Engine.unpark] at heq
    split at heq <;> cases heq

/-- What is known of a script when its invocation begins, and is kept by every step, is known all along a
run. -/
theorem inProgress_run {run : Nat → Engine.Turn} {n : Nat} (hopens : Opens (run 0))
    (hplays : ∀ k < n, Play (run k) (run (k + 1))) {T : Nat} (hT : T ≠ 0)
    {Q : Nat → Invocation → Script → List Frame → Prop}
    (hcarries : ∀ k < n, ∀ s sig, (run k).next = some (s, sig) → s.scope.trigger = T →
      Carries (run k).engine s sig (Q k) (Q (k + 1)))
    (hother : ∀ k < n, (∀ s sig, (run k).next = some (s, sig) → s.scope.trigger ≠ T) →
      ∀ i script fs, Q k i script fs → Q (k + 1) i script fs) {k : Nat} (hk : k ≤ n) :
    During T (InProgress (Q k)) (run k) := by
  refine during_run (P := fun k => InProgress (Q k)) hopens hplays hT ?_ ?_ ?_ ?_ hk
  · intro k hk s sig x hn _ hborn
    obtain ⟨L, hL⟩ := orderly_run hopens hplays hk.le
    have hf := hborn.outer (hL.placed _ (Engine.Turn.mem_population_of_next hn)).sits
    cases hborn with
    | trigger _ => exact ⟨(Waiting.of_outer hf).push rfl, fun _ _ heq => nomatch heq⟩
    | value => exact ⟨(Waiting.of_outer hf).push rfl, fun _ _ heq => nomatch heq⟩
  · intro k hk s sig hn hsT hinside hp
    obtain ⟨L, hL⟩ := orderly_run hopens hplays hk.le
    have hsits := (hL.placed _ (Engine.Turn.mem_population_of_next hn)).sits
    exact turn_inProgress hsits (hcarries k hk s sig hn hsT) hp hinside
  · intro k hk _ hothers x hp
    have hkept := hother k hk hothers
    exact ⟨fun i w c fs hfs => hkept i _ fs (hp.frames i w c fs hfs),
      fun i script heq => hkept i script _ (hp.parked i script heq)⟩
  · exact fun k _ s p e hp => hp.unpark e

end Patchbay
