import Patchbay.Proofs.Tracking
import Patchbay.Scheduler.Timeline

/-!
# Timelines are operations

Whatever a timeline carries out, and whatever its registrations carry out in turn when they fire, in the middle of a
delivery or when they are due, its scheduler goes through single operations. So what holds after any operations holds
of the scheduler of a timeline.

Contents:
* `Scheduler.Runs`: a larger state in which what is called carries out operations.

Results:
* `Operated.dispatch`, `Operated.expire`: a delivery and an expiry in such a state.
* `Timeline.operated_runFor`: any number of steps of a timeline.
* `Timeline.filed_runFor`: the listeners that are found by their events in the middle of a timeline.
-/

namespace Patchbay

namespace Scheduler

/-! ## Deliveries and expiries -/

section Host

variable {κ α σ : Type} {fire : Nat → α} {w : Within κ α σ} {run : Registration κ → Value → σ → σ}

/-- Whether a larger state holds the scheduler that is put into it, and what is called there carries out operations. -/
structure Runs (fire : Nat → α) (w : Within κ α σ) (run : Registration κ → Value → σ → σ) : Prop where
  get_put : ∀ st s, w.get (w.put st s) = s
  operated : ∀ r payload st, Operated fire (w.get st) (w.get (run r payload st))

namespace Operated

variable (h : Runs fire w run)

include h

/-- A registration is called, and carries out what it does. -/
theorem call {s : Scheduler κ α} {id : Nat} {payload : Value} {st : σ} (hst : w.get st = s) :
    Operated fire (Scheduler.call alone calling id payload s) (w.get (Scheduler.call w run id payload st)) := by
  subst hst
  cases hr : ((w.get st).modify id fun r => { r with fired := r.fired + 1 }).find? id with
  | none =>
    simp only [Scheduler.call, alone, hr]
    exact .refl
  | some r =>
    have hruns := h.operated r payload (w.put st ((w.get st).modify id fun r => { r with fired := r.fired + 1 }))
    rw [h.get_put] at hruns
    simp only [Scheduler.call, alone, hr, calling]
    exact hruns

theorem deliver (payload : Value) (ids : List Nat) (st : σ) :
    Operated fire (w.get st) (w.get (Scheduler.deliver w run payload st ids)) := by
  induction ids generalizing st with
  | nil => exact .refl
  | cons id ids ih =>
    have hturn : Operation fire (w.get st) (Scheduler.deliver alone calling payload (w.get st) [id]) :=
      .deliver _ payload id
    simp only [Scheduler.deliver, List.foldl_cons, List.foldl_nil] at hturn ih ⊢
    cases hr : (w.get st).find? id with
    | none => exact ih st
    | some r =>
      by_cases hc : r.cancelled = true
      · simp only [hc, if_true]
        exact ih st
      · simp only [alone, hr, hc] at hturn ⊢
        exact (Relation.ReflTransGen.head hturn (call h rfl)).trans (ih _)

/-- The delivery of an event is a number of operations. -/
theorem dispatch (event payload : Value) (st : σ) :
    Operated fire (w.get st) (w.get (Scheduler.dispatch w run event payload st).2) := by
  unfold Scheduler.dispatch
  split
  · exact .refl
  · exact deliver h payload _ st

/-- And so is the expiry of a timer or an interval. -/
theorem expire (id : Nat) (st : σ) : Operated fire (w.get st) (w.get (Scheduler.expire w fire run id st)) := by
  have hfires : Operation fire (w.get st) (Scheduler.expire alone fire calling id (w.get st)) := .expire _ id
  simp only [Scheduler.expire] at hfires ⊢
  cases hr : (w.get st).find? id with
  | none => exact .refl
  | some r =>
    by_cases hc : r.cancelled = true
    · simp only [hc, if_true]
      exact .refl
    · simp only [alone, hr, hc] at hfires ⊢
      exact .head hfires (call h (h.get_put _ _))

end Operated

end Host

end Scheduler

open Scheduler

namespace Timeline

/-! ## Steps of a timeline -/

/-- Whether the scheduler of one timeline is that of another after a number of operations. -/
def Operated (t t' : Timeline) : Prop := Scheduler.Operated .fire t.scheduler t'.scheduler

variable {react : Registration Reaction → Value → Timeline → Timeline}

theorem runs_of_react (h : ∀ r payload t, Operated t (react r payload t)) :
    Runs TimelineJob.fire within react := ⟨fun _ _ => rfl, h⟩

theorem operated_deed (h : ∀ r payload t, Operated t (react r payload t)) (t : Timeline) (d : Deed) :
    Operated t (deed react t d).2 := by
  have hone : ∀ {s : Scheduler Reaction TimelineJob}, Operation .fire t.scheduler s →
      Scheduler.Operated .fire t.scheduler s := Relation.ReflTransGen.single
  have hregistered : ∀ {id : String} {r : Except Fault Nat × Scheduler Reaction TimelineJob},
      Operation .fire t.scheduler r.2 → Operated t (t.registered id r).2 := by
    rintro id ⟨result, s⟩ hs
    cases result <;> exact hone hs
  cases d with
  | callLater id owner seconds follow fails => exact hregistered (.callLater _ owner seconds _)
  | every id owner seconds follow fails => exact hregistered (.every _ owner seconds _)
  | listen id owner event follow fails => exact hregistered (.listen _ owner event _)
  | dispatch event payload => exact Scheduler.Operated.dispatch (runs_of_react h) event payload t
  | sleep id seconds => exact hone (.loop _ _)
  | cancel id =>
    simp only [deed]
    split
    · exact .refl
    · exact hone (.cancel _ _)
  | cancelOwner owner => exact hone (.cancelOwner _ owner)
  | cancelAll => exact hone (.cancelAll _)
  | wakeAll => exact hone (.wakeAll _)
  | owned | state | advance | tick => exact .refl

theorem operated_deeds (h : ∀ r payload t, Operated t (react r payload t)) (ds : List Deed) (t : Timeline) :
    Operated t (deeds react t ds) := by
  induction ds generalizing t with
  | nil => exact .refl
  | cons d ds ih =>
    have hone := operated_deed h t d
    rw [deeds]
    split
    · next t' ht' =>
      rw [ht'] at hone
      exact hone.trans (ih t')
    · next t' ht' =>
      rw [ht'] at hone
      exact hone

/-- What a registration does when it fires, to whatever depth. -/
theorem operated_react (n : Nat) (r : Registration Reaction) (payload : Value) (t : Timeline) :
    Operated t (Timeline.react n r payload t) := by
  -- by the depth to which what is called calls others
  induction n generalizing r payload t with
  | zero => exact .refl
  | succ n ih =>
    rw [react]
    exact operated_deeds ih r.callback.follow (t.leave _)

theorem operated_yield (t : Timeline) (ticks : Nat) : Operated t (t.yield ticks) := .single (.loop _ _)

theorem operated_pass (t : Timeline) (ms : Value) : Operated t (t.pass ms) := by
  unfold pass
  split
  · split
    · exact operated_yield t 0
    · split
      · exact .single (.loop _ _)
      · exact .refl
  · exact .refl
  · exact .refl

theorem operated_start (t : Timeline) (d : Deed) : Operated t (t.start d) := by
  unfold start
  split
  · exact operated_pass t _
  · exact .refl
  · exact operated_yield t _
  · exact operated_deed (operated_react depthBound) t d

theorem operated_handle (t : Timeline) (j : TimelineJob) : Operated t (t.handle j) := by
  cases j with
  | fire id => exact Scheduler.Operated.expire (runs_of_react (operated_react depthBound)) id t
  | elapse id => exact .single (.elapse _ id)
  | beginSleep id seconds =>
    simp only [handle]
    split
    · next hsleep => exact .single (.sleep _ hsleep)
    · exact .refl
  | woken id sleeper => exact .single (.endSleep _ sleeper)
  | timeout => exact operated_yield t 0
  | goOn ticks =>
    cases ticks with
    | zero => exact .refl
    | succ n => exact operated_yield t n

/-- A timeline carries out operations on its scheduler, and nothing else changes that. -/
theorem operated_runFor (n : Nat) (t : Timeline) : Operated t (runFor n t) := by
  induction n generalizing t with
  | zero => exact .refl
  | succ n ih =>
    rw [runFor]
    split
    · split
      · exact .refl
      · next job loop hnext =>
        have htakes : Operated t { t with scheduler := { t.scheduler with loop := loop } } := .single (.loop _ loop)
        exact htakes.trans ((operated_handle _ job).trans (ih _))
    · split
      · exact .refl
      · next d rest htodo =>
        have hstarts : Operated { t with todo := rest } ({ t with todo := rest }.start d) := operated_start _ d
        exact Relation.ReflTransGen.trans hstarts (ih _)

/-- At any point of a timeline, what is found by its event is found once, and it is not cancelled, unless it is a
listener for no event. -/
theorem filed_runFor (shortest : Float) (ds : List Deed) (n : Nat) :
    (runFor n { scheduler := { minInterval := shortest }, todo := ds }).scheduler.Filed :=
  (Files.of_operated (operated_runFor n _)).filed (.initial shortest)

end Timeline

end Patchbay
