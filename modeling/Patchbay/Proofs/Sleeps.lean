import Patchbay.Proofs.Registrations

/-!
# Sleeps that last

A sleep ends when its time is over, or early when everything is stopped. Nothing else that a scheduler does
ends a sleep early: registrations come and go beside it, and other sleeps begin and end.

Contents:
* `Scheduler.Rests`: a change that ends no sleep early.
* `Scheduler.Lasts`: whether no sleep from a number on has ended early.

Results:
* `Rests.cancelOwner`, `Rests.callLater`, `Rests.sleep`, `Rests.elapse` and others: each operation but the one
  that wakes everything.
* `Lasts.flag_endSleep`: a sleep that lasts ends with its time.
-/

namespace Patchbay.Scheduler

variable {κ α : Type}

/-- A change that ends no sleep early. -/
structure Rests (s s' : Scheduler κ α) : Prop where
  next : s.nextSleeper ≤ s'.nextSleeper
  early : ∀ y ∈ s'.sleepers, y.outcome = some false → ∃ x ∈ s.sleepers, x.id = y.id ∧ x.outcome = some false

namespace Rests

variable {s s' s'' : Scheduler κ α}

theorem refl (s : Scheduler κ α) : s.Rests s := ⟨Nat.le_refl _, fun y hy hout => ⟨y, hy, rfl, hout⟩⟩

theorem trans (h : s.Rests s') (h' : s'.Rests s'') : s.Rests s'' := by
  refine ⟨Nat.le_trans h.next h'.next, fun z hz hout => ?_⟩
  obtain ⟨y, hy, hid, hout⟩ := h'.early z hz hout
  obtain ⟨x, hx, hid', hout⟩ := h.early y hy hout
  exact ⟨x, hx, hid'.trans hid, hout⟩

/-- A change of anything but sleeps. -/
theorem of_eq (hs : s'.sleepers = s.sleepers) (hn : s'.nextSleeper = s.nextSleeper) : s.Rests s' := by
  refine ⟨Nat.le_of_eq hn.symm, fun y hy hout => ?_⟩
  rw [hs] at hy
  exact ⟨y, hy, rfl, hout⟩

/-! ## Registrations -/

theorem forget (s : Scheduler κ α) (r : Registration κ) : s.Rests (s.forget r).2 :=
  .of_eq (forget_fields s r).2.2.1 (forget_fields s r).2.2.2

theorem cancel (s : Scheduler κ α) (id : Nat) : s.Rests (s.cancel id).2 := by
  unfold Scheduler.cancel
  split
  · exact .refl s
  · next r _ =>
    split
    · exact .refl s
    · refine trans (of_eq ?_ ?_) (forget _ r)
      · split <;> rfl
      · split <;> rfl

theorem cancelEach (ids : List Nat) (s : Scheduler κ α) : s.Rests (s.cancelEach ids).2 := by
  induction ids generalizing s with
  | nil => exact .refl s
  | cons id rest ih =>
    rw [cancelEach_cons]
    split
    · exact (cancel s id).trans (ih _)
    · exact cancel s id

theorem cancelOwner (s : Scheduler κ α) (owner : String) : s.Rests (s.cancelOwner owner).2 := by
  rw [cancelOwner_eq]
  exact cancelEach _ s

theorem arm {id : Nat} {time : Float} {job : α} (h : s.arm id time job = .ok s') : s.Rests s' := by
  obtain ⟨due, rfl⟩ := arm_eq_ok h
  exact .of_eq rfl rfl

theorem armAfter {id : Nat} {delay : Except Fault Value} {job : α} (h : s.armAfter id delay job = .ok s') :
    s.Rests s' := by
  obtain ⟨time, harm⟩ := armAfter_eq_ok h
  exact arm harm

theorem rearm (s : Scheduler κ α) (r : Registration κ) (fire : Nat → α) : s.Rests (s.rearm r fire) := by
  unfold Scheduler.rearm
  split
  · dsimp only
    split
    · next h => exact (arm h).trans (.of_eq rfl rfl)
    · exact .refl s
  · exact .refl s

/-- A registration whose timer may be set. -/
theorem armed {id : Nat} {delay : Except Fault Value} {job : α} (h : s.Rests s') :
    s.Rests (match s'.armAfter id delay job with
      | .ok s => ((.ok id : Except Fault Nat), s)
      | .error f => (.error f, s')).2 := by
  split
  · next harm => exact h.trans (armAfter harm)
  · exact h

theorem callLater (s : Scheduler κ α) (fire : Nat → α) (owner : String) (delay : Value) (callback : κ) :
    s.Rests (s.callLater fire owner delay callback).2 :=
  armed (.of_eq rfl rfl)

theorem every (s : Scheduler κ α) (fire : Nat → α) (owner : String) (interval : Value) (callback : κ) :
    s.Rests (s.every fire owner interval callback).2 := by
  unfold Scheduler.every
  split
  · exact .refl s
  · exact armed (.of_eq rfl rfl)

theorem listen (s : Scheduler κ α) (owner : String) (event : Value) (callback : κ) :
    s.Rests (s.listen owner event callback).2 := by
  unfold Scheduler.listen
  dsimp only
  split <;> exact .of_eq rfl rfl

/-! ## Sleeps -/

theorem sleep {seconds : Value} {elapsed resume : Nat → α} {id : Nat}
    (h : s.sleep seconds elapsed resume = .ok (id, s')) : s.Rests s' := by
  obtain ⟨-, due, rfl⟩ := sleep_eq_ok h
  refine ⟨Nat.le_succ _, fun y hy hout => ?_⟩
  rcases List.mem_append.mp hy with hy | hy
  · exact ⟨y, hy, rfl, hout⟩
  · rw [List.mem_singleton.mp hy] at hout
    cases hout

/-- A sleep whose time is over has not ended early. -/
theorem elapse (s : Scheduler κ α) (id : Nat) : s.Rests (s.elapse id) := by
  unfold Scheduler.elapse Scheduler.settle
  split
  · exact .refl s
  · split
    · exact .refl s
    · refine ⟨Nat.le_refl _, fun y hy hout => ?_⟩
      obtain ⟨x, hx, rfl⟩ := List.mem_map.mp hy
      split at hout
      · cases hout
      · next hne => exact ⟨x, hx, by rw [if_neg hne], hout⟩

theorem endSleep (s : Scheduler κ α) (id : Nat) : s.Rests (s.endSleep id).2 := by
  unfold Scheduler.endSleep
  split
  · exact .refl s
  · exact ⟨Nat.le_refl _, fun y hy hout => ⟨y, List.mem_of_mem_filter hy, rfl, hout⟩⟩

end Rests

/-- Whether no sleep from a number on has ended early. -/
def Lasts (z : Nat) (s : Scheduler κ α) : Prop := ∀ x ∈ s.sleepers, z ≤ x.id → x.outcome ≠ some false

section Lasts

variable {z : Nat} {s s' : Scheduler κ α}

/-- The sleeps that are still to begin. -/
theorem Tidy.lasts (h : s.Tidy) : Lasts s.nextSleeper s :=
  fun x hx hz => absurd (h.asleep x hx) (Nat.not_lt.mpr hz)

theorem Lasts.rests (h : Lasts z s) (hr : s.Rests s') : Lasts z s' := by
  intro y hy hz hout
  obtain ⟨x, hx, hid, hout'⟩ := hr.early y hy hout
  exact h x hx (hid ▸ hz) hout'

/-- A sleep that lasts ends with its time. -/
theorem Lasts.flag_endSleep (h : Lasts z s) {id : Nat} (hz : z ≤ id) (hended : s.hasEnded id = true) :
    (s.endSleep id).1 = true := by
  unfold hasEnded at hended
  unfold Scheduler.endSleep
  cases hx : s.sleepers.find? fun x => x.id == id with
  | none =>
    rw [hx] at hended
    cases hended
  | some x =>
    rw [hx] at hended
    have hid : x.id = id := by simpa using List.find?_some hx
    have hlasts := h x (List.mem_of_find?_eq_some hx) (hid ▸ hz)
    cases hout : x.outcome with
    | none =>
      rw [Option.any_some, hout] at hended
      cases hended
    | some b =>
      cases b with
      | true => exact congrArg (Option.getD · false) hout
      | false => exact absurd hout hlasts

end Lasts

end Patchbay.Scheduler
