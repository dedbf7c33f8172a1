import Mathlib.Logic.Relation
import Patchbay.Proofs.InStep

/-!
# What happens to registrations

A log tells which registrations were made, cancelled and called, in order. Beside a scheduler it says what the
scheduler should list: what was made and neither cancelled nor, if it is a timer, called. Whatever is done to a
scheduler, by its users or by what its registrations call in the middle of a delivery or an expiry, the
scheduler lists exactly that.

A registration is made as soon as it is tracked, also when its timer cannot be set.

Contents:
* `Chronicle.Record`, `Chronicle.Entry`: what a log tells; `made`, `active`: what was made, and what of it should
  be listed.
* `Chronicle`: a scheduler with its log, and the deliveries under way.
* `Chronicle.Step`: one operation of a user or of what is called; `Chronicle.Course`: any number of them.
* `Accurate`: the bookkeeping of a scheduler agrees with its log.

Results:
* `Kept.step`: an operation keeps the books.
* `accurate_course`: they are accurate after every course.
* `Course.dispatch`, `Course.expire`: a whole delivery or expiry is a course, as far as what is called is.
-/

namespace Patchbay

/-! ## Logs -/

namespace Chronicle

/-- What is known of a registration when it is made. -/
structure Entry where
  id : Nat
  owner : String
  kind : RegistrationKind
  /-- the event that a listener waits for -/
  event : Option String
deriving DecidableEq

/-- What happens to a registration. -/
inductive Record where
  | made (e : Entry)
  | cancelled (id : Nat)
  /-- its callback is run -/
  | ran (id : Nat)
deriving DecidableEq

namespace Record

/-- What was made, if something was. -/
def entry? : Record → Option Entry
  | made e => some e
  | _ => none

end Record

/-- What was made, in order. -/
def made (log : List Record) : List Entry := log.filterMap Record.entry?

/-- What was made and neither cancelled nor, if it is a timer, called. -/
def active (log : List Record) : List Entry :=
  (made log).filter fun e => Record.cancelled e.id ∉ log ∧ ¬(e.kind = .timer ∧ Record.ran e.id ∈ log)

/-- What of that is of an owner. -/
def activeOf (owner : String) (log : List Record) : List Entry := (active log).filter fun e => e.owner = owner

/-- What of that listens to an event. -/
def listening (name : String) (log : List Record) : List Entry := (active log).filter fun e => e.event = some name

end Chronicle

/-! ## Chronicles -/

/-- A scheduler with its log. -/
structure Chronicle (κ α : Type) where
  scheduler : Scheduler κ α
  log : List Chronicle.Record := []
  /-- the deliveries under way, innermost first: the listeners still to be called -/
  calls : List (List Nat) := []

namespace Chronicle

variable {κ α : Type} [DecidableEq α] {fire : Nat → α} {c c' : Chronicle κ α}

/-- How a chronicle holds its scheduler. -/
def within : Scheduler.Within κ α (Chronicle κ α) where
  get c := c.scheduler
  put c s := { c with scheduler := s }

/-- A callback is run: this much is noted, and what it does comes after. -/
def noting (r : Registration κ) (_ : Value) (c : Chronicle κ α) : Chronicle κ α :=
  { c with log := c.log ++ [.ran r.id] }

/-- The chronicle after an operation on the scheduler. -/
def after (c : Chronicle κ α) (s : Scheduler κ α) (marks : List Record) : Chronicle κ α :=
  { c with scheduler := s, log := c.log ++ marks }

/-- Whether a value is a number that has an order. -/
def isReal : Value → Bool
  | .bool _ | .int _ | .float _ => true
  | _ => false

/-- One operation. What is called may carry out any of them, so they come in any order; a delivery goes on from
listener to listener, with the operations of each in between. -/
inductive Step (fire : Nat → α) : Chronicle κ α → Chronicle κ α → Prop
  | callLater (c : Chronicle κ α) (owner : String) (delay : Value) (callback : κ) :
    Step fire c (c.after (c.scheduler.callLater fire owner delay callback).2
      [.made ⟨c.scheduler.registrations.length, owner, .timer, none⟩])
  | every (c : Chronicle κ α) (owner : String) {interval : Value} (callback : κ) (h : isReal interval = true) :
    Step fire c (c.after (c.scheduler.every fire owner interval callback).2
      [.made ⟨c.scheduler.registrations.length, owner, .interval, none⟩])
  | listen (c : Chronicle κ α) (owner name : String) (callback : κ) :
    Step fire c (c.after (c.scheduler.listen owner (.str name) callback).2
      [.made ⟨c.scheduler.registrations.length, owner, .listener, some name⟩])
  | cancel (c : Chronicle κ α) {id : Nat} (h : id < c.scheduler.registrations.length) :
    Step fire c (c.after (c.scheduler.cancel id).2 [.cancelled id])
  | cancelOwner (c : Chronicle κ α) (owner : String) :
    Step fire c (c.after (c.scheduler.cancelOwner owner).2
      ((activeOf owner c.log).map fun e => .cancelled e.id))
  | cancelAll (c : Chronicle κ α) :
    Step fire c (c.after c.scheduler.cancelAll.2 ((active c.log).map fun e => .cancelled e.id))
  /-- a delivery begins -/
  | dispatch (c : Chronicle κ α) {event : Value} {ids : List Nat} (h : c.scheduler.listenersFor event = .ok ids) :
    Step fire c { c with calls := ids :: c.calls }
  /-- the next listener's turn -/
  | deliver (c : Chronicle κ α) {id : Nat} {ids : List Nat} {rest : List (List Nat)} (payload : Value)
      (h : c.calls = (id :: ids) :: rest) :
    Step fire c (Scheduler.deliver within noting payload { c with calls := ids :: rest } [id])
  /-- a delivery is over -/
  | delivered (c : Chronicle κ α) {rest : List (List Nat)} (h : c.calls = [] :: rest) :
    Step fire c { c with calls := rest }
  /-- the loop comes to the job of a timer or an interval -/
  | expire (c : Chronicle κ α) {id : Nat} {loop : Loop α} (h : c.scheduler.loop.next? = some (fire id, loop)) :
    Step fire c (Scheduler.expire within fire noting id
      { c with scheduler := { c.scheduler with loop := loop } })
  /-- whatever else happens, such as sleeps and other jobs of the loop -/
  | other (c : Chronicle κ α) {s : Scheduler κ α} (hr : s.registrations = c.scheduler.registrations)
      (ho : s.byOwner = c.scheduler.byOwner) (hl : s.listeners = c.scheduler.listeners)
      (hp : ∀ id, s.loop.pending (fire id) ≤ c.scheduler.loop.pending (fire id)) :
    Step fire c { c with scheduler := s }

/-- Any number of operations. -/
def Course (fire : Nat → α) : Chronicle κ α → Chronicle κ α → Prop := Relation.ReflTransGen (Step fire)

/-- Whether the bookkeeping of a scheduler agrees with its log. -/
structure Accurate (c : Chronicle κ α) : Prop where
  /-- an owner's registrations are listed in the order in which they were made -/
  owned : ∀ owner, (c.scheduler.active (some owner)).map Registration.id = (activeOf owner c.log).map Entry.id
  /-- everything that is active is listed, and once -/
  listed : ((c.scheduler.active none).map Registration.id).Perm ((active c.log).map Entry.id)
  once : ((active c.log).map Entry.id).Nodup
  /-- the listeners of an event are indexed in the order in which they were made -/
  heard : ∀ name, c.scheduler.listenersFor (.str name) = .ok ((listening name c.log).map Entry.id)
  owners : ∀ e ∈ c.scheduler.byOwner, e.2 ≠ []
  names : ∀ e ∈ c.scheduler.listeners, e.2 ≠ []
  /-- nothing is called after it was cancelled -/
  silent : c.log.Pairwise fun earlier later => ∀ id, earlier = .cancelled id → later ≠ .ran id
  /-- a timer is called at most once -/
  oneShot : ∀ e ∈ made c.log, e.kind = .timer → c.log.count (.ran e.id) ≤ 1
  counted : ∀ r ∈ c.scheduler.registrations, r.fired = c.log.count (.ran r.id)
  /-- what cancelling an owner would yield -/
  ownerCount : ∀ owner, (c.scheduler.cancelOwner owner).1 = .ok (activeOf owner c.log).length
  /-- what cancelling everything would yield -/
  count : c.scheduler.cancelAll.1 = .ok (active c.log).length

/-! ## Logs and standings -/

end Chronicle

/-- What is known of a registration when it is made. -/
def Standing.entry (x : Standing) : Chronicle.Entry := ⟨x.id, x.owner, x.kind, x.event.text?⟩

namespace Chronicle

/-- Whether a log tells of some registrations what they stand at. -/
structure Logged (xs : List Standing) (log : List Record) : Prop where
  made : made log = xs.map Standing.entry
  cancelled : ∀ x ∈ xs, x.cancelled = true ↔ Record.cancelled x.id ∈ log
  fired : ∀ x ∈ xs, x.fired = log.count (.ran x.id)
  known : ∀ id, Record.cancelled id ∈ log ∨ Record.ran id ∈ log → id ∈ xs.map Standing.id
  silent : log.Pairwise fun earlier later => ∀ id, earlier = .cancelled id → later ≠ .ran id

namespace Logged

variable {xs : List Standing} {log : List Record}

theorem made_append (log marks : List Record) :
    Chronicle.made (log ++ marks) = Chronicle.made log ++ Chronicle.made marks :=
  List.filterMap_append

/-- What should be listed is what is active. -/
theorem active_eq (h : Logged xs log) : active log = (xs.filter Standing.isActive).map Standing.entry := by
  rw [active, h.made, List.filter_map]
  congr 1
  refine List.filter_congr fun x hx => ?_
  have hran : Record.ran x.id ∈ log ↔ x.fired ≠ 0 := by
    rw [h.fired x hx, ← Nat.pos_iff_ne_zero, List.count_pos_iff]
  have hcancelled := h.cancelled x hx
  rw [Bool.eq_iff_iff]
  simp [Function.comp, Standing.entry, Standing.isActive, ← hcancelled, hran]

theorem activeOf_eq (h : Logged xs log) (owner : String) :
    (activeOf owner log).map Entry.id = listed (Standing.isOf owner) xs := by
  rw [activeOf, h.active_eq, List.filter_map, List.map_map, List.filter_filter, listed]
  congr 1
  refine List.filter_congr fun x _ => ?_
  rw [Bool.eq_iff_iff]
  simp only [Function.comp, Standing.entry, Standing.isOf, Bool.and_eq_true, beq_iff_eq]
  exact (and_congr_left' decide_eq_true_iff).trans and_comm

theorem listening_eq (h : Logged xs log) (name : String) :
    (listening name log).map Entry.id = listed (Standing.hears (some name)) xs := by
  rw [listening, h.active_eq, List.filter_map, List.map_map, List.filter_filter, listed]
  congr 1
  refine List.filter_congr fun x _ => ?_
  rw [Bool.eq_iff_iff]
  simp only [Function.comp, Standing.entry, Standing.hears, Option.isSome_some, Bool.and_eq_true, beq_iff_eq, and_true]
  exact (and_congr_left' decide_eq_true_iff).trans and_comm

theorem active_ids (h : Logged xs log) : (active log).map Entry.id = listed Standing.isActive xs := by
  rw [h.active_eq, List.map_map]
  rfl

/-- A registration is made. -/
theorem append (h : Logged xs log) {x : Standing} (hnew : x.fired = 0 ∧ x.cancelled = false)
    (hid : x.id ∉ xs.map Standing.id) : Logged (xs ++ [x]) (log ++ [.made x.entry]) := by
  have hmem : ∀ m : Record, (∀ e, m ≠ .made e) → (m ∈ log ++ [.made x.entry] ↔ m ∈ log) := by
    intro m hm
    simp [hm]
  have hcount : ∀ id, (log ++ [Record.made x.entry]).count (.ran id) = log.count (.ran id) := by
    intro id
    simp
  refine ⟨?_, fun y hy => ?_, fun y hy => ?_, fun id hor => ?_, ?_⟩
  · rw [made_append, h.made, List.map_append]
    rfl
  · rw [hmem (.cancelled y.id) (by simp)]
    rcases List.mem_append.mp hy with hy | hy
    · exact h.cancelled y hy
    · obtain rfl := List.mem_singleton.mp hy
      refine iff_of_false (by simp [hnew]) fun hin => hid (h.known _ (.inl hin))
  · rw [hcount]
    rcases List.mem_append.mp hy with hy | hy
    · exact h.fired y hy
    · obtain rfl := List.mem_singleton.mp hy
      rw [hnew.1, List.count_eq_zero.mpr fun hin => hid (h.known _ (.inr hin))]
  · rw [hmem (.cancelled id) fun _ => nofun, hmem (.ran id) fun _ => nofun] at hor
    rw [List.map_append]
    exact List.mem_append_left _ (h.known id hor)
  · refine List.pairwise_append.mpr ⟨h.silent, List.pairwise_singleton _ _, fun a _ b hb id _ => ?_⟩
    rw [List.mem_singleton.mp hb]
    exact nofun

/-- Registrations are cancelled. -/
theorem stoppedAll (h : Logged xs log) {ids ids' : List Nat} (hids : ∀ id, id ∈ ids' ↔ id ∈ ids)
    (hknown : ∀ id ∈ ids, id ∈ xs.map Standing.id) :
    Logged (stoppedAll ids xs) (log ++ ids'.map Record.cancelled) := by
  have hmem : ∀ y ∈ Patchbay.stoppedAll ids xs, ∃ x ∈ xs, y = if x.id ∈ ids then x.stopped else x := fun y hy => by
    obtain ⟨x, hx, rfl⟩ := List.mem_map.mp hy
    exact ⟨x, hx, rfl⟩
  have hsame : (Patchbay.stoppedAll ids xs).map Standing.id = xs.map Standing.id := by
    rw [Patchbay.stoppedAll, List.map_map]
    refine List.map_congr_left fun x _ => ?_
    simp only [Function.comp]
    split <;> rfl
  refine ⟨?_, fun y hy => ?_, fun y hy => ?_, fun id hor => ?_, ?_⟩
  · have hnone : Chronicle.made (ids'.map Record.cancelled) = [] := by
      simp [Chronicle.made, Record.entry?]
    rw [made_append, hnone, List.append_nil, h.made, Patchbay.stoppedAll, List.map_map]
    refine List.map_congr_left fun x _ => ?_
    simp only [Function.comp]
    split <;> rfl
  · obtain ⟨x, hx, rfl⟩ := hmem y hy
    have hcancelled := h.cancelled x hx
    split
    · next hin => simp [Standing.stopped, (hids x.id).mpr hin]
    · next hnot => simp [hcancelled, hids, hnot]
  · obtain ⟨x, hx, rfl⟩ := hmem y hy
    have hnone : ∀ id, (ids'.map Record.cancelled).count (.ran id) = 0 := fun id =>
      List.count_eq_zero.mpr (by simp)
    rw [List.count_append, hnone, Nat.add_zero]
    split <;> exact h.fired x hx
  · rw [hsame]
    rcases hor with hin | hin
    · rcases List.mem_append.mp hin with hin | hin
      · exact h.known id (.inl hin)
      · obtain ⟨i, hi, heq⟩ := List.mem_map.mp hin
        cases heq
        exact hknown id ((hids id).mp hi)
    · rcases List.mem_append.mp hin with hin | hin
      · exact h.known id (.inr hin)
      · obtain ⟨i, -, heq⟩ := List.mem_map.mp hin
        cases heq
  · have hnot : ∀ b ∈ ids'.map Record.cancelled, ∀ id, b ≠ .ran id := by
      intro b hb id
      obtain ⟨i, -, rfl⟩ := List.mem_map.mp hb
      simp
    refine List.pairwise_append.mpr ⟨h.silent, List.pairwise_of_forall_mem_list ?_, fun a _ b hb id _ => hnot b hb id⟩
    exact fun a _ b hb id _ => hnot b hb id

/-- A registration is called. -/
theorem called (h : Logged xs log) {id : Nat} (hid : id ∈ xs.map Standing.id) (hnot : Record.cancelled id ∉ log) :
    Logged (changed id Standing.called xs) (log ++ [.ran id]) := by
  have hmem : ∀ m : Record, (∀ i, m ≠ .ran i) → (m ∈ log ++ [.ran id] ↔ m ∈ log) := by
    intro m hm
    simp [hm]
  refine ⟨?_, fun y hy => ?_, fun y hy => ?_, fun i hor => ?_, ?_⟩
  · rw [made_append, h.made]
    show _ ++ [] = _
    rw [List.append_nil, changed, List.map_map]
    refine List.map_congr_left fun x _ => ?_
    simp only [Function.comp]
    split <;> rfl
  · rw [hmem (.cancelled y.id) (by simp)]
    rcases mem_changed hy with ⟨x, hx, -, rfl⟩ | ⟨hy, -⟩
    · exact h.cancelled x hx
    · exact h.cancelled y hy
  · rw [List.count_append, List.count_singleton]
    rcases mem_changed hy with ⟨x, hx, rfl, rfl⟩ | ⟨hy, hne⟩
    · simp [Standing.called, h.fired x hx]
    · simp [h.fired y hy, Ne.symm hne]
  · rw [ids_changed (g := Standing.called) fun _ => rfl]
    rcases hor with hin | hin
    · exact h.known i (.inl ((hmem (.cancelled i) (by simp)).mp hin))
    · rcases List.mem_append.mp hin with hin | hin
      · exact h.known i (.inr hin)
      · cases List.mem_singleton.mp hin
        exact hid
  · refine List.pairwise_append.mpr ⟨h.silent, List.pairwise_singleton _ _, fun a ha b hb i hai => ?_⟩
    rw [List.mem_singleton.mp hb]
    rintro ⟨⟩
    exact hnot (hai ▸ ha)

end Logged

variable {κ α : Type} [DecidableEq α] {fire : Nat → α} {c c' : Chronicle κ α}

/-! ## What operations keep -/

/-- Whether the books of a chronicle are in order: the indexes are in step, the log tells of every registration,
and only listeners are called in deliveries. -/
structure Kept (fire : Nat → α) (c : Chronicle κ α) : Prop where
  inStep : c.scheduler.InStep fire
  logged : Logged c.scheduler.standings c.log
  calling : ∀ ids ∈ c.calls, ∀ id ∈ ids, ∃ x ∈ c.scheduler.standings, x.id = id ∧ x.kind = .listener

omit [DecidableEq α] in
/-- Whether every registration is there still, and of the same kind. -/
def Outlasts (s s' : Scheduler κ α) : Prop :=
  ∀ x ∈ s.standings, ∃ y ∈ s'.standings, y.id = x.id ∧ y.kind = x.kind

omit [DecidableEq α] in
theorem outlasts_changed {s s' : Scheduler κ α} {id : Nat} {g : Standing → Standing}
    (hg : ∀ x, (g x).id = x.id ∧ (g x).kind = x.kind)
    (h : s'.standings = changed id g s.standings) : Outlasts s s' := by
  intro x hx
  rw [h]
  refine ⟨_, List.mem_map_of_mem hx, ?_⟩
  split
  · exact hg x
  · exact ⟨rfl, rfl⟩

omit [DecidableEq α] in
theorem outlasts_stoppedAll {s s' : Scheduler κ α} {ids : List Nat}
    (h : s'.standings = stoppedAll ids s.standings) : Outlasts s s' := by
  intro x hx
  rw [h]
  refine ⟨_, List.mem_map_of_mem hx, ?_⟩
  split <;> exact ⟨rfl, rfl⟩

namespace Kept

/-- An operation on the scheduler that is noted in the log. -/
theorem after (h : c.Kept fire) {s : Scheduler κ α} {marks : List Record} (hs : s.InStep fire)
    (hlog : Logged s.standings (c.log ++ marks)) (hlast : Outlasts c.scheduler s) : (c.after s marks).Kept fire := by
  refine ⟨hs, hlog, fun ids hids id hid => ?_⟩
  obtain ⟨x, hx, hxid, hxk⟩ := h.calling ids hids id hid
  obtain ⟨y, hy, hyid, hyk⟩ := hlast x hx
  exact ⟨y, hy, hyid.trans hxid, hyk.trans hxk⟩

/-- A registration is made. -/
theorem make (h : c.Kept fire) {s : Scheduler κ α} {x : Standing} (hs : s.InStep fire)
    (hstandings : s.standings = c.scheduler.standings ++ [x]) (hid : x.id = c.scheduler.registrations.length)
    (hnew : x.fired = 0 ∧ x.cancelled = false) : (c.after s [.made x.entry]).Kept fire := by
  refine h.after hs ?_ fun y hy => ⟨y, ?_, rfl, rfl⟩
  · rw [hstandings]
    refine h.logged.append hnew ?_
    rw [h.inStep.numbered, hid]
    exact fun hin => Nat.lt_irrefl _ (List.mem_range.mp hin)
  · rw [hstandings]
    exact List.mem_append_left _ hy

/-- Registrations are cancelled. -/
theorem stop (h : c.Kept fire) {s : Scheduler κ α} {ids ids' : List Nat} (hs : s.InStep fire)
    (hstandings : s.standings = stoppedAll ids c.scheduler.standings) (hids : ∀ id, id ∈ ids' ↔ id ∈ ids)
    (hknown : ∀ id ∈ ids, id < c.scheduler.registrations.length) :
    (c.after s (ids'.map Record.cancelled)).Kept fire := by
  refine h.after hs ?_ (outlasts_stoppedAll hstandings)
  rw [hstandings]
  refine h.logged.stoppedAll hids fun id hid => ?_
  rw [h.inStep.numbered]
  exact List.mem_range.mpr (hknown id hid)

/-- A registration that is not cancelled is called. -/
theorem run (h : c.Kept fire) {s : Scheduler κ α} {id : Nat} {x : Standing} (hs : s.InStep fire)
    (hx : x ∈ c.scheduler.standings) (hid : x.id = id) (hc : x.cancelled = false)
    (hstandings : s.standings = changed id Standing.called c.scheduler.standings) :
    (c.after s [.ran id]).Kept fire := by
  subst hid
  refine h.after hs ?_ (outlasts_changed (g := Standing.called) (fun _ => ⟨rfl, rfl⟩) hstandings)
  rw [hstandings]
  refine h.logged.called (List.mem_map_of_mem hx) fun hin => ?_
  rw [(h.logged.cancelled x hx).mpr hin] at hc
  cases hc

end Kept

/-! ### Registering -/

theorem standings_callLater (s : Scheduler κ α) (fire : Nat → α) (owner : String) (delay : Value)
    (callback : κ) : (s.callLater fire owner delay callback).2.standings =
      s.standings ++ [⟨s.registrations.length, owner, .timer, .null, 0, false⟩] := by
  have htrack := Scheduler.InStep.standings_track s { id := 0, owner := owner, kind := .timer, callback := callback }
  unfold Scheduler.callLater
  dsimp only
  split
  · next harm => exact (Scheduler.Sets.armAfter harm).standings.trans htrack
  · exact htrack

omit [DecidableEq α] in
/-- An interval has a period when it is given a number. -/
theorem exists_period {interval : Value} (h : isReal interval = true) (bound : Float) :
    ∃ period, Scheduler.atLeast interval bound = .ok period := by
  obtain ⟨b, hb⟩ : ∃ b, Value.related? .gt (.float bound) interval = some b := by
    cases interval with
    | bool _ | int _ | float _ =>
      simp [Value.related?, Value.relatedNumber?, Value.compareNumber, Value.asInt?]
    | _ => cases h
  unfold Scheduler.atLeast
  rw [hb]
  cases b with
  | true => exact ⟨_, rfl⟩
  | false => exact ⟨_, rfl⟩

theorem standings_every (s : Scheduler κ α) (fire : Nat → α) (owner : String) {interval : Value}
    (h : isReal interval = true) (callback : κ) : (s.every fire owner interval callback).2.standings =
      s.standings ++ [⟨s.registrations.length, owner, .interval, .null, 0, false⟩] := by
  obtain ⟨period, hperiod⟩ := exists_period h s.minInterval
  have htrack := Scheduler.InStep.standings_track s
    { id := 0, owner := owner, kind := .interval, callback := callback, interval := some period }
  unfold Scheduler.every
  rw [hperiod]
  dsimp only
  split
  · next harm => exact (Scheduler.Sets.armAfter harm).standings.trans htrack
  · exact htrack

omit [DecidableEq α] in
theorem standings_listen (s : Scheduler κ α) (owner name : String) (callback : κ) :
    (s.listen owner (.str name) callback).2.standings =
      s.standings ++ [⟨s.registrations.length, owner, .listener, .str name, 0, false⟩] :=
  Scheduler.InStep.standings_track s
    { id := 0, owner := owner, kind := .listener, callback := callback, event := .str name }

/-! ### Calling -/

omit [DecidableEq α] in
/-- A registration is called: it is counted, and noted in the log. -/
theorem call_eq {id : Nat} (payload : Value) {s : Scheduler κ α}
    (hs : s = c.scheduler.modify id fun r => { r with fired := r.fired + 1 }) {r : Registration κ}
    (hr : s.find? id = some r) : Scheduler.call within noting id payload c = c.after s [.ran id] := by
  subst hs
  have hid := Scheduler.id_of_find? hr
  simp only [Scheduler.call, within, hr, noting, hid, after]

namespace Kept

/-- Deliveries are to listeners. -/
theorem listens (h : c.Kept fire) {event : Value} {ids : List Nat} (hids : c.scheduler.listenersFor event = .ok ids)
    {id : Nat} (hid : id ∈ ids) : ∃ x ∈ c.scheduler.standings, x.id = id ∧ x.kind = .listener := by
  unfold Scheduler.listenersFor at hids
  split at hids
  · obtain rfl := Except.ok.inj hids
    split at hid
    · next e he =>
      have hmem := List.mem_of_find?_eq_some he
      have hproper := h.inStep.names.proper e hmem
      rw [← Scheduler.under_of_mem Scheduler.decides_name h.inStep.names.proper h.inStep.names.keys hmem,
        h.inStep.names.found e.1 hproper] at hid
      obtain ⟨x, hx, hhears, rfl⟩ := mem_listed.mp hid
      refine ⟨x, hx, rfl, ?_⟩
      -- only a listener waits for an event
      by_contra hk
      have hnull := h.inStep.events x hx
      rw [if_neg hk] at hnull
      obtain ⟨name, hname⟩ := hproper
      simp [Standing.hears, hnull, hname, Value.text?] at hhears
    · cases hid
  · cases hids

/-- The next listener of a delivery has its turn. -/
theorem deliver (h : c.Kept fire) {id : Nat} (payload : Value)
    (hlistens : ∃ x ∈ c.scheduler.standings, x.id = id ∧ x.kind = .listener) :
    (Scheduler.deliver within noting payload c [id]).Kept fire := by
  simp only [Scheduler.deliver, List.foldl_cons, List.foldl_nil]
  split
  · next r hr =>
    split
    · exact h
    · next hc =>
      have hr : c.scheduler.find? id = some r := hr
      have hx := Scheduler.InStep.mem_standings hr
      have hxid : r.standing.id = id := Scheduler.id_of_find? hr
      have hk : r.kind ≠ .timer := by
        obtain ⟨y, hy, hyid, hyk⟩ := hlistens
        obtain rfl := h.inStep.eq_of_id hy hx (hyid.trans hxid.symm)
        rw [show r.kind = .listener from hyk]
        decide
      have hstep := h.inStep.call hr hk
      have hfound :=
        Scheduler.find?_modify c.scheduler id id (f := fun r => { r with fired := r.fired + 1 }) fun _ => rfl
      rw [hr] at hfound
      rw [call_eq payload rfl hfound]
      exact h.run hstep hx hxid (Bool.eq_false_iff.mpr hc) (Scheduler.InStep.standings_call _ id)
  · exact h

/-- A timer or an interval fires. -/
theorem expire (h : c.Kept fire) {id : Nat} {loop : Loop α} (hnext : c.scheduler.loop.next? = some (fire id, loop)) :
    (Scheduler.expire within fire noting id
      { c with scheduler := { c.scheduler with loop := loop } }).Kept fire := by
  have ht : Scheduler.Taken fire id c.scheduler { c.scheduler with loop := loop } :=
    ⟨rfl, rfl, rfl, Loop.pending_of_takes (Loop.takes_next? hnext)⟩
  have hidle : Kept fire { c with scheduler := { c.scheduler with loop := loop } } := by
    refine ⟨h.inStep.mono rfl rfl rfl fun i => ?_, h.logged, h.calling⟩
    rw [ht.pending]
    exact Nat.le_add_right _ _
  unfold Scheduler.expire
  dsimp only
  split
  · exact hidle
  · next r hr =>
    split
    · exact hidle
    · next hc =>
      have hr : Scheduler.find? { c.scheduler with loop := loop } id = some r := hr
      obtain ⟨hx, hxid⟩ := Scheduler.InStep.standing_mem ht hr
      obtain ⟨hsame, hstep⟩ := h.inStep.fires ht hr
      have hstandings : (((Scheduler.firing { c.scheduler with loop := loop } fire r).modify id
          fun r => { r with fired := r.fired + 1 }).standings) = changed id Standing.called c.scheduler.standings := by
        rw [Scheduler.InStep.standings_call, hsame]
      have hlt : id < ((Scheduler.firing { c.scheduler with loop := loop } fire r).modify id
          fun r => { r with fired := r.fired + 1 }).registrations.length := by
        have hlen := congrArg List.length hstandings
        simp only [Scheduler.standings, changed, List.length_map] at hlen
        rw [hlen, ← hxid]
        exact h.inStep.lt_length hx
      obtain ⟨r', hr'⟩ := hstep.exists_find? hlt
      have hcall := call_eq (c := { c with scheduler := Scheduler.firing { c.scheduler with loop := loop } fire r })
        .null rfl hr'
      exact hcall ▸ h.run hstep hx hxid (Bool.eq_false_iff.mpr hc) hstandings

/-- An operation keeps the books. -/
theorem step (hfire : fire.Injective) (h : c.Kept fire) (hstep : Step fire c c') : c'.Kept fire := by
  cases hstep with
  | callLater owner delay callback =>
    exact h.make (h.inStep.callLater hfire owner delay callback) (standings_callLater _ _ _ _ _) rfl ⟨rfl, rfl⟩
  | every owner callback hreal =>
    exact h.make (h.inStep.every hfire owner _ callback) (standings_every _ _ _ hreal _) rfl ⟨rfl, rfl⟩
  | listen owner name callback =>
    exact h.make (h.inStep.listen hfire owner name callback) (standings_listen _ _ _ _) rfl ⟨rfl, rfl⟩
  | @cancel id hid =>
    obtain ⟨-, hs, hstandings⟩ := h.inStep.cancel hid
    rw [changed_stopped] at hstandings
    exact h.stop hs hstandings (fun i => (.rfl : i ∈ [id] ↔ _)) fun j hj => List.mem_singleton.mp hj ▸ hid
  | cancelOwner owner =>
    obtain ⟨-, hs, hstandings⟩ := h.inStep.cancelOwner owner
    have hstop := h.stop hs hstandings (fun _ => .rfl) fun j hj => h.inStep.lt_of_listed hj
    rwa [← h.logged.activeOf_eq, List.map_map] at hstop
  | cancelAll =>
    obtain ⟨-, hs, hstandings⟩ := h.inStep.cancelAll
    have hstop := h.stop hs hstandings (fun _ => .rfl) fun j hj => h.inStep.lt_of_listed hj
    rwa [← h.logged.active_ids, List.map_map] at hstop
  | @dispatch event ids hids =>
    refine ⟨h.inStep, h.logged, fun js hjs id hid => ?_⟩
    rcases List.mem_cons.mp hjs with rfl | hjs
    · exact h.listens hids hid
    · exact h.calling js hjs id hid
  | @deliver id ids rest payload hcalls =>
    have hcalling := hcalls ▸ h.calling
    obtain ⟨hfirst, hrest⟩ := List.forall_mem_cons.mp hcalling
    obtain ⟨hid, hids⟩ := List.forall_mem_cons.mp hfirst
    have hkept : Kept fire { c with calls := ids :: rest } :=
      ⟨h.inStep, h.logged, List.forall_mem_cons.mpr ⟨hids, hrest⟩⟩
    exact hkept.deliver payload hid
  | @delivered rest hcalls =>
    exact ⟨h.inStep, h.logged, (List.forall_mem_cons.mp (hcalls ▸ h.calling)).2⟩
  | expire hnext => exact h.expire hnext
  | @other s hr ho hl hp =>
    have hstandings : s.standings = c.scheduler.standings := congrArg (List.map Registration.standing) hr
    exact ⟨h.inStep.mono hstandings ho hl hp, hstandings ▸ h.logged, hstandings ▸ h.calling⟩

theorem course (hfire : fire.Injective) (h : c.Kept fire) (hcourse : Course fire c c') : c'.Kept fire := by
  induction hcourse with
  | refl => exact h
  | tail _ hstep ih => exact ih.step hfire hstep

theorem initial (fire : Nat → α) (shortest : Float) :
    Kept fire ({ scheduler := { minInterval := shortest } } : Chronicle κ α) :=
  ⟨.initial fire shortest, ⟨rfl, nofun, nofun, nofun, List.Pairwise.nil⟩, nofun⟩

/-- Books that are in order are accurate. -/
theorem accurate (h : c.Kept fire) : c.Accurate := by
  obtain ⟨hstep, hlog, -⟩ := h
  refine ⟨fun owner => ?_, ?_, ?_, fun name => ?_, hstep.owners.full, hstep.names.full, hlog.silent,
    fun e he hk => ?_, fun r hr => hlog.fired r.standing (List.mem_map_of_mem hr), fun owner => ?_, ?_⟩
  · rw [hlog.activeOf_eq, ← hstep.ownedBy_eq]
    refine hstep.ids_filterMap_find? fun id (hid : id ∈ c.scheduler.ownedBy owner) => ?_
    rw [hstep.ownedBy_eq] at hid
    exact hstep.lt_of_listed hid
  · rw [hlog.active_ids]
    have hids : (c.scheduler.active none).map Registration.id = c.scheduler.activeIds :=
      hstep.ids_filterMap_find? fun id hid => hstep.lt_of_listed (hstep.perm_activeIds.subset hid)
    rw [hids]
    exact hstep.perm_activeIds
  · rw [hlog.active_ids]
    exact hstep.nodup.sublist (List.filter_sublist.map Standing.id)
  · rw [hlog.listening_eq, Scheduler.listenersFor, if_pos (by rfl)]
    have hfound := hstep.names.found (.str name) ⟨name, rfl⟩
    rw [show Value.text? (.str name) = some name from rfl] at hfound
    rw [← hfound, Scheduler.under]
    cases c.scheduler.listeners.find? fun e => Value.same (.str name) e.1 <;> rfl
  · rw [hlog.made] at he
    obtain ⟨x, hx, rfl⟩ := List.mem_map.mp he
    have hone := hstep.once x hx hk
    rw [hlog.fired x hx] at hone
    exact Nat.le_trans (Nat.le_add_left _ _) hone
  · rw [(hstep.cancelOwner owner).1, ← hlog.activeOf_eq, List.length_map]
  · rw [hstep.cancelAll.1, ← hlog.active_ids, List.length_map]

end Kept

/-- The bookkeeping of a scheduler is accurate, whatever has been done to it. -/
theorem accurate_course (hfire : fire.Injective) {shortest : Float}
    (h : Course fire { scheduler := { minInterval := shortest } } c) : c.Accurate :=
  ((Kept.initial fire shortest).course hfire h).accurate

/-- A listener for a bell is registered. -/
def listened (owner : String) (c : Chronicle String Nat) : Chronicle String Nat :=
  c.after (c.scheduler.listen owner (.str "bell") "ring").2
    [.made ⟨c.scheduler.registrations.length, owner, .listener, some "bell"⟩]

/-- The first of three listeners cancels the second one, which is then not called, and afterwards itself, by
cancelling their owner. -/
theorem accurate_reentered : ∃ c : Chronicle String Nat, c.Accurate ∧ c.scheduler.activeIds = [2] ∧
    c.log.filter (fun m => m.entry?.isNone) = [.ran 0, .cancelled 1, .cancelled 0, .ran 2] := by
  have hmade : Course id { scheduler := {} }
      (listened "b" (listened "a" (listened "a" { scheduler := {} }))) :=
    ((Relation.ReflTransGen.single (.listen _ "a" "bell" "ring")).tail (.listen _ "a" "bell" "ring")).tail
      (.listen _ "b" "bell" "ring")
  have hheard : (listened "b" (listened "a" (listened "a" { scheduler := {} }))).scheduler.listenersFor
      (.str "bell") = .ok [0, 1, 2] := by with_unfolding_all rfl
  have hcalled := (hmade.tail (.dispatch _ hheard)).tail (.deliver _ .null rfl)
  have hcancelled := (hcalled.tail (.cancel _ (show 1 < _ by decide +kernel))).tail (.cancelOwner _ "a")
  have hover := ((hcancelled.tail (.deliver _ .null (by with_unfolding_all rfl))).tail
    (.deliver _ .null (by with_unfolding_all rfl))).tail (.delivered _ (by with_unfolding_all rfl))
  refine ⟨_, accurate_course Function.injective_id hover, ?_, ?_⟩
  · decide +kernel
  · decide +kernel

/-! ## Whole deliveries and expiries

A scheduler is part of a larger state, in which its registrations are called. When each call is a course, so is
a whole delivery, and so is the expiry of a timer or an interval. -/

section Host

variable {σ : Type} {w : Scheduler.Within κ α σ} {run : Registration κ → Value → σ → σ}

/-- Whether what is called does to the scheduler what its users may do. -/
def Calls (fire : Nat → α) (w : Scheduler.Within κ α σ) (run : Registration κ → Value → σ → σ) : Prop :=
  ∀ r payload st log calls, ∃ log', Course fire ⟨w.get st, log, calls⟩ ⟨w.get (run r payload st), log', calls⟩

/-- A registration is called in a larger state as it is called in a chronicle. -/
theorem Course.call (hput : ∀ st s, w.get (w.put st s) = s) (hrun : Calls fire w run) (id : Nat)
    (payload : Value) {st : σ} {s : Scheduler κ α} (hs : w.get st = s) (log : List Record) (calls : List (List Nat)) :
    ∃ log', Course fire (Scheduler.call within noting id payload ⟨s, log, calls⟩)
      ⟨w.get (Scheduler.call w run id payload st), log', calls⟩ := by
  subst hs
  cases hr : ((w.get st).modify id fun r => { r with fired := r.fired + 1 }).find? id with
  | none =>
    simp only [Scheduler.call, within, hr]
    exact ⟨log, .refl⟩
  | some r =>
    have hcourse := hrun r payload
      (w.put st ((w.get st).modify id fun r => { r with fired := r.fired + 1 })) (log ++ [.ran id]) calls
    rw [hput] at hcourse
    rw [call_eq payload rfl hr]
    simp only [Scheduler.call, hr]
    exact hcourse

theorem Course.deliver (hput : ∀ st s, w.get (w.put st s) = s) (hrun : Calls fire w run) (payload : Value)
    (ids : List Nat) (st : σ) (log : List Record) (calls : List (List Nat)) : ∃ log',
      Course fire ⟨w.get st, log, ids :: calls⟩ ⟨w.get (Scheduler.deliver w run payload st ids), log', calls⟩ := by
  induction ids generalizing st log with
  | nil => exact ⟨log, .single (.delivered _ rfl)⟩
  | cons id ids ih =>
    have hturn : Step fire ⟨w.get st, log, (id :: ids) :: calls⟩
        (Scheduler.deliver within noting payload ⟨w.get st, log, ids :: calls⟩ [id]) := .deliver _ payload rfl
    simp only [Scheduler.deliver, List.foldl_cons, List.foldl_nil] at hturn ih ⊢
    cases hr : (w.get st).find? id with
    | none =>
      obtain ⟨log', hrest⟩ := ih st log
      simp only [within, hr] at hturn ⊢
      exact ⟨log', .head hturn hrest⟩
    | some r =>
      by_cases hc : r.cancelled = true
      · obtain ⟨log', hrest⟩ := ih st log
        simp only [within, hr, hc, if_true] at hturn ⊢
        exact ⟨log', .head hturn hrest⟩
      · obtain ⟨between, hcall⟩ := Course.call hput hrun id payload rfl log (ids :: calls)
        obtain ⟨log', hrest⟩ := ih (Scheduler.call w run id payload st) between
        simp only [within, hr, hc] at hturn ⊢
        exact ⟨log', .head hturn (hcall.trans hrest)⟩

/-- The delivery of an event is a course. -/
theorem Course.dispatch (hput : ∀ st s, w.get (w.put st s) = s) (hrun : Calls fire w run) (event payload : Value)
    (st : σ) (log : List Record) (calls : List (List Nat)) : ∃ log', Course fire ⟨w.get st, log, calls⟩
      ⟨w.get (Scheduler.dispatch w run event payload st).2, log', calls⟩ := by
  unfold Scheduler.dispatch
  cases hids : (w.get st).listenersFor event with
  | error f => exact ⟨log, .refl⟩
  | ok ids =>
    obtain ⟨log', hrest⟩ := Course.deliver hput hrun payload ids st log calls
    exact ⟨log', .head (.dispatch ⟨w.get st, log, calls⟩ hids) hrest⟩

/-- The expiry of a timer or an interval is a course. -/
theorem Course.expire (hput : ∀ st s, w.get (w.put st s) = s) (hrun : Calls fire w run) {id : Nat} {loop : Loop α}
    {st : σ} (hnext : (w.get st).loop.next? = some (fire id, loop)) (log : List Record) (calls : List (List Nat)) :
    ∃ log', Course fire ⟨w.get st, log, calls⟩
      ⟨w.get (Scheduler.expire w fire run id (w.put st { w.get st with loop := loop })), log', calls⟩ := by
  have hfires : Step fire ⟨w.get st, log, calls⟩ (Scheduler.expire within fire noting id
    ⟨{ w.get st with loop := loop }, log, calls⟩) := .expire _ hnext
  simp only [Scheduler.expire, hput] at hfires ⊢
  split
  · next hr =>
    simp only [within, hr] at hfires
    rw [hput]
    exact ⟨log, .single hfires⟩
  · next r hr =>
    simp only [within, hr] at hfires
    split
    · next hc =>
      rw [if_pos hc] at hfires
      rw [hput]
      exact ⟨log, .single hfires⟩
    · next hc =>
      rw [if_neg hc] at hfires
      obtain ⟨log', hcall⟩ := Course.call hput hrun id .null (hput _ _) log calls
      exact ⟨log', .head hfires hcall⟩

end Host

end Chronicle

end Patchbay
