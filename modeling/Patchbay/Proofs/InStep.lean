import Patchbay.Proofs.Indexes
import Patchbay.Proofs.Pending

/-!
# Indexes that stay in step

A scheduler finds its active registrations by owner, and its active listeners by event. Both indexes stay in
step with the registrations, whatever is registered, cancelled or fired: each lists exactly what is active, in
the order of registration, and no list of them is empty. A timer that has fired is not active, and no job of
the loop will make it fire again.

Listeners here wait for events that are named by texts.

Contents:
* `Standing`: what the bookkeeping of a registration is about; `listed`: the ids of some of them.
* `Scheduler.InStep`: the invariant.
* `Scheduler.Sets`: a change that sets a timer and nothing else.

Results:
* `InStep.callLater`, `InStep.every`, `InStep.listen`: registering.
* `InStep.cancel`, `InStep.cancelOwner`, `InStep.cancelAll`: cancelling, and how much there was.
* `InStep.call`, `InStep.expire`: firing.
-/

namespace Patchbay

/-! ## The standing of a registration -/

/-- What the bookkeeping of a registration is about. -/
structure Standing where
  id : Nat
  owner : String
  kind : RegistrationKind
  event : Value
  fired : Nat
  cancelled : Bool

/-- The text that a value is, if it is one. -/
def Value.text? : Value → Option String
  | .str s => some s
  | _ => none

namespace Standing

/-- Whether a registration is neither cancelled nor a timer that has fired. -/
def isActive (x : Standing) : Bool := !x.cancelled && !(x.kind == .timer && x.fired != 0)

/-- Whether a registration is active and of an owner. -/
def isOf (owner : String) (x : Standing) : Bool := x.isActive && x.owner == owner

/-- Whether a registration is active and listens to an event. -/
def hears (name : Option String) (x : Standing) : Bool := x.isActive && name.isSome && x.event.text? == name

/-- The registration after it was cancelled. -/
def stopped (x : Standing) : Standing := { x with cancelled := true }

/-- The registration after it was called. -/
def called (x : Standing) : Standing := { x with fired := x.fired + 1 }

@[simp] theorem isActive_stopped (x : Standing) : x.stopped.isActive = false := rfl

theorem isActive_called {x : Standing} : x.called.isActive = (x.isActive && x.kind != .timer) := by
  obtain ⟨_, _, kind, _, _, cancelled⟩ := x
  cases kind <;> cases cancelled <;> first | rfl | simp [isActive, called]

end Standing

/-- The standing of a registration. -/
def Registration.standing {κ : Type} (r : Registration κ) : Standing :=
  ⟨r.id, r.owner, r.kind, r.event, r.fired, r.cancelled⟩

/-! ### Lists of them -/

section Listed

variable {p : Standing → Bool} {xs : List Standing} {id : Nat} {g : Standing → Standing}

/-- The ids of some registrations, in their order. -/
def listed (p : Standing → Bool) (xs : List Standing) : List Nat := (xs.filter p).map Standing.id

/-- Some registrations are cancelled. -/
def stoppedAll (ids : List Nat) (xs : List Standing) : List Standing :=
  xs.map fun x => if x.id ∈ ids then x.stopped else x

/-- A change of the registration with an id. -/
def changed (id : Nat) (g : Standing → Standing) (xs : List Standing) : List Standing :=
  xs.map fun x => if x.id = id then g x else x

theorem listed_append (p : Standing → Bool) (xs : List Standing) (x : Standing) :
    listed p (xs ++ [x]) = if p x then listed p xs ++ [x.id] else listed p xs := by
  rw [listed, List.filter_append, List.filter_singleton]
  cases p x with
  | true => simp [listed]
  | false => simp [listed]

theorem ids_changed (hid : ∀ x, (g x).id = x.id) : (changed id g xs).map Standing.id = xs.map Standing.id := by
  rw [changed, List.map_map]
  refine List.map_congr_left fun x _ => ?_
  simp only [Function.comp]
  split
  · exact hid x
  · rfl

theorem mem_changed {y : Standing} (h : y ∈ changed id g xs) :
    (∃ x ∈ xs, x.id = id ∧ y = g x) ∨ y ∈ xs ∧ y.id ≠ id := by
  obtain ⟨x, hx, rfl⟩ := List.mem_map.mp h
  split
  · next heq => exact .inl ⟨x, hx, heq, rfl⟩
  · next hne => exact .inr ⟨hx, hne⟩

theorem listed_changed (hid : ∀ x, (g x).id = x.id) :
    listed p (changed id g xs) = listed (fun x => p (if x.id = id then g x else x)) xs := by
  rw [listed, listed, changed, List.filter_map, List.map_map]
  refine List.map_congr_left fun x _ => ?_
  simp only [Function.comp]
  split
  · exact hid x
  · rfl

/-- A change by which what was listed is so still. -/
theorem listed_kept (hid : ∀ x, (g x).id = x.id) (hp : ∀ x ∈ xs, x.id = id → p (g x) = p x) :
    listed p (changed id g xs) = listed p xs := by
  rw [listed_changed hid, listed, listed]
  congr 1
  refine List.filter_congr fun x hx => ?_
  split
  · next heq => exact hp x hx heq
  · rfl

/-- A change by which a registration is no more among those listed. -/
theorem listed_dropped (hd : (xs.map Standing.id).Nodup) (hid : ∀ x, (g x).id = x.id)
    (hp : ∀ x ∈ xs, x.id = id → p (g x) = false) :
    listed p (changed id g xs) = (listed p xs).erase id := by
  have hnodup : (listed p xs).Nodup := hd.sublist ((List.filter_sublist (p := p) (l := xs)).map Standing.id)
  rw [listed_changed hid, hnodup.erase_eq_filter, listed, listed, List.filter_map, List.filter_filter]
  congr 1
  refine List.filter_congr fun x hx => ?_
  by_cases heq : x.id = id
  · rw [if_pos heq, hp x hx heq]
    simp [heq]
  · rw [if_neg heq]
    simp [heq]

theorem stoppedAll_nil (xs : List Standing) : stoppedAll [] xs = xs := by
  simp [stoppedAll]

theorem stoppedAll_append (ids ids' : List Nat) (xs : List Standing) :
    stoppedAll (ids ++ ids') xs = stoppedAll ids' (stoppedAll ids xs) := by
  rw [stoppedAll, stoppedAll, stoppedAll, List.map_map]
  refine List.map_congr_left fun x _ => ?_
  simp only [Function.comp, List.mem_append]
  by_cases h : x.id ∈ ids
  · by_cases h' : x.id ∈ ids' <;> simp [h, h', Standing.stopped]
  · simp [h]

theorem changed_stopped (id : Nat) (xs : List Standing) : changed id Standing.stopped xs = stoppedAll [id] xs := by
  simp [changed, stoppedAll]

/-- What is listed of registrations that are active, when none of those cancelled was listed. -/
theorem listed_stoppedAll {ids : List Nat} (hoff : ∀ x, p (Standing.stopped x) = false)
    (hp : ∀ x ∈ xs, x.id ∈ ids → p x = false) : listed p (stoppedAll ids xs) = listed p xs := by
  rw [listed, listed, stoppedAll, List.filter_map, List.map_map]
  have hfilter : xs.filter (p ∘ fun x => if x.id ∈ ids then x.stopped else x) = xs.filter p := by
    refine List.filter_congr fun x hx => ?_
    simp only [Function.comp]
    split
    · next hin => rw [hoff, hp x hx hin]
    · rfl
  rw [hfilter]
  refine List.map_congr_left fun x _ => ?_
  simp only [Function.comp]
  split <;> rfl

theorem mem_listed : id ∈ listed p xs ↔ ∃ x ∈ xs, p x = true ∧ x.id = id := by
  simp only [listed, List.mem_map, List.mem_filter, and_assoc]

end Listed

namespace Scheduler

variable {κ α : Type} [DecidableEq α] {fire : Nat → α} {s s' s'' : Scheduler κ α}

/-- What the bookkeeping of all registrations is about. -/
def standings (s : Scheduler κ α) : List Standing := s.registrations.map Registration.standing

omit [DecidableEq α] in
/-- A registration is found by its id. -/
theorem find?_of_nodup (hd : (s.standings.map Standing.id).Nodup) {r : Registration κ} (hr : r ∈ s.registrations) :
    s.find? r.id = some r := by
  rw [standings, List.map_map] at hd
  cases hfind : s.find? r.id with
  | none =>
    have hnot := List.find?_eq_none.mp hfind r hr
    simp at hnot
  | some r' =>
    rw [List.inj_on_of_nodup_map hd (mem_of_find? hfind) hr (id_of_find? hfind)]

/-! ## The invariant -/

/-- Whether a value is the name of an event. -/
def IsName (v : Value) : Prop := ∃ name, v = .str name

/-- The invariant: the indexes list exactly what is active, in the order of registration, and the loop holds no
job that would make a timer fire twice. -/
structure InStep (fire : Nat → α) (s : Scheduler κ α) : Prop where
  numbered : s.standings.map Standing.id = List.range s.registrations.length
  events : ∀ x ∈ s.standings, if x.kind = .listener then IsName x.event else x.event = .null
  owners : Indexes (· == ·) (fun _ => True) s.byOwner fun owner => listed (Standing.isOf owner) s.standings
  names : Indexes Value.same IsName s.listeners fun v => listed (Standing.hears v.text?) s.standings
  once : ∀ x ∈ s.standings, x.kind = .timer → s.loop.pending (fire x.id) + x.fired ≤ 1
  deaf : ∀ x ∈ s.standings, x.kind = .listener → s.loop.pending (fire x.id) = 0
  fresh : ∀ id, s.registrations.length ≤ id → s.loop.pending (fire id) = 0

theorem decides_owner : Decides (· == · : String → String → Bool) fun _ => True := fun _ _ _ _ => beq_iff_eq

theorem decides_name : Decides Value.same IsName := by
  rintro _ _ ⟨a, rfl⟩ ⟨b, rfl⟩
  simp [Value.same]

theorem InStep.initial (fire : Nat → α) (shortest : Float) :
    InStep fire ({ minInterval := shortest } : Scheduler κ α) := by
  refine ⟨rfl, nofun, ⟨List.nodup_nil, nofun, nofun, fun _ _ => rfl⟩, ⟨List.nodup_nil, nofun, nofun, fun _ _ => rfl⟩,
    nofun, nofun, fun _ _ => rfl⟩

namespace InStep

theorem nodup (h : s.InStep fire) : (s.standings.map Standing.id).Nodup := by
  rw [h.numbered]
  exact List.nodup_range

theorem lt_length (h : s.InStep fire) {x : Standing} (hx : x ∈ s.standings) : x.id < s.registrations.length := by
  rw [← List.mem_range, ← h.numbered]
  exact List.mem_map_of_mem hx

theorem eq_of_id (h : s.InStep fire) {x y : Standing} (hx : x ∈ s.standings) (hy : y ∈ s.standings)
    (heq : x.id = y.id) : x = y :=
  List.inj_on_of_nodup_map h.nodup hx hy heq

theorem find?_of_mem (h : s.InStep fire) {r : Registration κ} (hr : r ∈ s.registrations) :
    s.find? r.id = some r := find?_of_nodup h.nodup hr

omit [DecidableEq α] in
theorem mem_standings {id : Nat} {r : Registration κ} (hr : s.find? id = some r) : r.standing ∈ s.standings :=
  List.mem_map_of_mem (mem_of_find? hr)

/-- Whatever leaves the registrations and their indexes alone, and adds no job that makes one fire. -/
theorem mono (h : s.InStep fire) (hs : s'.standings = s.standings) (ho : s'.byOwner = s.byOwner)
    (hl : s'.listeners = s.listeners) (hp : ∀ id, s'.loop.pending (fire id) ≤ s.loop.pending (fire id)) :
    s'.InStep fire := by
  have hlen : s'.registrations.length = s.registrations.length := by
    simpa [standings] using congrArg List.length hs
  refine ⟨?_, ?_, ?_, ?_, fun x hx hk => ?_, fun x hx hk => ?_, fun id hid => ?_⟩
  · rw [hs, hlen]
    exact h.numbered
  · rw [hs]
    exact h.events
  · rw [hs, ho]
    exact h.owners
  · rw [hs, hl]
    exact h.names
  · exact Nat.le_trans (Nat.add_le_add_right (hp x.id) _) (h.once x (hs ▸ hx) hk)
  · exact Nat.le_zero.mp (h.deaf x (hs ▸ hx) hk ▸ hp x.id)
  · exact Nat.le_zero.mp (h.fresh id (hlen ▸ hid) ▸ hp id)

end InStep

/-! ## Setting timers -/

/-- A change that sets a timer for a job, or none, and leaves the registrations and their indexes alone. -/
structure Sets (job : α) (s s' : Scheduler κ α) : Prop where
  standings : s'.standings = s.standings
  owners : s'.byOwner = s.byOwner
  names : s'.listeners = s.listeners
  pending : ∀ j, s'.loop.pending j ≤ s.loop.pending j + if job = j then 1 else 0

omit [DecidableEq α] in
theorem standings_modify (s : Scheduler κ α) (id : Nat) {f : Registration κ → Registration κ} {g : Standing → Standing}
    (hf : ∀ r, (f r).standing = g r.standing) : (s.modify id f).standings = changed id g s.standings := by
  simp only [standings, modify, changed, List.map_map]
  refine List.map_congr_left fun r _ => ?_
  have hkey : r.standing.id = r.id := rfl
  simp only [Function.comp, hkey, beq_iff_eq]
  by_cases hid : r.id = id
  · rw [if_pos hid, if_pos hid, hf r]
  · rw [if_neg hid, if_neg hid]

theorem changed_self (id : Nat) (xs : List Standing) : changed id (fun x => x) xs = xs := by
  simp [changed]

namespace Sets

variable {job : α}

theorem refl (job : α) (s : Scheduler κ α) : Sets job s s := ⟨rfl, rfl, rfl, fun _ => Nat.le_add_right _ _⟩

theorem arm {id : Nat} {time : Float} (h : s.arm id time job = .ok s') : Sets job s s' := by
  obtain ⟨due, rfl⟩ := arm_eq_ok h
  refine ⟨?_, rfl, rfl, fun j => Nat.le_of_eq (Loop.pending_addTimer s.loop due job j)⟩
  have hmodify := standings_modify { s with loop := (s.loop.addTimer due job).2 } id (g := fun x => x)
    (f := fun r => { r with handle := some (s.loop.addTimer due job).1, nextAt := time }) fun _ => rfl
  rwa [changed_self] at hmodify

theorem armAfter {id : Nat} {delay : Except Fault Value} (h : s.armAfter id delay job = .ok s') : Sets job s s' := by
  obtain ⟨time, harm⟩ := armAfter_eq_ok h
  exact arm harm

theorem rearm (fire : Nat → α) (s : Scheduler κ α) (r : Registration κ) : Sets (fire r.id) s (s.rearm r fire) := by
  unfold Scheduler.rearm
  split
  · next next _ =>
    dsimp only
    split
    · next s' h =>
      obtain ⟨hs, ho, hl, hp⟩ := arm h
      refine ⟨?_, ho, hl, hp⟩
      rw [standings_modify s' r.id (g := fun x => x) (f := fun r => { r with nextAt := next }) fun _ => rfl,
        changed_self, hs]
    · exact .refl _ s
  · exact .refl _ s

end Sets

namespace InStep

/-! ## Registering -/

/-- A registration is added to the indexes, and perhaps its timer set. -/
theorem added (h : s.InStep fire) (hfire : fire.Injective) {x : Standing} (hid : x.id = s.registrations.length)
    (hnew : x.fired = 0 ∧ x.cancelled = false) (hevent : if x.kind = .listener then IsName x.event else x.event = .null)
    (hs : s'.standings = s.standings ++ [x]) (ho : s'.byOwner = indexed (· == ·) x.owner x.id s.byOwner)
    (hl : s'.listeners = if x.kind = .listener then indexed Value.same x.event x.id s.listeners else s.listeners)
    (hp : ∀ j, s'.loop.pending j ≤ s.loop.pending j + if x.kind ≠ .listener ∧ fire x.id = j then 1 else 0) :
    s'.InStep fire := by
  have hlen : s'.registrations.length = s.registrations.length + 1 := by
    simpa [standings] using congrArg List.length hs
  have hactive : x.isActive = true := by simp [Standing.isActive, hnew]
  have hold : ∀ y ∈ s.standings, s'.loop.pending (fire y.id) ≤ s.loop.pending (fire y.id) := by
    intro y hy
    have hne : ¬(x.kind ≠ .listener ∧ fire x.id = fire y.id) := fun hboth =>
      Nat.ne_of_gt (hid ▸ h.lt_length hy) (hfire hboth.2)
    have hle := hp (fire y.id)
    rwa [if_neg hne] at hle
  have hmem : ∀ y ∈ s'.standings, y ∈ s.standings ∨ y = x := fun y hy => by
    rw [hs] at hy
    exact (List.mem_append.mp hy).imp_right List.mem_singleton.mp
  -- the number of `x` is the next one, so no job of the loop is for it yet
  refine ⟨?_, fun y hy => ?_, ?_, ?_, fun y hy hk => ?_, fun y hy hk => ?_, fun i hi => ?_⟩
  · rw [hs, List.map_append, h.numbered, hlen, List.range_succ, List.map_singleton, hid]
  · rcases hmem y hy with hy | rfl
    · exact h.events y hy
    · exact hevent
  · rw [hs, ho]
    refine h.owners.indexed decides_owner trivial ?_ fun owner _ hne => ?_
    · rw [listed_append, if_pos (by simp [Standing.isOf, hactive])]
    · rw [listed_append, if_neg (by simp [Standing.isOf, Ne.symm hne])]
  · rw [hs, hl]
    split
    · next hk =>
      rw [if_pos hk] at hevent
      obtain ⟨name, hname⟩ := hevent
      refine h.names.indexed decides_name ⟨name, hname⟩ ?_ fun v hv hne => ?_
      · rw [listed_append, if_pos (by simp [Standing.hears, hactive, hname, Value.text?])]
      · obtain ⟨other, rfl⟩ := hv
        have hother : name ≠ other := fun heq => hne (by rw [hname, heq])
        rw [listed_append, if_neg (by simp [Standing.hears, hname, Value.text?, hother])]
    · next hk =>
      rw [if_neg hk] at hevent
      refine h.names.congr fun v hv => ?_
      obtain ⟨name, rfl⟩ := hv
      rw [listed_append, if_neg (by simp [Standing.hears, hevent, Value.text?])]
  · rcases hmem y hy with hy | rfl
    · exact Nat.le_trans (Nat.add_le_add_right (hold y hy) _) (h.once y hy hk)
    · have hle := hp (fire y.id)
      rw [h.fresh _ (Nat.le_of_eq hid.symm)] at hle
      rw [hnew.1]
      exact Nat.le_trans hle (by split <;> omega)
  · rcases hmem y hy with hy | rfl
    · exact Nat.le_zero.mp (h.deaf y hy hk ▸ hold y hy)
    · have hle := hp (fire y.id)
      rw [h.fresh _ (Nat.le_of_eq hid.symm), if_neg (by simp [hk])] at hle
      exact Nat.le_zero.mp hle
  · have hne : ¬(x.kind ≠ .listener ∧ fire x.id = fire i) := fun hboth => by
      have heq := hfire hboth.2
      omega
    have hle := hp (fire i)
    rw [h.fresh i (by omega), if_neg hne] at hle
    exact Nat.le_zero.mp hle

omit [DecidableEq α] in
theorem standings_track (s : Scheduler κ α) (r : Registration κ) :
    (s.track r).2.standings = s.standings ++ [{ r.standing with id := s.registrations.length }] := by
  simp [standings, Scheduler.track, Registration.standing]

/-- A registration is tracked, and perhaps its timer set; it is no listener. -/
theorem tracked (h : s.InStep fire) (hfire : fire.Injective) {r : Registration κ}
    (hnew : r.fired = 0 ∧ r.cancelled = false) (hk : r.kind ≠ .listener) (hevent : r.event = .null)
    (hsets : Sets (fire s.registrations.length) (s.track r).2 s') : s'.InStep fire := by
  obtain ⟨hs, ho, hl, hp⟩ := hsets
  refine h.added hfire (x := { r.standing with id := s.registrations.length }) rfl hnew ?_
    (hs.trans (standings_track s r)) ho ?_ fun j => ?_
  · rwa [if_neg (show r.standing.kind ≠ .listener from hk)]
  · rw [if_neg (show r.standing.kind ≠ .listener from hk)]
    exact hl
  · refine Nat.le_trans (hp j) (Nat.le_of_eq ?_)
    congr 1
    have hkind : r.standing.kind ≠ .listener := hk
    simp only [hkind, ne_eq, not_false_eq_true, true_and]

theorem callLater (h : s.InStep fire) (hfire : fire.Injective) (owner : String) (delay : Value) (callback : κ) :
    (s.callLater fire owner delay callback).2.InStep fire := by
  unfold Scheduler.callLater
  dsimp only
  split
  · next harm => exact h.tracked hfire ⟨rfl, rfl⟩ (by simp) rfl (.armAfter harm)
  · exact h.tracked hfire ⟨rfl, rfl⟩ (by simp) rfl (.refl _ _)

theorem every (h : s.InStep fire) (hfire : fire.Injective) (owner : String) (interval : Value) (callback : κ) :
    (s.every fire owner interval callback).2.InStep fire := by
  unfold Scheduler.every
  split
  · exact h
  · dsimp only
    split
    · next harm => exact h.tracked hfire ⟨rfl, rfl⟩ (by simp) rfl (.armAfter harm)
    · exact h.tracked hfire ⟨rfl, rfl⟩ (by simp) rfl (.refl _ _)

theorem listen (h : s.InStep fire) (hfire : fire.Injective) (owner name : String) (callback : κ) :
    (s.listen owner (.str name) callback).2.InStep fire := by
  unfold Scheduler.listen
  dsimp only
  rw [if_pos (by rfl)]
  exact h.added hfire (x := ⟨s.registrations.length, owner, .listener, .str name, 0, false⟩) rfl ⟨rfl, rfl⟩
    ⟨name, rfl⟩ (standings_track s _) rfl rfl fun j => Nat.le_add_right _ _

/-! ## Leaving the indexes -/

/-- A registration that is active no more is taken out of the indexes. -/
theorem dropped (h : s.InStep fire) {x : Standing} (hx : x ∈ s.standings) {g : Standing → Standing}
    (hg : ∀ y, (g y).id = y.id ∧ (g y).owner = y.owner ∧ (g y).kind = y.kind ∧
      (g y).event = y.event) (hoff : (g x).isActive = false)
    (hs : s'.standings = changed x.id g s.standings)
    (ho : s'.byOwner = unindexed (· == ·) x.owner x.id s.byOwner)
    (hl : s'.listeners = if x.kind = .listener then withdrawn x.id s.listeners else s.listeners)
    (hp : ∀ id, s'.loop.pending (fire id) ≤ s.loop.pending (fire id))
    (honce : x.kind = .timer → s'.loop.pending (fire x.id) + (g x).fired ≤ 1) : s'.InStep fire := by
  have hlen : s'.registrations.length = s.registrations.length := by
    simpa [standings, changed] using congrArg List.length hs
  have hid : ∀ y, (g y).id = y.id := fun y => (hg y).1
  have hx' : ∀ y ∈ s.standings, y.id = x.id → y = x := fun y hy heq => h.eq_of_id hy hx heq
  have hmem : ∀ y ∈ s'.standings, y = g x ∨ y ∈ s.standings := by
    intro y hy
    rw [hs] at hy
    rcases mem_changed hy with ⟨z, hz, heq, rfl⟩ | ⟨hy, -⟩
    · exact .inl (by rw [hx' z hz heq])
    · exact .inr hy
  -- only `x` changes: its own owner and its own event list one entry less, all others list what they did
  refine ⟨?_, fun y hy => ?_, ?_, ?_, fun y hy hk => ?_, fun y hy hk => ?_, fun i hi => ?_⟩
  · rw [hs, ids_changed hid, hlen]
    exact h.numbered
  · rcases hmem y hy with rfl | hy
    · rw [(hg x).2.2.1, (hg x).2.2.2]
      exact h.events x hx
    · exact h.events y hy
  · rw [hs, ho]
    refine h.owners.unindexed decides_owner trivial ?_ fun owner _ hne => ?_
    · refine listed_dropped h.nodup hid fun y hy heq => ?_
      rw [hx' y hy heq, Standing.isOf, hoff, Bool.false_and]
    · refine listed_kept hid fun y hy heq => ?_
      rw [hx' y hy heq, Standing.isOf, Standing.isOf, hoff, Bool.false_and]
      simp [Ne.symm hne]
  · have hevent := h.events x hx
    rw [hs, hl]
    split
    · next hk =>
      rw [if_pos hk] at hevent
      obtain ⟨name, hname⟩ := hevent
      refine h.names.withdrawn decides_name ⟨name, hname⟩ (fun v hv hin => ?_) ?_ fun v hv hne => ?_
      · obtain ⟨other, rfl⟩ := hv
        obtain ⟨y, hy, hhears, heq⟩ := mem_listed.mp hin
        rw [hx' y hy heq, Standing.hears, Bool.and_eq_true, hname] at hhears
        rw [hname, Option.some.inj (beq_iff_eq.mp hhears.2)]
      · refine listed_dropped h.nodup hid fun y hy heq => ?_
        rw [hx' y hy heq, Standing.hears, hoff, Bool.false_and, Bool.false_and]
      · obtain ⟨other, rfl⟩ := hv
        have hother : name ≠ other := fun heq => hne (by rw [hname, heq])
        refine listed_kept hid fun y hy heq => ?_
        rw [hx' y hy heq, Standing.hears, Standing.hears, hoff, Bool.false_and, Bool.false_and]
        simp [hname, Value.text?, hother]
    · next hk =>
      rw [if_neg hk] at hevent
      refine h.names.congr fun v hv => ?_
      obtain ⟨name, rfl⟩ := hv
      refine listed_kept hid fun y hy heq => ?_
      rw [hx' y hy heq, Standing.hears, Standing.hears, hoff, Bool.false_and, Bool.false_and]
      simp [hevent, Value.text?]
  · rcases hmem y hy with rfl | hy
    · rw [(hg x).2.2.1] at hk
      rw [hid]
      exact honce hk
    · exact Nat.le_trans (Nat.add_le_add_right (hp y.id) _) (h.once y hy hk)
  · have hdeaf : s.loop.pending (fire y.id) = 0 := by
      rcases hmem y hy with rfl | hy
      · rw [(hg x).2.2.1] at hk
        rw [hid]
        exact h.deaf x hx hk
      · exact h.deaf y hy hk
    exact Nat.le_zero.mp (hdeaf ▸ hp y.id)
  · exact Nat.le_zero.mp (h.fresh i (hlen ▸ hi) ▸ hp i)

/-- What leaves the indexes when a registration is forgotten. -/
theorem forget_eq (h : s.InStep fire) {x : Standing} (hx : x ∈ s.standings) {t : Scheduler κ α} {r : Registration κ}
    (hr : r.id = x.id ∧ r.owner = x.owner ∧ r.kind = x.kind ∧ r.event = x.event) :
    t.forget r = (.ok (), { t with
      byOwner := unindexed (· == ·) x.owner x.id t.byOwner
      listeners := if x.kind = .listener then withdrawn x.id t.listeners else t.listeners }) := by
  obtain ⟨hid, howner, hkind, hevent⟩ := hr
  have hx' := h.events x hx
  unfold Scheduler.forget
  dsimp only
  rw [hid, howner, hevent]
  split
  · next hnull =>
    have hk : x.kind ≠ .listener := by
      intro hk
      rw [if_pos hk, hnull] at hx'
      obtain ⟨name, hname⟩ := hx'
      cases hname
    rw [if_neg hk]
  · next hsome =>
    have hk : x.kind = .listener := by
      by_contra hk
      rw [if_neg hk] at hx'
      exact hsome hx'
    rw [if_pos hk] at hx'
    obtain ⟨name, hname⟩ := hx'
    rw [if_pos hk, hname, if_pos (by rfl)]

/-! ## Cancelling -/

theorem exists_find? (h : s.InStep fire) {id : Nat} (hid : id < s.registrations.length) :
    ∃ r, s.find? id = some r := by
  have hmem : id ∈ s.standings.map Standing.id := by
    rw [h.numbered]
    exact List.mem_range.mpr hid
  obtain ⟨x, hx, rfl⟩ := List.mem_map.mp hmem
  obtain ⟨r, hr, rfl⟩ := List.mem_map.mp hx
  exact ⟨r, h.find?_of_mem hr⟩

theorem ids_filterMap_find? (h : s.InStep fire) {ids : List Nat} (hids : ∀ id ∈ ids, id < s.registrations.length) :
    (ids.filterMap s.find?).map Registration.id = ids := by
  rw [List.map_filterMap]
  have hsome : ids.filterMap (fun id => (s.find? id).map Registration.id) = ids.filterMap some := by
    refine List.filterMap_congr fun id hid => ?_
    obtain ⟨r, hr⟩ := h.exists_find? (hids id hid)
    rw [hr, Option.map_some, id_of_find? hr]
  rw [hsome, List.filterMap_some]

/-- Cancelling a registration. -/
theorem cancel (h : s.InStep fire) {id : Nat} (hid : id < s.registrations.length) :
    (s.cancel id).1 = .ok () ∧ (s.cancel id).2.InStep fire ∧
      (s.cancel id).2.standings = changed id Standing.stopped s.standings := by
  obtain ⟨r, hr⟩ := h.exists_find? hid
  have hx : r.standing ∈ s.standings := mem_standings hr
  have hxid : r.standing.id = id := id_of_find? hr
  cases hc : r.cancelled with
  | true =>
    have hsame : s.cancel id = (.ok (), s) := by simp only [Scheduler.cancel, hr, hc, if_true]
    rw [hsame]
    refine ⟨rfl, h, ?_⟩
    have hstopped : changed id Standing.stopped s.standings = changed id (fun y => y) s.standings := by
      refine List.map_congr_left fun y hy => ?_
      split
      · next heq =>
        obtain rfl := h.eq_of_id hy hx (heq.trans hxid.symm)
        exact congrArg (Standing.mk _ _ _ _ _) hc.symm
      · rfl
    rw [hstopped, changed_self]
  | false =>
    -- the registration is marked, its timer taken away, and then it is forgotten
    have hmodify := standings_modify s id (g := Standing.stopped) (f := fun r => { r with cancelled := true })
      fun _ => rfl
    obtain ⟨t, ht, hstandings, howners, hnames, hpending⟩ : ∃ t : Scheduler κ α, s.cancel id = t.forget r ∧
        t.standings = changed id Standing.stopped s.standings ∧ t.byOwner = s.byOwner ∧ t.listeners = s.listeners ∧
        ∀ j, t.loop.pending j ≤ s.loop.pending j := by
      simp only [Scheduler.cancel, hr, hc, Bool.false_eq_true, if_false]
      cases r.handle with
      | none => exact ⟨_, rfl, hmodify, rfl, rfl, fun _ => Nat.le_refl _⟩
      | some handle => exact ⟨_, rfl, hmodify, rfl, rfl, fun j => Loop.pending_cancel_le s.loop handle j⟩
    rw [ht, h.forget_eq hx ⟨rfl, rfl, rfl, rfl⟩]
    subst hxid
    refine ⟨rfl, h.dropped hx (g := Standing.stopped) (fun _ => ⟨rfl, rfl, rfl, rfl⟩) rfl hstandings ?_ ?_
      (fun _ => hpending _) fun hk => ?_, hstandings⟩
    · exact congrArg _ howners
    · simp only [hnames]
    · exact Nat.le_trans (Nat.add_le_add_right (hpending _) _) (h.once _ hx hk)

theorem cancelEach (h : s.InStep fire) {ids : List Nat} (hids : ∀ id ∈ ids, id < s.registrations.length) :
    (s.cancelEach ids).1 = .ok () ∧ (s.cancelEach ids).2.InStep fire ∧
      (s.cancelEach ids).2.standings = stoppedAll ids s.standings := by
  induction ids generalizing s with
  | nil => exact ⟨rfl, h, (stoppedAll_nil _).symm⟩
  | cons id rest ih =>
    obtain ⟨hid, hrest⟩ := List.forall_mem_cons.mp hids
    obtain ⟨hok, hstep, hstandings⟩ := h.cancel hid
    have hlen : (s.cancel id).2.registrations.length = s.registrations.length := by
      simpa [standings, changed] using congrArg List.length hstandings
    obtain ⟨hoks, hsteps, hall⟩ := ih hstep fun j hj => hlen ▸ hrest j hj
    rw [cancelEach_cons, hok]
    refine ⟨hoks, hsteps, ?_⟩
    rw [hall, hstandings, changed_stopped, ← stoppedAll_append]
    rfl

theorem ownedBy_eq (h : s.InStep fire) (owner : String) :
    s.ownedBy owner = listed (Standing.isOf owner) s.standings := by
  rw [← h.owners.found owner trivial, ownedBy, under]
  congr 1
  induction s.byOwner with
  | nil => rfl
  | cons e rest ih =>
    rw [lookup_cons_eq_ite, List.find?_cons, ih]
    by_cases heq : owner = e.1
    · simp [heq]
    · simp [heq, beq_eq_false_iff_ne.mpr heq]

theorem lt_of_listed (h : s.InStep fire) {p : Standing → Bool} {id : Nat} (hid : id ∈ listed p s.standings) :
    id < s.registrations.length := by
  obtain ⟨x, hx, -, rfl⟩ := mem_listed.mp hid
  exact h.lt_length hx

/-- Cancelling what an owner has registered. -/
theorem cancelOwner (h : s.InStep fire) (owner : String) :
    (s.cancelOwner owner).1 = .ok (listed (Standing.isOf owner) s.standings).length ∧
      (s.cancelOwner owner).2.InStep fire ∧
      (s.cancelOwner owner).2.standings = stoppedAll (listed (Standing.isOf owner) s.standings) s.standings := by
  obtain ⟨hok, hstep, hstandings⟩ := h.cancelEach fun id (hid : id ∈ s.ownedBy owner) =>
    h.lt_of_listed (h.ownedBy_eq owner ▸ hid)
  rw [cancelOwner_eq, hok]
  rw [h.ownedBy_eq owner] at hstep hstandings ⊢
  exact ⟨rfl, hstep, hstandings⟩

/-- Cancelling what several owners have registered. -/
theorem cancelOwners (h : s.InStep fire) {owners : List String} (hd : owners.Nodup) (count : Nat) :
    (s.cancelOwners count owners).1 =
        .ok (count + (owners.flatMap fun owner => listed (Standing.isOf owner) s.standings).length) ∧
      (s.cancelOwners count owners).2.InStep fire ∧
      (s.cancelOwners count owners).2.standings =
        stoppedAll (owners.flatMap fun owner => listed (Standing.isOf owner) s.standings) s.standings := by
  induction owners generalizing s count with
  | nil => exact ⟨rfl, h, (stoppedAll_nil _).symm⟩
  | cons owner rest ih =>
    obtain ⟨hnew, hrest⟩ := List.nodup_cons.mp hd
    obtain ⟨hok, hstep, hstandings⟩ := h.cancelOwner owner
    obtain ⟨hoks, hsteps, hall⟩ := ih hstep hrest (count + (listed (Standing.isOf owner) s.standings).length)
    -- what the other owners have registered is not of this one
    have hothers : (rest.flatMap fun other => listed (Standing.isOf other) (s.cancelOwner owner).2.standings) =
        rest.flatMap fun other => listed (Standing.isOf other) s.standings := by
      refine List.flatMap_congr fun other hother => ?_
      rw [hstandings]
      refine listed_stoppedAll (fun x => rfl) fun x hx hin => ?_
      obtain ⟨y, hy, hof, hyx⟩ := mem_listed.mp hin
      obtain rfl := h.eq_of_id hy hx hyx
      have howner : y.owner = owner := by
        simp only [Standing.isOf, Bool.and_eq_true, beq_iff_eq] at hof
        exact hof.2
      have hne : owner ≠ other := fun heq => hnew (heq ▸ hother)
      simp [Standing.isOf, howner, hne]
    rw [hothers] at hoks hall
    rw [cancelOwners_cons, hok, List.flatMap_cons]
    refine ⟨?_, hsteps, ?_⟩
    · rw [hoks, List.length_append, Nat.add_assoc]
    · rw [hall, hstandings, stoppedAll_append]

theorem activeIds_eq (h : s.InStep fire) : s.activeIds =
    (s.byOwner.map Prod.fst).flatMap fun owner => listed (Standing.isOf owner) s.standings :=
  h.owners.flatMap_snd decides_owner

/-- The index by owner lists what is active, each once. -/
theorem perm_activeIds (h : s.InStep fire) : s.activeIds.Perm (listed Standing.isActive s.standings) := by
  have hnodup : ∀ p : Standing → Bool, (listed p s.standings).Nodup := fun p =>
    h.nodup.sublist ((List.filter_sublist (p := p) (l := s.standings)).map Standing.id)
  have hof : ∀ {owner : String} {x : Standing}, x.isOf owner = true ↔ x.isActive = true ∧ x.owner = owner := by
    intro owner x
    rw [Standing.isOf, Bool.and_eq_true, beq_iff_eq]
  have hactive : s.activeIds.Nodup := by
    rw [h.activeIds_eq]
    refine List.nodup_flatMap.mpr ⟨fun owner _ => hnodup _, h.owners.keys.imp fun {a b} hne id hida hidb => ?_⟩
    obtain ⟨x, hx, hxa, rfl⟩ := mem_listed.mp hida
    obtain ⟨y, hy, hyb, heq⟩ := mem_listed.mp hidb
    obtain rfl := h.eq_of_id hy hx heq
    exact hne ((hof.mp hxa).2.symm.trans (hof.mp hyb).2)
  refine (List.perm_ext_iff_of_nodup hactive (hnodup _)).mpr fun id => ?_
  rw [h.activeIds_eq, List.mem_flatMap]
  constructor
  · rintro ⟨owner, -, hid⟩
    obtain ⟨x, hx, hp, rfl⟩ := mem_listed.mp hid
    exact mem_listed.mpr ⟨x, hx, (hof.mp hp).1, rfl⟩
  · intro hid
    obtain ⟨x, hx, hp, rfl⟩ := mem_listed.mp hid
    have hin : x.id ∈ listed (Standing.isOf x.owner) s.standings := mem_listed.mpr ⟨x, hx, hof.mpr ⟨hp, rfl⟩, rfl⟩
    refine ⟨x.owner, ?_, hin⟩
    by_contra hnot
    have hnil := under_eq_nil decides_owner h.owners.proper trivial hnot
    rw [h.owners.found x.owner trivial] at hnil
    rw [hnil] at hin
    cases hin

/-- Cancelling everything. -/
theorem cancelAll (h : s.InStep fire) :
    s.cancelAll.1 = .ok (listed Standing.isActive s.standings).length ∧ s.cancelAll.2.InStep fire ∧
      s.cancelAll.2.standings = stoppedAll (listed Standing.isActive s.standings) s.standings := by
  obtain ⟨hok, hstep, hstandings⟩ := h.cancelOwners h.owners.keys 0
  rw [← h.activeIds_eq] at hok hstandings
  refine ⟨?_, hstep, ?_⟩
  · rw [Scheduler.cancelAll, hok, Nat.zero_add, h.perm_activeIds.length_eq]
  · rw [Scheduler.cancelAll, hstandings]
    refine List.map_congr_left fun x _ => ?_
    simp only [h.perm_activeIds.mem_iff]

end InStep

/-! ## Firing -/

/-- The scheduler when a timer or an interval that fires is about to be called. -/
def firing (s : Scheduler κ α) (fire : Nat → α) (r : Registration κ) : Scheduler κ α :=
  match r.kind with
  | .interval => s.rearm r fire
  | _ => (s.forget r).2

/-- A scheduler whose loop has taken the job of a registration, and that is otherwise as it was. -/
structure Taken (fire : Nat → α) (id : Nat) (s t : Scheduler κ α) : Prop where
  standings : t.standings = s.standings
  owners : t.byOwner = s.byOwner
  names : t.listeners = s.listeners
  pending : ∀ j, s.loop.pending j = t.loop.pending j + if fire id = j then 1 else 0

namespace InStep

omit [DecidableEq α] in
theorem standings_call (s : Scheduler κ α) (id : Nat) :
    (s.modify id fun r => { r with fired := r.fired + 1 }).standings = changed id Standing.called s.standings :=
  standings_modify s id fun _ => rfl

/-- A registration that is no timer is called. -/
theorem call (h : s.InStep fire) {r : Registration κ} {id : Nat} (hr : s.find? id = some r) (hk : r.kind ≠ .timer) :
    (s.modify id fun r => { r with fired := r.fired + 1 }).InStep fire := by
  have hx := mem_standings hr
  have hxid : r.standing.id = id := id_of_find? hr
  have hkind : ∀ y ∈ s.standings, y.id = id → y.kind ≠ .timer := by
    intro y hy heq
    obtain rfl := h.eq_of_id hy hx (heq.trans hxid.symm)
    exact hk
  have hactive : ∀ y ∈ s.standings, y.id = id → y.called.isActive = y.isActive := by
    intro y hy heq
    rw [Standing.isActive_called]
    simp [hkind y hy heq]
  have hid : ∀ y, (Standing.called y).id = y.id := fun _ => rfl
  refine ⟨?_, fun y hy => ?_, ?_, ?_, fun y hy hyk => ?_, fun y hy hyk => ?_, fun i hi => ?_⟩
  · rw [standings_call, ids_changed hid, h.numbered, modify, List.length_map]
  · rw [standings_call] at hy
    rcases mem_changed hy with ⟨z, hz, -, rfl⟩ | ⟨hy, -⟩
    · exact h.events z hz
    · exact h.events y hy
  · rw [standings_call]
    refine h.owners.congr fun owner _ => listed_kept hid fun y hy heq => ?_
    rw [Standing.isOf, Standing.isOf, hactive y hy heq]
    rfl
  · rw [standings_call]
    refine h.names.congr fun v _ => listed_kept hid fun y hy heq => ?_
    rw [Standing.hears, Standing.hears, hactive y hy heq]
    rfl
  · rw [standings_call] at hy
    rcases mem_changed hy with ⟨z, hz, heq, rfl⟩ | ⟨hy, -⟩
    · exact absurd hyk (hkind z hz heq)
    · exact h.once y hy hyk
  · rw [standings_call] at hy
    rcases mem_changed hy with ⟨z, hz, -, rfl⟩ | ⟨hy, -⟩
    · exact h.deaf z hz hyk
    · exact h.deaf y hy hyk
  · rw [modify, List.length_map] at hi
    exact h.fresh i hi

variable {t : Scheduler κ α} {id : Nat} {r : Registration κ}

theorem standing_mem (ht : Taken fire id s t) (hr : t.find? id = some r) :
    r.standing ∈ s.standings ∧ r.standing.id = id :=
  ⟨ht.standings ▸ mem_standings hr, id_of_find? hr⟩

/-- The timer that fires is the last one for its registration. -/
theorem fires_timer (h : s.InStep fire) (ht : Taken fire id s t) (hr : t.find? id = some r) (hk : r.kind = .timer) :
    (t.firing fire r).standings = s.standings ∧
      ((t.firing fire r).modify id fun r => { r with fired := r.fired + 1 }).InStep fire := by
  obtain ⟨hx, hxid⟩ := standing_mem ht hr
  have hkind : r.standing.kind = .timer := hk
  have hone := h.once _ hx hkind
  rw [hxid, ht.pending, if_pos rfl] at hone
  have hfiring : t.firing fire r = (t.forget r).2 := by simp only [firing, hk]
  rw [hfiring, h.forget_eq hx (t := t) ⟨rfl, rfl, rfl, rfl⟩]
  refine ⟨ht.standings, h.dropped hx (g := Standing.called) (fun _ => ⟨rfl, rfl, rfl, rfl⟩) ?_ ?_ ?_ ?_
    (fun i => ?_) fun _ => ?_⟩
  · rw [Standing.isActive_called, hkind]
    simp
  · rw [standings_call, hxid]
    exact congrArg (changed id Standing.called) ht.standings
  · exact congrArg _ ht.owners
  · simp only [hkind]
    exact ht.names
  · show t.loop.pending (fire i) ≤ s.loop.pending (fire i)
    rw [ht.pending]
    exact Nat.le_add_right _ _
  · rw [hxid]
    show t.loop.pending (fire id) + (r.standing.fired + 1) ≤ 1
    omega

/-- An interval that fires is set again. -/
theorem fires_interval (h : s.InStep fire) (ht : Taken fire id s t) (hr : t.find? id = some r)
    (hk : r.kind = .interval) : (t.firing fire r).standings = s.standings ∧
      ((t.firing fire r).modify id fun r => { r with fired := r.fired + 1 }).InStep fire := by
  obtain ⟨hx, hxid⟩ := standing_mem ht hr
  obtain ⟨hs, ho, hl, hp⟩ := Sets.rearm fire t r
  have hfiring : t.firing fire r = t.rearm r fire := by simp only [firing, hk]
  rw [hfiring]
  have hstandings : (t.rearm r fire).standings = s.standings := hs.trans ht.standings
  have hstep : (t.rearm r fire).InStep fire := by
    refine h.mono hstandings (ho.trans ht.owners) (hl.trans ht.names) fun i => ?_
    rw [ht.pending (fire i), ← hxid]
    exact hp (fire i)
  refine ⟨hstandings, ?_⟩
  have hlen : (t.rearm r fire).registrations.length = s.registrations.length := by
    simpa [standings] using congrArg List.length hstandings
  have hlt : id < (t.rearm r fire).registrations.length := by
    rw [hlen, ← hxid]
    exact h.lt_length hx
  obtain ⟨r', hr'⟩ := hstep.exists_find? hlt
  refine hstep.call hr' ?_
  have hmem : r'.standing ∈ s.standings := hstandings ▸ mem_standings hr'
  have hid : r'.standing.id = id := id_of_find? hr'
  have hkind : r'.standing.kind = r.standing.kind := congrArg Standing.kind (h.eq_of_id hmem hx (hid.trans hxid.symm))
  rw [show r'.kind = r.kind from hkind, hk]
  decide

/-- A timer or an interval fires whose job the loop has just taken. -/
theorem fires (h : s.InStep fire) (ht : Taken fire id s t) (hr : t.find? id = some r) :
    (t.firing fire r).standings = s.standings ∧
      ((t.firing fire r).modify id fun r => { r with fired := r.fired + 1 }).InStep fire := by
  cases hk : r.kind with
  | timer => exact h.fires_timer ht hr hk
  | interval => exact h.fires_interval ht hr hk
  | listener =>
    -- no job is made for a listener
    obtain ⟨hx, hxid⟩ := standing_mem ht hr
    have hdeaf := h.deaf _ hx hk
    rw [hxid, ht.pending, if_pos rfl] at hdeaf
    cases hdeaf

end InStep

end Scheduler

end Patchbay
