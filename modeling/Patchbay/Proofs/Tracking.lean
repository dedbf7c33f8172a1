import Mathlib.Logic.Relation
import Patchbay.Proofs.Indexes
import Patchbay.Proofs.Registrations

/-!
# Registrations that fail

A scheduler tracks a registration before it sets its timer, or looks its event up. Where that fails, the caller
has no registration to cancel, but the scheduler lists one: it is active, and of its owner, and nothing will ever
make it fire. Only an interval whose period has no order is refused before it is tracked.

A registration that succeeds is active, and whatever is done meanwhile, cancelling it later succeeds and takes it
out of every index. Only a listener for no event stays where it was found by its event.

Contents:
* `Scheduler.Operation`: one operation of a user, of a callback or of the loop; `Operated`: any number of them.
* `Scheduler.heardIds`: what is found by events; `Scheduler.Filed`: the invariant of both indexes.
* `Scheduler.Strands`, `Scheduler.Enters`: what a failed and a successful registration make of a scheduler.

Results:
* `Files.of_operation`: every operation keeps the invariant, and every registration what it is about.
* `Filed.cancel`: cancelling takes a registration out of both indexes.
* `registering_outcomes`: what becomes of every call that registers.
-/

namespace Patchbay.Scheduler

variable {κ α : Type} {fire : Nat → α} {P : String → Prop} {s s' s'' : Scheduler κ α}

/-! ## Operations -/

/-- A callback as far as it is called; what it does to the scheduler are operations that follow. -/
def calling (_ : Registration κ) (_ : Value) (s : Scheduler κ α) : Scheduler κ α := s

/-- One operation on a scheduler, successful or not. Callbacks may carry out any of them, so they come in any
order. -/
inductive Operation (fire : Nat → α) : Scheduler κ α → Scheduler κ α → Prop
  | callLater (s : Scheduler κ α) (owner : String) (delay : Value) (callback : κ) :
    Operation fire s (s.callLater fire owner delay callback).2
  | every (s : Scheduler κ α) (owner : String) (interval : Value) (callback : κ) :
    Operation fire s (s.every fire owner interval callback).2
  | listen (s : Scheduler κ α) (owner : String) (event : Value) (callback : κ) :
    Operation fire s (s.listen owner event callback).2
  | cancel (s : Scheduler κ α) (id : Nat) : Operation fire s (s.cancel id).2
  | cancelOwner (s : Scheduler κ α) (owner : String) : Operation fire s (s.cancelOwner owner).2
  | cancelAll (s : Scheduler κ α) : Operation fire s s.cancelAll.2
  /-- a listener's turn in a delivery -/
  | deliver (s : Scheduler κ α) (payload : Value) (id : Nat) :
    Operation fire s (Scheduler.deliver alone calling payload s [id])
  /-- a timer or an interval is due -/
  | expire (s : Scheduler κ α) (id : Nat) : Operation fire s (Scheduler.expire alone fire calling id s)
  | sleep (s : Scheduler κ α) {s' : Scheduler κ α} {seconds : Value} {elapsed resume : Nat → α} {id : Nat}
      (h : s.sleep seconds elapsed resume = .ok (id, s')) : Operation fire s s'
  | elapse (s : Scheduler κ α) (id : Nat) : Operation fire s (s.elapse id)
  | wakeAll (s : Scheduler κ α) : Operation fire s s.wakeAll.2
  | endSleep (s : Scheduler κ α) (id : Nat) : Operation fire s (s.endSleep id).2
  /-- other jobs come to the loop, or leave it, and time passes -/
  | loop (s : Scheduler κ α) (loop : Loop α) : Operation fire s { s with loop := loop }

/-- Any number of operations. -/
def Operated (fire : Nat → α) : Scheduler κ α → Scheduler κ α → Prop := Relation.ReflTransGen (Operation fire)

/-! ## The invariant -/

/-- The ids of the listeners that are found by events, event by event. -/
def heardIds (s : Scheduler κ α) : List Nat := s.listeners.flatMap Prod.snd

/-- The invariant of the indexes. What is found by an event is found once, and it is not cancelled, unless it is
a listener for no event. -/
structure Filed (s : Scheduler κ α) : Prop where
  tidy : s.Tidy
  nodup : s.heardIds.Nodup
  heard : ∀ id ∈ s.heardIds, ∃ r, s.find? id = some r ∧ r.event.hashable = true ∧ (r.event = .null ∨ r.cancelled = false)

theorem Filed.initial (shortest : Float) : ({ minInterval := shortest } : Scheduler κ α).Filed :=
  ⟨.initial shortest, List.nodup_nil, nofun⟩

/-- A change that keeps the invariant, and every registration what it is about. -/
structure Files (s s' : Scheduler κ α) : Prop where
  filed : s.Filed → s'.Filed
  known : ∀ {id r}, s.find? id = some r → ∃ r', s'.find? id = some r' ∧ r'.owner = r.owner ∧ r'.event = r.event

namespace Files

theorem refl (s : Scheduler κ α) : Files s s := ⟨id, fun hr => ⟨_, hr, rfl, rfl⟩⟩

theorem trans (h : Files s s') (h' : Files s' s'') : Files s s'' := by
  refine ⟨fun hs => h'.filed (h.filed hs), fun hr => ?_⟩
  obtain ⟨r', hr', howner, hevent⟩ := h.known hr
  obtain ⟨r'', hr'', howner', hevent'⟩ := h'.known hr'
  exact ⟨r'', hr'', howner'.trans howner, hevent'.trans hevent⟩

/-- A change by which nothing more is found by events, and nothing that still is gets cancelled. -/
theorem of_sublist (he : Evolves P s s')
    (hknown : ∀ {id r}, s.find? id = some r → ∃ r', s'.find? id = some r' ∧ r'.owner = r.owner ∧ r'.event = r.event)
    (hsub : s'.heardIds.Sublist s.heardIds)
    (hstill : s.Filed → ∀ id ∈ s'.heardIds, ∀ r r', s.find? id = some r → s'.find? id = some r' →
      r.event = .null ∨ r'.cancelled = r.cancelled) : Files s s' := by
  refine ⟨fun h => ⟨he.tidy h.tidy, h.nodup.sublist hsub, fun id hid => ?_⟩, hknown⟩
  obtain ⟨r, hr, hhash, hor⟩ := h.heard id (hsub.subset hid)
  obtain ⟨r', hr', -, hevent⟩ := hknown hr
  refine ⟨r', hr', hevent ▸ hhash, ?_⟩
  rw [hevent]
  rcases hor with hnull | hactive
  · exact .inl hnull
  · exact (hstill h id hid r r' hr hr').imp_right fun hsame => hsame.trans hactive

/-- A change of the loop or of sleeps. -/
theorem of_eq (he : Evolves P s s') (hr : s'.registrations = s.registrations) (hl : s'.listeners = s.listeners) :
    Files s s' := by
  have hfind : ∀ id, s'.find? id = s.find? id := fun id => by rw [find?, hr, find?]
  have hheard : s'.heardIds = s.heardIds := by rw [heardIds, hl, heardIds]
  refine of_sublist he (fun {id r} h => ⟨r, (hfind id).trans h, rfl, rfl⟩) (hheard ▸ .refl _)
    fun _ id _ r r' h h' => .inr ?_
  rw [hfind, h] at h'
  rw [Option.some.inj h']

/-- A change of one registration that leaves alone what it is about. -/
theorem modify (s : Scheduler κ α) (id : Nat) {f : Registration κ → Registration κ}
    (hf : ∀ r, (f r).id = r.id ∧ (f r).owner = r.owner ∧ (f r).cancelled = r.cancelled ∧ (f r).event = r.event) :
    Files s (s.modify id f) := by
  have hfind := fun j => find?_modify s id j fun r => (hf r).1
  refine of_sublist (P := fun _ => False) (.modify s id fun r => ⟨(hf r).1, (hf r).2.1, (hf r).2.2.1⟩) (fun hr => ?_)
    (.refl _) fun _ j _ r r' hr hr' => .inr ?_
  · rw [hfind, hr]
    refine ⟨_, rfl, ?_, ?_⟩ <;> dsimp only <;> split
    · exact (hf _).2.1
    · rfl
    · exact (hf _).2.2.2
    · rfl
  · rw [hfind, hr] at hr'
    obtain rfl := Option.some.inj hr'
    dsimp only
    split
    · exact (hf r).2.2.1
    · rfl

/-! ### Cancelling -/

theorem forget (s : Scheduler κ α) (r : Registration κ) : Files s (s.forget r).2 := by
  have hregistrations := (forget_fields s r).1
  have hfind : ∀ id, (s.forget r).2.find? id = s.find? id := fun id => by rw [find?, hregistrations, find?]
  refine of_sublist (P := fun _ => False) (.forget s r) (fun {id x} h => ⟨x, (hfind id).trans h, rfl, rfl⟩) ?_
    fun _ id _ x x' h h' => .inr ?_
  · rcases forget_listeners s r with ⟨hsame, -⟩ | hless
    · rw [heardIds, hsame]
      exact .refl _
    · rw [heardIds, hless, flatMap_withdrawn]
      exact List.erase_sublist
  · rw [hfind, h] at h'
    rw [Option.some.inj h']

theorem cancel (s : Scheduler κ α) (id : Nat) : Files s (s.cancel id).2 := by
  rcases cancel_cases s id with hsame | ⟨r, hr, hc⟩
  · rw [hsame]
    exact .refl s
  · have hfind := find?_cancel hr hc
    obtain ⟨-, -, -, -, -, hlisteners⟩ := cancel_of_find? hr hc
    refine of_sublist (P := fun _ => False) (.cancel s id) (fun {j x} hx => ?_) ?_ fun h j hj x x' hx hx' => ?_
    · rw [hfind, hx]
      refine ⟨_, rfl, ?_, ?_⟩ <;> dsimp only <;> split <;> rfl
    · rcases hlisteners with ⟨hsame, -⟩ | hless
      · rw [heardIds, hsame]
        exact .refl _
      · rw [heardIds, hless, flatMap_withdrawn]
        exact List.erase_sublist
    · rw [hfind, hx] at hx'
      obtain rfl := Option.some.inj hx'
      dsimp only
      split
      · next heq =>
        -- the one that is cancelled is found by its event only if that is none
        obtain rfl : j = id := (id_of_find? hx).symm.trans (beq_iff_eq.mp heq)
        obtain rfl := Option.some.inj (hr.symm.trans hx)
        rcases hlisteners with ⟨hsame, hnull | hhash⟩ | hless
        · exact .inl hnull
        · rw [heardIds, hsame] at hj
          obtain ⟨y, hy, hyes, -⟩ := h.heard j hj
          obtain rfl := Option.some.inj (hr.symm.trans hy)
          rw [hhash] at hyes
          cases hyes
        · rw [heardIds, hless, flatMap_withdrawn] at hj
          exact absurd hj h.nodup.not_mem_erase
      · exact .inr rfl

theorem cancelEach (ids : List Nat) (s : Scheduler κ α) : Files s (s.cancelEach ids).2 := by
  induction ids generalizing s with
  | nil => exact .refl s
  | cons id rest ih =>
    rw [cancelEach_cons]
    split
    · exact (cancel s id).trans (ih _)
    · exact cancel s id

theorem cancelOwner (s : Scheduler κ α) (owner : String) : Files s (s.cancelOwner owner).2 := by
  rw [cancelOwner_eq]
  exact cancelEach _ s

theorem cancelOwners (owners : List String) (count : Nat) (s : Scheduler κ α) :
    Files s (s.cancelOwners count owners).2 := by
  induction owners generalizing count s with
  | nil => exact .refl s
  | cons owner rest ih =>
    rw [cancelOwners_cons]
    split
    · exact (cancelOwner s owner).trans (ih _ _)
    · exact cancelOwner s owner

/-! ### Registering -/

theorem track (s : Scheduler κ α) {r : Registration κ} (hc : r.cancelled = false) : Files s (s.track r).2 := by
  have hfind : ∀ {id x}, s.find? id = some x → (s.track r).2.find? id = some x := fun {id x} hx => by
    simp only [find?] at hx
    simp only [find?, Scheduler.track, List.find?_append, hx, Option.some_or]
  refine of_sublist (.track s hc) (fun hx => ⟨_, hfind hx, rfl, rfl⟩) (.refl _) fun _ id _ x x' hx hx' => .inr ?_
  rw [hfind hx] at hx'
  rw [Option.some.inj hx']

theorem arm {id : Nat} {time : Float} {job : α} (h : s.arm id time job = .ok s') : Files s s' := by
  obtain ⟨due, rfl⟩ := arm_eq_ok h
  have hloop : ∀ loop, Files s { s with loop := loop } := fun loop =>
    of_eq (P := fun _ => False) (.of_eq rfl rfl rfl rfl) rfl rfl
  exact (hloop _).trans (modify _ id fun _ => ⟨rfl, rfl, rfl, rfl⟩)

theorem armAfter {id : Nat} {delay : Except Fault Value} {job : α} (h : s.armAfter id delay job = .ok s') :
    Files s s' := by
  obtain ⟨time, harm⟩ := armAfter_eq_ok h
  exact arm harm

theorem callLater (s : Scheduler κ α) (owner : String) (delay : Value) (callback : κ) :
    Files s (s.callLater fire owner delay callback).2 := by
  have ht := track s (r := { id := 0, owner := owner, kind := .timer, callback := callback }) rfl
  unfold Scheduler.callLater
  dsimp only
  split
  · next h => exact ht.trans (armAfter h)
  · exact ht

theorem every (s : Scheduler κ α) (owner : String) (interval : Value) (callback : κ) :
    Files s (s.every fire owner interval callback).2 := by
  unfold Scheduler.every
  split
  · exact .refl s
  · next period _ =>
    have ht := track s
      (r := { id := 0, owner := owner, kind := .interval, callback := callback, interval := some period }) rfl
    dsimp only
    split
    · next h => exact ht.trans (armAfter h)
    · exact ht

theorem listen (s : Scheduler κ α) (owner : String) (event : Value) (callback : κ) :
    Files s (s.listen owner event callback).2 := by
  have ht := track s
    (r := { id := 0, owner := owner, kind := .listener, callback := callback, event := event }) rfl
  have he := Evolves.listen s owner event callback
  unfold Scheduler.listen at he ⊢
  dsimp only at he ⊢
  split
  · next hhash =>
    rw [if_pos hhash] at he
    refine ⟨fun h => ⟨he.tidy h.tidy, ?_, fun id hid => ?_⟩, ht.known⟩
    · -- the new id is not among those found by events, all of which are known
      refine (perm_flatMap_indexed _ _ _ _).nodup_iff.mpr (List.nodup_cons.mpr ⟨fun hin => ?_, h.nodup⟩)
      obtain ⟨r, hr, -⟩ := h.heard _ hin
      exact Nat.ne_of_lt (h.tidy.known r (mem_of_find? hr)) (id_of_find? hr)
    · rcases List.mem_cons.mp ((perm_flatMap_indexed _ _ _ _).mem_iff.mp hid) with rfl | hin
      · exact ⟨_, h.tidy.find?_track _, hhash, .inr rfl⟩
      · exact (ht.filed h).heard id hin
  · exact ht

/-! ### Firing and sleeping -/

theorem call (s : Scheduler κ α) (id : Nat) (payload : Value) :
    Files s (Scheduler.call alone calling id payload s) := by
  unfold Scheduler.call
  dsimp only
  split
  · exact modify s id fun _ => ⟨rfl, rfl, rfl, rfl⟩
  · exact refl s

theorem deliver (s : Scheduler κ α) (payload : Value) (ids : List Nat) :
    Files s (Scheduler.deliver alone calling payload s ids) := by
  induction ids generalizing s with
  | nil => exact .refl s
  | cons id rest ih =>
    have hone : Files s (Scheduler.deliver alone calling payload s [id]) := by
      simp only [Scheduler.deliver, List.foldl_cons, List.foldl_nil]
      split
      · split
        · exact .refl s
        · exact call s id payload
      · exact .refl s
    exact hone.trans (ih _)

theorem rearm (s : Scheduler κ α) (r : Registration κ) : Files s (s.rearm r fire) := by
  unfold Scheduler.rearm
  split
  · dsimp only
    split
    · next h => exact (arm h).trans (modify _ r.id fun _ => ⟨rfl, rfl, rfl, rfl⟩)
    · exact .refl s
  · exact .refl s

theorem expire (s : Scheduler κ α) (id : Nat) : Files s (Scheduler.expire alone fire calling id s) := by
  unfold Scheduler.expire
  dsimp only
  split
  · exact .refl s
  · split
    · exact .refl s
    · refine trans ?_ (call _ id .null)
      split
      · exact rearm s _
      · exact forget s _

theorem sleep {seconds : Value} {elapsed resume : Nat → α} {id : Nat}
    (h : s.sleep seconds elapsed resume = .ok (id, s')) : Files s s' := by
  have he : Evolves (fun _ => False) s s' := .sleep h
  obtain ⟨-, due, rfl⟩ := sleep_eq_ok h
  exact of_eq he rfl rfl

theorem settle (s : Scheduler κ α) (id : Nat) (outcome : Bool) : Files s (s.settle id outcome) := by
  have hsame : (s.settle id outcome).registrations = s.registrations ∧
      (s.settle id outcome).listeners = s.listeners := by
    unfold Scheduler.settle
    split
    · exact ⟨rfl, rfl⟩
    · split <;> exact ⟨rfl, rfl⟩
  exact of_eq (P := fun _ => False) (.settle s id outcome) hsame.1 hsame.2

theorem endSleep (s : Scheduler κ α) (id : Nat) : Files s (s.endSleep id).2 := by
  have hsame : (s.endSleep id).2.registrations = s.registrations ∧ (s.endSleep id).2.listeners = s.listeners := by
    unfold Scheduler.endSleep
    split <;> exact ⟨rfl, rfl⟩
  exact of_eq (P := fun _ => False) (.endSleep s id) hsame.1 hsame.2

theorem foldl {γ : Type} {f : Scheduler κ α → γ → Scheduler κ α} (hf : ∀ s a, Files s (f s a)) (l : List γ)
    (s : Scheduler κ α) : Files s (l.foldl f s) := by
  induction l generalizing s with
  | nil => exact .refl s
  | cons a rest ih => exact (hf s a).trans (ih (f s a))

/-- Every operation keeps the invariant, and every registration what it is about. -/
theorem of_operation (h : Operation fire s s') : Files s s' := by
  cases h with
  | callLater owner delay callback => exact callLater s owner delay callback
  | every owner interval callback => exact every s owner interval callback
  | listen owner event callback => exact listen s owner event callback
  | cancel id => exact cancel s id
  | cancelOwner owner => exact cancelOwner s owner
  | cancelAll => exact cancelOwners _ 0 s
  | deliver payload id => exact deliver s payload [id]
  | expire id => exact expire s id
  | sleep h => exact sleep h
  | elapse id => exact settle s id true
  | wakeAll => exact foldl (fun s (x : Sleeper α) => settle s x.id false) _ s
  | endSleep id => exact endSleep s id
  | loop l => exact of_eq (P := fun _ => False) (.of_eq rfl rfl rfl rfl) rfl rfl

theorem of_operated (h : Operated fire s s') : Files s s' := by
  induction h with
  | refl => exact .refl s
  | tail _ last ih => exact ih.trans (of_operation last)

end Files

/-- Cancelling succeeds for what may be a key, and takes it out of both indexes. -/
theorem Filed.cancel (h : s.Filed) {id : Nat} {r : Registration κ} (hr : s.find? id = some r)
    (hhash : r.event.hashable = true) :
    (s.cancel id).1 = .ok () ∧ id ∉ (s.cancel id).2.activeIds ∧
      (r.event ≠ .null → id ∉ (s.cancel id).2.heardIds) := by
  have hafter := (Files.cancel s id).filed h
  -- whatever is found is not cancelled, and this is
  obtain ⟨r', hr', hevent, hcancelled⟩ : ∃ r', (s.cancel id).2.find? id = some r' ∧ r'.event = r.event ∧
      r'.cancelled = true := by
    rcases hc : r.cancelled with _ | _
    · rw [find?_cancel hr hc, hr, Option.map_some, if_pos (beq_iff_eq.mpr (id_of_find? hr))]
      exact ⟨_, rfl, rfl, rfl⟩
    · have hsame : s.cancel id = (.ok (), s) := by simp only [Scheduler.cancel, hr, hc, if_true]
      rw [hsame]
      exact ⟨r, hr, rfl, hc⟩
  refine ⟨?_, fun hid => ?_, fun hne hid => ?_⟩
  · rcases hc : r.cancelled with _ | _
    · rw [(cancel_of_find? hr hc).1, if_pos hhash]
    · simp only [Scheduler.cancel, hr, hc, if_true]
  · obtain ⟨owner, hid⟩ := hafter.tidy.mem_activeIds.mp hid
    obtain ⟨x, hx, -, hactive⟩ := hafter.tidy.active owner id hid
    obtain rfl := Option.some.inj (hr'.symm.trans hx)
    exact Bool.false_ne_true (hactive.symm.trans hcancelled)
  · obtain ⟨x, hx, -, hnull | hactive⟩ := hafter.heard id hid
    · obtain rfl := Option.some.inj (hr'.symm.trans hx)
      exact hne (hevent.symm.trans hnull)
    · obtain rfl := Option.some.inj (hr'.symm.trans hx)
      exact Bool.false_ne_true (hactive.symm.trans hcancelled)

/-! ## What a registration makes of a scheduler -/

/-- A registration is tracked: it is listed as the last of its owner, and not cancelled. -/
structure Tracks (owner : String) (event : Value) (s s' : Scheduler κ α) : Prop where
  found : ∃ r, s'.find? s.registrations.length = some r ∧ r.owner = owner ∧ r.event = event ∧ r.cancelled = false
  active : s'.activeIds.Perm (s.registrations.length :: s.activeIds)
  owned : s'.ownedBy owner = s.ownedBy owner ++ [s.registrations.length]
  others : ∀ other, other ≠ owner → s'.ownedBy other = s.ownedBy other

/-- A registration fails and is tracked all the same. No timer is set for it, and no event leads to it. -/
structure Strands (owner : String) (event : Value) (s s' : Scheduler κ α) : Prop where
  tracks : Tracks owner event s s'
  listeners : s'.listeners = s.listeners
  loop : s'.loop = s.loop

/-- A registration succeeds. It is tracked under a new id, and can be cancelled whenever that is tried, after which
nothing leads to it; only for no event it is still found by that. -/
structure Enters (fire : Nat → α) (owner : String) (event : Value) (id : Nat) (s s' : Scheduler κ α) : Prop where
  new : id = s.registrations.length
  tracks : Tracks owner event s s'
  leaves : ∀ later, Operated fire s' later → (later.cancel id).1 = .ok () ∧ id ∉ (later.cancel id).2.activeIds ∧
    (event ≠ .null → id ∉ (later.cancel id).2.heardIds)

theorem Filed.tracks (h : s.Filed) {r : Registration κ} (hc : r.cancelled = false) :
    Tracks r.owner r.event s (s.track r).2 := by
  refine ⟨⟨_, h.tidy.find?_track r, rfl, rfl, hc⟩, perm_flatMap_indexed _ _ _ _, ?_, fun other hne => ?_⟩
  · exact (lookup_indexed r.owner r.owner s.registrations.length s.byOwner).trans (if_pos rfl)
  · exact (lookup_indexed r.owner other s.registrations.length s.byOwner).trans (if_neg hne)

theorem Tracks.of_eq {owner : String} {event : Value} (h : Tracks owner event s s') (ho : s''.byOwner = s'.byOwner)
    (hr : ∀ {r}, s'.find? s.registrations.length = some r → ∃ r', s''.find? s.registrations.length = some r' ∧
      r'.owner = r.owner ∧ r'.event = r.event ∧ r'.cancelled = r.cancelled) : Tracks owner event s s'' := by
  obtain ⟨⟨r, hfind, howner, hevent, hactive⟩, hperm, howned, hothers⟩ := h
  obtain ⟨r', hfind', howner', hevent', hactive'⟩ := hr hfind
  refine ⟨⟨r', hfind', howner'.trans howner, hevent'.trans hevent, hactive'.trans hactive⟩, ?_, ?_, fun other hne => ?_⟩
  · rw [activeIds, ho]
    exact hperm
  · rw [ownedBy, ho]
    exact howned
  · rw [ownedBy, ho]
    exact hothers other hne

/-- Setting a timer leaves what is tracked as it is. -/
theorem Tracks.armAfter {owner : String} {event : Value} {delay : Except Fault Value} {job : α} {id : Nat}
    (h : Tracks owner event s s') (harm : s'.armAfter id delay job = .ok s'') : Tracks owner event s s'' := by
  obtain ⟨time, harm⟩ := armAfter_eq_ok harm
  obtain ⟨due, rfl⟩ := arm_eq_ok harm
  have hfind := find?_modify { s' with loop := (s'.loop.addTimer due job).2 } id s.registrations.length
    (f := fun r => { r with handle := some (s'.loop.addTimer due job).1, nextAt := time }) fun _ => rfl
  refine h.of_eq rfl fun {r} hr => ⟨_, hfind.trans (congrArg _ hr), ?_, ?_, ?_⟩
  all_goals
    dsimp only
    split <;> rfl

/-- What was tracked in a scheduler with the invariant enters it. -/
theorem Tracks.enters {owner : String} {event : Value} (h : Tracks owner event s s') (hs : s'.Filed)
    (hhash : event.hashable = true) : Enters fire owner event s.registrations.length s s' := by
  refine ⟨rfl, h, fun later hlater => ?_⟩
  obtain ⟨r, hr, -, rfl, -⟩ := h.found
  have hfiles := Files.of_operated hlater
  obtain ⟨r', hr', -, hevent⟩ := hfiles.known hr
  rw [← hevent] at hhash ⊢
  exact (hfiles.filed hs).cancel hr' hhash

theorem callLater_cases (h : s.Filed) (owner : String) (delay : Value) (callback : κ) :
    match s.callLater fire owner delay callback with
    | (.error _, s') => Strands owner .null s s'
    | (.ok id, s') => Enters fire owner .null id s s' := by
  have htracks := h.tracks (r := { id := 0, owner := owner, kind := .timer, callback := callback }) rfl
  have hcall : Files s (s.callLater fire owner delay callback).2 := .callLater s owner delay callback
  have hfiles := hcall.filed h
  unfold Scheduler.callLater at hfiles ⊢
  dsimp only at hfiles ⊢
  split at hfiles
  · next harm => exact (htracks.armAfter harm).enters hfiles rfl
  · exact ⟨htracks, rfl, rfl⟩

/-- A period that has no order is refused first. -/
theorem every_cases (h : s.Filed) (owner : String) (interval : Value) (callback : κ) :
    match s.every fire owner interval callback with
    | (.error _, s') => if (atLeast interval s.minInterval).isOk then Strands owner .null s s' else s' = s
    | (.ok id, s') => Enters fire owner .null id s s' := by
  have hcall : Files s (s.every fire owner interval callback).2 := .every s owner interval callback
  have hfiles := hcall.filed h
  unfold Scheduler.every at hfiles ⊢
  cases hperiod : atLeast interval s.minInterval with
  | error f => rfl
  | ok period =>
    have htracks := h.tracks
      (r := { id := 0, owner := owner, kind := .interval, callback := callback, interval := some period }) rfl
    rw [hperiod] at hfiles
    dsimp only at hfiles ⊢
    split at hfiles
    · next harm => exact (htracks.armAfter harm).enters hfiles rfl
    · exact ⟨htracks, rfl, rfl⟩

/-- An event that may not be a key is refused last, and then its owner's registrations cannot be cancelled. -/
theorem listen_cases (h : s.Filed) (owner : String) (event : Value) (callback : κ) :
    match s.listen owner event callback with
    | (.error _, s') => event.hashable = false ∧ Strands owner event s s' ∧ (s'.cancelOwner owner).1 = .error .type
    | (.ok id, s') => event.hashable = true ∧ Enters fire owner event id s s' ∧ s'.heardIds.Perm (id :: s.heardIds) := by
  have htracks := h.tracks
    (r := { id := 0, owner := owner, kind := .listener, callback := callback, event := event }) rfl
  have hfiles := (Files.listen s owner event callback).filed h
  unfold Scheduler.listen at hfiles ⊢
  dsimp only at hfiles ⊢
  cases hhash : event.hashable with
  | false =>
    refine ⟨rfl, ⟨htracks, rfl, rfl⟩, ?_⟩
    rw [hhash] at hfiles
    refine hfiles.tidy.cancelOwner_error ⟨s.registrations.length, ?_, fun hkeyed => ?_⟩
    · exact htracks.owned ▸ List.mem_append_right _ (List.mem_singleton.mpr rfl)
    · obtain ⟨r, hr, -, rfl, -⟩ := htracks.found
      exact Bool.false_ne_true (hhash.symm.trans (hkeyed r hr))
  | true =>
    rw [if_pos hhash] at hfiles
    have hheard : Tracks owner event s { (s.track _).2 with
        listeners := indexed Value.same event s.registrations.length s.listeners } :=
      htracks.of_eq rfl fun hr => ⟨_, hr, rfl, rfl, rfl⟩
    exact ⟨rfl, hheard.enters hfiles hhash, perm_flatMap_indexed _ _ _ _⟩

/-- What becomes of a registration, in whatever state the scheduler is. One that fails is tracked all the same, and
only its timer or its event is missing; a listener that failed makes cancelling its owner fail, too. Nothing
happens only where the period of an interval has no order. One that succeeds is active, and can be cancelled at any
later time, after which neither index lists it, save a listener for no event. -/
theorem registering_outcomes {shortest : Float} (h : Operated fire { minInterval := shortest } s) (owner : String)
    (v : Value) (callback : κ) :
    (match s.callLater fire owner v callback with
      | (.error _, s') => Strands owner .null s s'
      | (.ok id, s') => Enters fire owner .null id s s') ∧
    (match s.every fire owner v callback with
      | (.error _, s') => if (atLeast v s.minInterval).isOk then Strands owner .null s s' else s' = s
      | (.ok id, s') => Enters fire owner .null id s s') ∧
    match s.listen owner v callback with
      | (.error _, s') => v.hashable = false ∧ Strands owner v s s' ∧ (s'.cancelOwner owner).1 = .error .type
      | (.ok id, s') => v.hashable = true ∧ Enters fire owner v id s s' ∧ s'.heardIds.Perm (id :: s.heardIds) := by
  have hfiled : s.Filed := (Files.of_operated h).filed (.initial shortest)
  exact ⟨callLater_cases hfiled owner v callback, every_cases hfiled owner v callback,
    listen_cases hfiled owner v callback⟩

/-- A delay that is a text strands a timer beside a listener, and a text is an event like any other. -/
theorem registering_outcomes_of_text :
    let s : Scheduler Nat Nat := (Scheduler.listen {} "n" (.str "bell") 0).2
    Strands "n" .null s (s.callLater id "n" (.str "soon") 0).2 ∧
      (s.every id "n" (.str "soon") 0).2 = s ∧
      Enters id "n" (.str "soon") 1 s (s.listen "n" (.str "soon") 0).2 := by
  intro s
  have h : Operated id { minInterval := 0.01 } s := .single (.listen _ "n" (.str "bell") 0)
  obtain ⟨hlater, hevery, hlisten⟩ := registering_outcomes h "n" (.str "soon") 0
  exact ⟨hlater, hevery, hlisten.2.1⟩

/-- A timer for a text of a delay, a listener for a list of an event and one for none: the first two fail and are
active, the second one cannot be cancelled, and the third is still found by its event after it was. -/
theorem failed_registrations_stay :
    let s : Scheduler Nat Nat := {}
    let late := s.callLater id "n" (.str "soon") 0
    let deaf := s.listen "n" (.list [.int 1]) 0
    let idle := s.listen "n" .null 0
    (late.1 = .error .type ∧ s.activeCount = 0 ∧ late.2.activeCount = 1) ∧
      (deaf.1 = .error .type ∧ deaf.2.activeCount = 1 ∧ (deaf.2.cancelOwner "n").1 = .error .type) ∧
      idle.1 = .ok 0 ∧ (idle.2.cancel 0).1 = .ok () ∧ (idle.2.cancel 0).2.heardIds = [0] :=
  ⟨⟨rfl, rfl, rfl⟩, ⟨rfl, rfl, rfl⟩, rfl, rfl, rfl⟩

end Patchbay.Scheduler
