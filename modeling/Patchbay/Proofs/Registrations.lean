import Mathlib.Data.List.Nodup
import Patchbay.Scheduler

/-!
# Registrations and sleeps

A scheduler keeps every registration it was ever given, and finds the active ones through an index by
owner. The two stay in step: what is in the index was registered by that owner and is not cancelled. A
scheduler that is tidy in this sense can cancel everything, as long as the events that its listeners
wait for may be keys.

Contents:
* `Scheduler.Tidy`: the invariant of a scheduler.
* `Scheduler.Evolves`: a change in which only some owners register, and the invariant is kept.

Results:
* `Evolves.cancel`, `Evolves.callLater`, `Evolves.every`, `Evolves.listen`, `Evolves.sleep` and others:
  every operation.
* `Tidy.cancelAll`: when everything can be cancelled, and what is then left.
* `Tidy.wakeAll`: no sleep is left in progress.
-/

namespace Patchbay.Scheduler

variable {κ α : Type}

/-! ## The index by owner -/

section Index

variable {key owner : String} {id : Nat} {l : List (String × List Nat)}

theorem lookup_cons_eq_ite {γ : Type} (owner name : String) (x : γ) (l : List (String × γ)) :
    ((name, x) :: l).lookup owner = if owner = name then some x else l.lookup owner := by
  by_cases h : owner = name
  · rw [h, List.lookup_cons_self, if_pos rfl]
  · rw [List.lookup_cons, beq_eq_false_iff_ne.mpr h, if_neg h]

theorem lookup_eq_none_iff : l.lookup owner = none ↔ owner ∉ l.map Prod.fst := by
  induction l with
  | nil => simp
  | cons e rest ih =>
    rw [lookup_cons_eq_ite, List.map_cons, List.mem_cons, not_or, ← ih]
    by_cases h : owner = e.1 <;> simp [h]

theorem lookup_eq_some_iff (hd : (l.map Prod.fst).Nodup) {ids : List Nat} :
    l.lookup owner = some ids ↔ (owner, ids) ∈ l := by
  induction l with
  | nil => simp
  | cons e rest ih =>
    obtain ⟨name, ids'⟩ := e
    obtain ⟨hnew, hrest⟩ := List.nodup_cons.mp hd
    rw [lookup_cons_eq_ite, List.mem_cons, Prod.mk.injEq]
    by_cases h : owner = name
    · subst h
      have hnot : (owner, ids) ∉ rest := fun hmem => hnew (List.mem_map.mpr ⟨_, hmem, rfl⟩)
      simp [hnot, eq_comm]
    · rw [if_neg h, ih hrest]
      simp [h]

theorem lookup_indexed (key owner : String) (id : Nat) (l : List (String × List Nat)) :
    ((indexed (· == ·) key id l).lookup owner).getD [] =
      if owner = key then (l.lookup key).getD [] ++ [id] else (l.lookup owner).getD [] := by
  induction l with
  | nil =>
    rw [indexed, lookup_cons_eq_ite]
    split <;> rfl
  | cons e rest ih =>
    obtain ⟨name, ids⟩ := e
    by_cases hk : key = name
    · subst hk
      simp only [indexed, beq_self_eq_true, if_true, lookup_cons_eq_ite]
      split <;> rfl
    · have hskip : indexed (· == ·) key id ((name, ids) :: rest) =
          (name, ids) :: indexed (· == ·) key id rest := by simp [indexed, hk]
      rw [hskip, lookup_cons_eq_ite, lookup_cons_eq_ite, lookup_cons_eq_ite, if_neg hk]
      by_cases ho : owner = name
      · have hne : owner ≠ key := by rw [ho]; exact Ne.symm hk
        rw [if_pos ho, if_pos ho, if_neg hne]
      · rw [if_neg ho, if_neg ho, ih]

theorem keys_indexed (key : String) (id : Nat) (l : List (String × List Nat)) :
    (indexed (· == ·) key id l).map Prod.fst =
      if key ∈ l.map Prod.fst then l.map Prod.fst else l.map Prod.fst ++ [key] := by
  induction l with
  | nil => simp [indexed]
  | cons e rest ih =>
    by_cases hk : key = e.1
    · simp [indexed, hk]
    · simp only [indexed, beq_iff_eq, hk, if_false, List.map_cons, ih, List.mem_cons, false_or]
      split <;> rfl

theorem keys_unindexed (key : String) (id : Nat) (l : List (String × List Nat)) :
    ((unindexed (· == ·) key id l).map Prod.fst).Sublist (l.map Prod.fst) := by
  induction l with
  | nil => exact List.Sublist.refl _
  | cons e rest ih =>
    simp only [unindexed]
    split
    · split
      · exact List.sublist_cons_self _ _
      · exact List.Sublist.refl _
    · exact ih.cons_cons _

theorem lookup_unindexed (hd : (l.map Prod.fst).Nodup) (key owner : String) (id : Nat) :
    ((unindexed (· == ·) key id l).lookup owner).getD [] =
      if owner = key then ((l.lookup key).getD []).erase id else (l.lookup owner).getD [] := by
  induction l with
  | nil => simp [unindexed]
  | cons e rest ih =>
    obtain ⟨name, ids⟩ := e
    obtain ⟨hnew, hrest⟩ := List.nodup_cons.mp hd
    have hnone : rest.lookup name = none := lookup_eq_none_iff.mpr hnew
    by_cases hk : key = name
    · subst hk
      simp only [unindexed, beq_self_eq_true, if_true, lookup_cons_eq_ite]
      by_cases ho : owner = key
      · subst ho
        by_cases he : ids.erase id = []
        · simp [he, hnone]
        · simp [he]
      · by_cases he : ids.erase id = []
        · simp [he, ho]
        · simp [he, ho, lookup_cons_eq_ite]
    · have hskip : unindexed (· == ·) key id ((name, ids) :: rest) =
          (name, ids) :: unindexed (· == ·) key id rest := by simp [unindexed, hk]
      rw [hskip, lookup_cons_eq_ite, lookup_cons_eq_ite, lookup_cons_eq_ite, if_neg hk]
      by_cases ho : owner = name
      · have hne : owner ≠ key := by rw [ho]; exact Ne.symm hk
        rw [if_pos ho, if_pos ho, if_neg hne]
      · rw [if_neg ho, if_neg ho, ih hrest]

end Index

/-! ## The invariant -/

/-- The invariant of a scheduler. What the index lists under an owner was registered by it, and is not
cancelled. -/
structure Tidy (s : Scheduler κ α) : Prop where
  known : ∀ r ∈ s.registrations, r.id < s.registrations.length
  owners : (s.byOwner.map Prod.fst).Nodup
  owned : ∀ owner, (s.ownedBy owner).Nodup
  active : ∀ owner, ∀ id ∈ s.ownedBy owner,
    ∃ r, s.find? id = some r ∧ r.owner = owner ∧ r.cancelled = false
  sleeping : (s.sleepers.map Sleeper.id).Nodup
  asleep : ∀ x ∈ s.sleepers, x.id < s.nextSleeper

/-- A change of a scheduler that keeps the invariant and in which nobody registers but those who
may. -/
structure Evolves (P : String → Prop) (s s' : Scheduler κ α) : Prop where
  tidy : s.Tidy → s'.Tidy
  length : s.registrations.length ≤ s'.registrations.length
  owned : s.Tidy → ∀ owner, ∀ id ∈ s'.ownedBy owner,
    id ∈ s.ownedBy owner ∨ P owner ∧ s.registrations.length ≤ id

/-- A scheduler without registrations and sleeps. -/
theorem Tidy.initial (shortest : Float) : ({ minInterval := shortest } : Scheduler κ α).Tidy :=
  ⟨by simp, List.nodup_nil, by simp [ownedBy], by simp [ownedBy], List.nodup_nil, by simp⟩

theorem id_of_find? {s : Scheduler κ α} {id : Nat} {r : Registration κ} (h : s.find? id = some r) :
    r.id = id := by
  simpa using List.find?_some h

theorem mem_of_find? {s : Scheduler κ α} {id : Nat} {r : Registration κ} (h : s.find? id = some r) :
    r ∈ s.registrations :=
  List.mem_of_find?_eq_some h

theorem Tidy.lt_of_owned {s : Scheduler κ α} (h : s.Tidy) {owner : String} {id : Nat}
    (hid : id ∈ s.ownedBy owner) : id < s.registrations.length := by
  obtain ⟨r, hr, -⟩ := h.active owner id hid
  rw [← id_of_find? hr]
  exact h.known r (mem_of_find? hr)

/-- The index lists everything under an owner. -/
theorem Tidy.mem_activeIds {s : Scheduler κ α} (h : s.Tidy) {id : Nat} :
    id ∈ s.activeIds ↔ ∃ owner, id ∈ s.ownedBy owner := by
  simp only [activeIds, List.mem_flatMap]
  constructor
  · rintro ⟨⟨owner, ids⟩, hmem, hid⟩
    refine ⟨owner, ?_⟩
    rw [ownedBy, (lookup_eq_some_iff h.owners).mpr hmem]
    exact hid
  · rintro ⟨owner, hid⟩
    rw [ownedBy] at hid
    cases hl : s.byOwner.lookup owner with
    | none => rw [hl] at hid; cases hid
    | some ids =>
      rw [hl] at hid
      exact ⟨(owner, ids), (lookup_eq_some_iff h.owners).mp hl, hid⟩

theorem Tidy.congr {s s' : Scheduler κ α} (h : s.Tidy) (hr : s'.registrations = s.registrations)
    (hb : s'.byOwner = s.byOwner) (hs : s'.sleepers = s.sleepers) (hn : s'.nextSleeper = s.nextSleeper) :
    s'.Tidy := by
  obtain ⟨hknown, howners, howned, hactive, hsleeping, hasleep⟩ := h
  refine ⟨?_, ?_, ?_, ?_, ?_, ?_⟩
  · rwa [hr]
  · rwa [hb]
  · simpa only [ownedBy, hb] using howned
  · simpa only [ownedBy, find?, hb, hr] using hactive
  · rwa [hs]
  · rwa [hs, hn]

namespace Evolves

variable {P : String → Prop} {s s' s'' : Scheduler κ α}

theorem refl (s : Scheduler κ α) : Evolves P s s := ⟨id, Nat.le_refl _, fun _ _ _ h => .inl h⟩

theorem trans (h : Evolves P s s') (h' : Evolves P s' s'') : Evolves P s s'' := by
  refine ⟨fun ht => h'.tidy (h.tidy ht), Nat.le_trans h.length h'.length, fun ht owner id hid => ?_⟩
  rcases h'.owned (h.tidy ht) owner id hid with hid | ⟨hm, hle⟩
  · exact h.owned ht owner id hid
  · exact .inr ⟨hm, Nat.le_trans h.length hle⟩

theorem mono {P' : String → Prop} (h : Evolves P s s') (hm : ∀ owner, P owner → P' owner) :
    Evolves P' s s' :=
  ⟨h.tidy, h.length, fun ht owner id hid => (h.owned ht owner id hid).imp_right (.imp_left (hm owner))⟩

/-- A change of the loop or of the index by event. -/
theorem of_eq (hr : s'.registrations = s.registrations) (hb : s'.byOwner = s.byOwner)
    (hs : s'.sleepers = s.sleepers) (hn : s'.nextSleeper = s.nextSleeper) : Evolves P s s' := by
  refine ⟨fun ht => ht.congr hr hb hs hn, Nat.le_of_eq (by rw [hr]), fun _ owner id hid => .inl ?_⟩
  rwa [ownedBy, hb] at hid

theorem foldl {γ : Type} {f : Scheduler κ α → γ → Scheduler κ α} (hf : ∀ s a, Evolves P s (f s a)) (l : List γ)
    (s : Scheduler κ α) : Evolves P s (l.foldl f s) := by
  induction l generalizing s with
  | nil => exact .refl s
  | cons a rest ih => exact (hf s a).trans (ih (f s a))

end Evolves

/-! ## Bookkeeping -/

section Bookkeeping

variable {P : String → Prop} {s : Scheduler κ α}

theorem find?_modify (s : Scheduler κ α) (id j : Nat) {f : Registration κ → Registration κ}
    (hf : ∀ r, (f r).id = r.id) :
    (s.modify id f).find? j = (s.find? j).map fun r => if r.id == id then f r else r := by
  simp only [find?, modify, List.find?_map]
  congr 2
  funext r
  simp only [Function.comp]
  split
  · rw [hf]
  · rfl

theorem Evolves.modify (s : Scheduler κ α) (id : Nat) {f : Registration κ → Registration κ}
    (hf : ∀ r, (f r).id = r.id ∧ (f r).owner = r.owner ∧ (f r).cancelled = r.cancelled) :
    Evolves P s (s.modify id f) := by
  refine ⟨fun ht => ⟨fun r hr => ?_, ht.owners, ht.owned, fun owner j hj => ?_, ht.sleeping, ht.asleep⟩,
    by simp [Scheduler.modify], fun _ _ _ => .inl⟩
  · simp only [Scheduler.modify, List.length_map] at hr ⊢
    obtain ⟨r, hmem, rfl⟩ := List.mem_map.mp hr
    have hlt := ht.known r hmem
    split
    · rwa [(hf r).1]
    · exact hlt
  · obtain ⟨r, hr, howner, hc⟩ := ht.active owner j hj
    rw [find?_modify s id j fun r => (hf r).1, hr]
    refine ⟨_, rfl, ?_⟩
    dsimp only
    split
    · rw [(hf r).2.1, (hf r).2.2]
      exact ⟨howner, hc⟩
    · exact ⟨howner, hc⟩

/-- The index after an id was taken out of it. -/
theorem Tidy.ownedBy_unindexed (h : s.Tidy) {s' : Scheduler κ α} {key : String} {id : Nat}
    (hs : s'.byOwner = unindexed (· == ·) key id s.byOwner) (owner : String) :
    s'.ownedBy owner = if owner = key then (s.ownedBy key).erase id else s.ownedBy owner := by
  simp only [ownedBy, hs]
  exact lookup_unindexed h.owners key owner id

theorem Tidy.mem_ownedBy_unindexed (h : s.Tidy) {s' : Scheduler κ α} {key : String} {id : Nat}
    (hs : s'.byOwner = unindexed (· == ·) key id s.byOwner) (owner : String) (j : Nat) :
    j ∈ s'.ownedBy owner ↔ j ∈ s.ownedBy owner ∧ ¬(owner = key ∧ j = id) := by
  rw [h.ownedBy_unindexed hs]
  by_cases ho : owner = key
  · subst ho
    rw [if_pos rfl, (h.owned owner).mem_erase_iff]
    tauto
  · rw [if_neg ho]
    tauto

theorem Tidy.unindexed {s' : Scheduler κ α} (h : s.Tidy) {key : String} {id : Nat}
    (hr : s'.registrations = s.registrations)
    (hb : s'.byOwner = Scheduler.unindexed (· == ·) key id s.byOwner) (hs : s'.sleepers = s.sleepers)
    (hn : s'.nextSleeper = s.nextSleeper) : s'.Tidy := by
  refine ⟨?_, ?_, fun owner => ?_, fun owner j hj => ?_, ?_, ?_⟩
  · rw [hr]
    exact h.known
  · rw [hb]
    exact h.owners.sublist (keys_unindexed key id s.byOwner)
  · rw [h.ownedBy_unindexed hb]
    split
    · exact (h.owned key).erase id
    · exact h.owned owner
  · obtain ⟨r, hfind, hrest⟩ := h.active owner j ((h.mem_ownedBy_unindexed hb owner j).mp hj).1
    refine ⟨r, ?_, hrest⟩
    rw [find?, hr]
    exact hfind
  · rw [hs]
    exact h.sleeping
  · rw [hs, hn]
    exact h.asleep

theorem forget_fields (s : Scheduler κ α) (r : Registration κ) :
    (s.forget r).2.registrations = s.registrations ∧
      (s.forget r).2.byOwner = Scheduler.unindexed (· == ·) r.owner r.id s.byOwner ∧
      (s.forget r).2.sleepers = s.sleepers ∧ (s.forget r).2.nextSleeper = s.nextSleeper := by
  unfold forget
  dsimp only
  split
  · exact ⟨rfl, rfl, rfl, rfl⟩
  · split <;> exact ⟨rfl, rfl, rfl, rfl⟩

theorem forget_result (s : Scheduler κ α) (r : Registration κ) :
    (s.forget r).1 = if r.event.hashable then .ok () else .error .type := by
  unfold forget
  dsimp only
  split
  · next hnull => rw [hnull]; rfl
  · split <;> rfl

/-- A listener leaves the index by event, unless it listens to no event or to one that may not be a key. -/
theorem forget_listeners (s : Scheduler κ α) (r : Registration κ) :
    (s.forget r).2.listeners = s.listeners ∧ (r.event = .null ∨ r.event.hashable = false) ∨
      (s.forget r).2.listeners = withdrawn r.id s.listeners := by
  unfold forget
  dsimp only
  split
  · next hnull => exact .inl ⟨rfl, .inl hnull⟩
  · split
    · exact .inr rfl
    · next hhash => exact .inl ⟨rfl, .inr (Bool.eq_false_iff.mpr hhash)⟩

theorem Evolves.forget (s : Scheduler κ α) (r : Registration κ) : Evolves P s (s.forget r).2 := by
  obtain ⟨hr, hb, hs, hn⟩ := s.forget_fields r
  refine ⟨fun ht => ht.unindexed hr hb hs hn, Nat.le_of_eq (by rw [hr]), fun ht owner j hj => .inl ?_⟩
  exact ((ht.mem_ownedBy_unindexed hb owner j).mp hj).1

/-! ## Cancelling -/

/-- Whether the event of a registration may be a key. -/
def Keyed (s : Scheduler κ α) (id : Nat) : Prop := ∀ r, s.find? id = some r → r.event.hashable = true

theorem cancel_of_find? {id : Nat} {r : Registration κ} (hr : s.find? id = some r)
    (hc : r.cancelled = false) :
    (s.cancel id).1 = (if r.event.hashable then .ok () else .error .type) ∧
      (s.cancel id).2.registrations = (s.modify id fun r => { r with cancelled := true }).registrations ∧
      (s.cancel id).2.byOwner = Scheduler.unindexed (· == ·) r.owner id s.byOwner ∧
      (s.cancel id).2.sleepers = s.sleepers ∧ (s.cancel id).2.nextSleeper = s.nextSleeper ∧
      ((s.cancel id).2.listeners = s.listeners ∧ (r.event = .null ∨ r.event.hashable = false) ∨
        (s.cancel id).2.listeners = withdrawn id s.listeners) := by
  unfold cancel
  simp only [hr, hc, Bool.false_eq_true, if_false]
  refine ⟨forget_result _ r, (forget_fields _ r).1.trans ?_, (forget_fields _ r).2.1.trans ?_,
    (forget_fields _ r).2.2.1.trans ?_, (forget_fields _ r).2.2.2.trans ?_, ?_⟩
  · cases r.handle <;> rfl
  · rw [id_of_find? hr]
    cases r.handle <;> rfl
  · cases r.handle <;> rfl
  · cases r.handle <;> rfl
  · rw [← id_of_find? hr]
    refine (forget_listeners _ r).imp (.imp_left fun heq => heq.trans ?_) fun heq => heq.trans ?_
    · cases r.handle <;> rfl
    · cases r.handle <;> rfl

/-- Cancelling changes nothing, or it cancels something that was not cancelled. -/
theorem cancel_cases (s : Scheduler κ α) (id : Nat) :
    (s.cancel id).2 = s ∨ ∃ r, s.find? id = some r ∧ r.cancelled = false := by
  cases hr : s.find? id with
  | none => exact .inl (by simp only [Scheduler.cancel, hr])
  | some r => cases hc : r.cancelled with
    | true => exact .inl (by simp only [Scheduler.cancel, hr, hc, if_true])
    | false => exact .inr ⟨r, rfl, hc⟩

theorem find?_cancel {id : Nat} {r : Registration κ} (hr : s.find? id = some r) (hc : r.cancelled = false) (j : Nat) :
    (s.cancel id).2.find? j = (s.find? j).map fun x => if x.id == id then { x with cancelled := true } else x := by
  have hmodify := find?_modify s id j (f := fun r => { r with cancelled := true }) fun _ => rfl
  simp only [find?] at hmodify
  simp only [find?, (cancel_of_find? hr hc).2.1, hmodify]

theorem Evolves.cancel (s : Scheduler κ α) (id : Nat) : Evolves P s (s.cancel id).2 := by
  cases hr : s.find? id with
  | none =>
    have hsame : (s.cancel id).2 = s := by simp only [Scheduler.cancel, hr]
    rw [hsame]
    exact .refl s
  | some r =>
    cases hc : r.cancelled with
    | true =>
      have hsame : (s.cancel id).2 = s := by simp only [Scheduler.cancel, hr, hc, if_true]
      rw [hsame]
      exact .refl s
    | false =>
      obtain ⟨-, hregs, hb, hs, hn, -⟩ := cancel_of_find? hr hc
      have hlen : (s.cancel id).2.registrations.length = s.registrations.length := by
        rw [hregs, Scheduler.modify, List.length_map]
      refine ⟨fun ht => ?_, Nat.le_of_eq hlen.symm, fun ht owner j hj => .inl ?_⟩
      · -- the registration that was cancelled is in the index no more
        have hmid : ({ s with byOwner := Scheduler.unindexed (· == ·) r.owner id s.byOwner } :
            Scheduler κ α).Tidy := ht.unindexed rfl rfl rfl rfl
        refine ⟨fun x hx => ?_, by rw [hb]; exact hmid.owners, fun owner => ?_, fun owner j hj => ?_,
          by rw [hs]; exact ht.sleeping, by rw [hs, hn]; exact ht.asleep⟩
        · rw [hlen]
          rw [hregs, Scheduler.modify] at hx
          obtain ⟨y, hy, rfl⟩ := List.mem_map.mp hx
          have hlt := ht.known y hy
          split <;> exact hlt
        · have hsame : (s.cancel id).2.ownedBy owner = _ := congrArg (fun l => (l.lookup owner).getD []) hb
          rw [hsame]
          exact hmid.owned owner
        · obtain ⟨hold, hnot⟩ := (ht.mem_ownedBy_unindexed hb owner j).mp hj
          obtain ⟨x, hx, howner, hactive⟩ := ht.active owner j hold
          have hne : j ≠ id := by
            rintro rfl
            obtain rfl := Option.some.inj (hr.symm.trans hx)
            exact hnot ⟨howner.symm, rfl⟩
          refine ⟨x, ?_, howner, hactive⟩
          rw [find?_cancel hr hc, hx, Option.map_some, id_of_find? hx, if_neg (by simpa using hne)]
      · exact ((ht.mem_ownedBy_unindexed hb owner j).mp hj).1

theorem cancelEach_cons (s : Scheduler κ α) (id : Nat) (rest : List Nat) :
    s.cancelEach (id :: rest) = match (s.cancel id).1 with
      | .ok () => (s.cancel id).2.cancelEach rest
      | .error f => (.error f, (s.cancel id).2) := by
  conv_lhs => unfold Scheduler.cancelEach
  split <;> next h => rw [h]

theorem cancelOwner_eq (s : Scheduler κ α) (owner : String) :
    s.cancelOwner owner = ((s.cancelEach (s.ownedBy owner)).1.map fun _ => (s.ownedBy owner).length,
      (s.cancelEach (s.ownedBy owner)).2) := by
  unfold Scheduler.cancelOwner
  dsimp only
  split <;> next h => rw [h]; rfl

theorem cancelOwners_cons (s : Scheduler κ α) (count : Nat) (owner : String) (rest : List String) :
    s.cancelOwners count (owner :: rest) = match (s.cancelOwner owner).1 with
      | .ok n => (s.cancelOwner owner).2.cancelOwners (count + n) rest
      | .error f => (.error f, (s.cancelOwner owner).2) := by
  conv_lhs => unfold Scheduler.cancelOwners
  split <;> next h => rw [h]

theorem Evolves.cancelEach (ids : List Nat) (s : Scheduler κ α) : Evolves P s (s.cancelEach ids).2 := by
  induction ids generalizing s with
  | nil => exact .refl s
  | cons id rest ih =>
    have hc : Evolves P s (s.cancel id).2 := .cancel s id
    rw [cancelEach_cons]
    split
    · exact hc.trans (ih _)
    · exact hc

theorem Evolves.cancelOwner (s : Scheduler κ α) (owner : String) :
    Evolves P s (s.cancelOwner owner).2 := by
  rw [cancelOwner_eq]
  exact .cancelEach _ s

theorem Evolves.cancelOwners (owners : List String) (count : Nat) (s : Scheduler κ α) :
    Evolves P s (s.cancelOwners count owners).2 := by
  induction owners generalizing count s with
  | nil => exact .refl s
  | cons owner rest ih =>
    have hc : Evolves P s (s.cancelOwner owner).2 := .cancelOwner s owner
    rw [cancelOwners_cons]
    split
    · exact hc.trans (ih _ _)
    · exact hc

theorem Evolves.cancelAll (s : Scheduler κ α) : Evolves P s s.cancelAll.2 := .cancelOwners _ _ s

/-! Sleeps go on when registrations are cancelled. -/

theorem sleepers_cancel (s : Scheduler κ α) (id : Nat) : (s.cancel id).2.sleepers = s.sleepers := by
  cases hr : s.find? id with
  | none => simp only [Scheduler.cancel, hr]
  | some r =>
    cases hc : r.cancelled with
    | true => simp only [Scheduler.cancel, hr, hc, if_true]
    | false => exact (cancel_of_find? hr hc).2.2.2.1

theorem sleepers_cancelEach (ids : List Nat) (s : Scheduler κ α) :
    (s.cancelEach ids).2.sleepers = s.sleepers := by
  induction ids generalizing s with
  | nil => rfl
  | cons id rest ih =>
    rw [cancelEach_cons]
    split
    · exact (ih _).trans (sleepers_cancel s id)
    · exact sleepers_cancel s id

theorem sleepers_cancelOwners (owners : List String) (count : Nat) (s : Scheduler κ α) :
    (s.cancelOwners count owners).2.sleepers = s.sleepers := by
  induction owners generalizing count s with
  | nil => rfl
  | cons owner rest ih =>
    have hone : (s.cancelOwner owner).2.sleepers = s.sleepers := by
      rw [cancelOwner_eq]
      exact sleepers_cancelEach _ s
    rw [cancelOwners_cons]
    split
    · exact (ih _ _).trans hone
    · exact hone

theorem sleepers_cancelAll (s : Scheduler κ α) : s.cancelAll.2.sleepers = s.sleepers :=
  sleepers_cancelOwners _ _ s

end Bookkeeping

/-! ## Registering -/

section Registering

variable {s : Scheduler κ α}

/-- A registration that is tracked is found under a new id. -/
theorem Tidy.find?_track (h : s.Tidy) (r : Registration κ) :
    (s.track r).2.find? s.registrations.length = some { r with id := s.registrations.length } := by
  have hnone : (s.registrations.find? fun x => x.id == s.registrations.length) = none := by
    refine List.find?_eq_none.mpr fun x hx => ?_
    have hlt := h.known x hx
    simp only [beq_iff_eq]
    omega
  simp only [find?, Scheduler.track, List.find?_append, hnone, Option.none_or]
  simp

theorem Evolves.track (s : Scheduler κ α) {r : Registration κ} (hc : r.cancelled = false) :
    Evolves (· = r.owner) s (s.track r).2 := by
  have howned : ∀ owner, (s.track r).2.ownedBy owner =
      if owner = r.owner then s.ownedBy r.owner ++ [s.registrations.length] else s.ownedBy owner :=
    fun owner => lookup_indexed r.owner owner s.registrations.length s.byOwner
  have hlen : (s.track r).2.registrations.length = s.registrations.length + 1 := by
    simp [Scheduler.track]
  -- the new number is above all others, so the list of the owner stays without repetitions
  refine ⟨fun ht => ⟨fun x hx => ?_, ?_, fun owner => ?_, fun owner j hj => ?_, ht.sleeping, ht.asleep⟩,
    by omega, fun ht owner j hj => ?_⟩
  · rw [hlen]
    rcases List.mem_append.mp hx with hx | hx
    · have hlt := ht.known x hx
      omega
    · rw [List.mem_singleton.mp hx]
      exact Nat.lt_succ_self _
  · show ((indexed (· == ·) r.owner s.registrations.length s.byOwner).map Prod.fst).Nodup
    rw [keys_indexed]
    split
    · exact ht.owners
    · next hnew =>
      refine List.nodup_append.mpr ⟨ht.owners, List.nodup_singleton _, fun a ha b hb hab => ?_⟩
      rw [List.mem_singleton] at hb
      exact hnew (hb ▸ hab ▸ ha)
  · rw [howned]
    split
    · refine List.nodup_append.mpr ⟨ht.owned _, List.nodup_singleton _, fun a ha b hb hab => ?_⟩
      rw [List.mem_singleton] at hb
      have hlt := ht.lt_of_owned ha
      omega
    · exact ht.owned owner
  · have hold : j ∈ s.ownedBy owner → ∃ x, (s.track r).2.find? j = some x ∧ x.owner = owner ∧
        x.cancelled = false := by
      intro hj
      obtain ⟨x, hx, hrest⟩ := ht.active owner j hj
      refine ⟨x, ?_, hrest⟩
      simp only [find?] at hx
      simp only [find?, Scheduler.track, List.find?_append, hx, Option.some_or]
    rw [howned] at hj
    split at hj
    · next ho =>
      rcases List.mem_append.mp hj with hj | hj
      · exact hold (ho ▸ hj)
      · rw [List.mem_singleton] at hj
        refine ⟨{ r with id := s.registrations.length }, ?_, ho.symm, hc⟩
        rw [hj]
        exact ht.find?_track r
    · exact hold hj
  · rw [howned] at hj
    split at hj
    · next ho =>
      rcases List.mem_append.mp hj with hj | hj
      · exact .inl (ho ▸ hj)
      · rw [List.mem_singleton] at hj
        exact .inr ⟨ho, Nat.le_of_eq hj.symm⟩
    · exact .inl hj

/-- What setting the timer of a registration makes of a scheduler. -/
theorem arm_eq_ok {s' : Scheduler κ α} {id : Nat} {time : Float} {job : α} (h : s.arm id time job = .ok s') :
    ∃ due, s' = { s with loop := (s.loop.addTimer due job).2 }.modify id fun r =>
      { r with handle := some (s.loop.addTimer due job).1, nextAt := time } := by
  simp only [Scheduler.arm, bind, Except.bind, pure, Except.pure] at h
  split at h
  · cases h
  · exact ⟨_, (Except.ok.inj h).symm⟩

/-- A timer that is set for the time after a delay is set for some time. -/
theorem armAfter_eq_ok {s' : Scheduler κ α} {id : Nat} {delay : Except Fault Value} {job : α}
    (h : s.armAfter id delay job = .ok s') : ∃ time, s.arm id time job = .ok s' := by
  simp only [Scheduler.armAfter, bind, Except.bind] at h
  split at h
  · cases h
  · split at h
    · cases h
    · exact ⟨_, h⟩

theorem Evolves.arm {P : String → Prop} {s' : Scheduler κ α} {id : Nat} {time : Float} {job : α}
    (h : s.arm id time job = .ok s') : Evolves P s s' := by
  obtain ⟨due, rfl⟩ := arm_eq_ok h
  have hloop : ∀ loop, Evolves P s { s with loop := loop } := fun loop => .of_eq rfl rfl rfl rfl
  exact (hloop _).trans (.modify _ id fun _ => ⟨rfl, rfl, rfl⟩)

theorem Evolves.armAfter {P : String → Prop} {s' : Scheduler κ α} {id : Nat} {delay : Except Fault Value}
    {job : α} (h : s.armAfter id delay job = .ok s') : Evolves P s s' := by
  obtain ⟨time, harm⟩ := armAfter_eq_ok h
  exact .arm harm

theorem Evolves.callLater (s : Scheduler κ α) (fire : Nat → α) (owner : String) (delay : Value)
    (callback : κ) : Evolves (· = owner) s (s.callLater fire owner delay callback).2 := by
  have ht := Evolves.track s
    (r := { id := 0, owner := owner, kind := .timer, callback := callback }) rfl
  unfold Scheduler.callLater
  dsimp only
  split
  · next h => exact ht.trans (.armAfter h)
  · exact ht

theorem Evolves.every (s : Scheduler κ α) (fire : Nat → α) (owner : String) (interval : Value)
    (callback : κ) : Evolves (· = owner) s (s.every fire owner interval callback).2 := by
  unfold Scheduler.every
  split
  · exact .refl s
  · next period _ =>
    have ht := Evolves.track s
      (r := { id := 0, owner := owner, kind := .interval, callback := callback, interval := some period }) rfl
    dsimp only
    split
    · next h => exact ht.trans (.armAfter h)
    · exact ht

theorem Evolves.listen (s : Scheduler κ α) (owner : String) (event : Value) (callback : κ) :
    Evolves (· = owner) s (s.listen owner event callback).2 := by
  have ht := Evolves.track s
    (r := { id := 0, owner := owner, kind := .listener, callback := callback, event := event }) rfl
  unfold Scheduler.listen
  dsimp only
  split
  · exact ht.trans (.of_eq rfl rfl rfl rfl)
  · exact ht

end Registering

/-! ## Firing and sleeping -/

section Firing

variable {P : String → Prop} {s : Scheduler κ α}

theorem Evolves.rearm (s : Scheduler κ α) (r : Registration κ) (fire : Nat → α) :
    Evolves P s (s.rearm r fire) := by
  unfold Scheduler.rearm
  split
  · dsimp only
    split
    · next h => exact (Evolves.arm h).trans (.modify _ r.id fun _ => ⟨rfl, rfl, rfl⟩)
    · exact .refl s
  · exact .refl s

/-- A change of sleeps only. -/
theorem Evolves.of_sleepers {s' : Scheduler κ α} (hr : s'.registrations = s.registrations)
    (hb : s'.byOwner = s.byOwner)
    (hs : s.Tidy → (s'.sleepers.map Sleeper.id).Nodup ∧ ∀ x ∈ s'.sleepers, x.id < s'.nextSleeper) :
    Evolves P s s' := by
  refine ⟨fun ht => ?_, Nat.le_of_eq (by rw [hr]), fun _ owner id hid => .inl ?_⟩
  · refine ⟨?_, ?_, ?_, ?_, (hs ht).1, (hs ht).2⟩
    · rw [hr]; exact ht.known
    · rw [hb]; exact ht.owners
    · simpa only [ownedBy, hb] using ht.owned
    · simpa only [ownedBy, find?, hb, hr] using ht.active
  · rwa [ownedBy, hb] at hid

/-- What a sleep makes of a scheduler: its timer is set, and the sleeper waits under the next number. -/
theorem sleep_eq_ok {seconds : Value} {elapsed resume : Nat → α} {id : Nat} {s' : Scheduler κ α}
    (h : s.sleep seconds elapsed resume = .ok (id, s')) : id = s.nextSleeper ∧ ∃ due, s' = { s with
      loop := (s.loop.addTimer due (elapsed s.nextSleeper)).2
      sleepers := s.sleepers ++ [{
        id := s.nextSleeper
        timer := (s.loop.addTimer due (elapsed s.nextSleeper)).1
        resume := resume s.nextSleeper }]
      nextSleeper := s.nextSleeper + 1 } := by
  simp only [Scheduler.sleep, bind, Except.bind, pure, Except.pure] at h
  split at h
  · cases h
  split at h
  · cases h
  obtain ⟨rfl, rfl⟩ := Prod.mk.inj (Except.ok.inj h)
  exact ⟨rfl, _, rfl⟩

theorem Evolves.sleep {seconds : Value} {elapsed resume : Nat → α} {id : Nat} {s' : Scheduler κ α}
    (h : s.sleep seconds elapsed resume = .ok (id, s')) : Evolves P s s' := by
  obtain ⟨-, due, rfl⟩ := sleep_eq_ok h
  refine .of_sleepers rfl rfl fun ht => ⟨?_, fun x hx => ?_⟩
  · rw [List.map_append, List.nodup_append]
    refine ⟨ht.sleeping, List.nodup_singleton _, fun a ha b hb hab => ?_⟩
    obtain ⟨x, hx, rfl⟩ := List.mem_map.mp ha
    simp only [List.map_cons, List.map_nil, List.mem_singleton] at hb
    have hlt := ht.asleep x hx
    omega
  · show x.id < s.nextSleeper + 1
    rcases List.mem_append.mp hx with hx | hx
    · have hlt := ht.asleep x hx
      omega
    · rw [List.mem_singleton.mp hx]
      exact Nat.lt_succ_self _

theorem ids_map_outcome (xs : List (Sleeper α)) (id : Nat) (outcome : Bool) :
    (xs.map fun y => if y.id == id then { y with outcome := some outcome } else y).map Sleeper.id =
      xs.map Sleeper.id := by
  rw [List.map_map]
  refine List.map_congr_left fun y _ => ?_
  simp only [Function.comp]
  split <;> rfl

theorem Evolves.settle (s : Scheduler κ α) (id : Nat) (outcome : Bool) :
    Evolves P s (s.settle id outcome) := by
  unfold Scheduler.settle
  split
  · exact .refl s
  · split
    · exact .refl s
    · refine .of_sleepers rfl rfl fun ht => ⟨?_, fun x hx => ?_⟩
      · rw [ids_map_outcome]
        exact ht.sleeping
      · obtain ⟨y, hy, rfl⟩ := List.mem_map.mp hx
        have hlt := ht.asleep y hy
        split <;> exact hlt

theorem Evolves.wakeAll (s : Scheduler κ α) : Evolves P s s.wakeAll.2 :=
  .foldl (fun s (x : Sleeper α) => .settle s x.id false) _ s

theorem Evolves.endSleep (s : Scheduler κ α) (id : Nat) : Evolves P s (s.endSleep id).2 := by
  unfold Scheduler.endSleep
  split
  · exact .refl s
  · refine .of_sleepers rfl rfl fun ht => ⟨?_, fun x hx => ?_⟩
    · exact ht.sleeping.sublist (List.filter_sublist.map _)
    · exact ht.asleep x (List.mem_of_mem_filter hx)

end Firing

/-! ## Cancelling everything -/

section Everything

variable {s : Scheduler κ α}

/-- To cancel a registration leaves the events of all registrations as they are. -/
theorem keyed_cancel (s : Scheduler κ α) (id j : Nat) : (s.cancel id).2.Keyed j ↔ s.Keyed j := by
  cases hr : s.find? id with
  | none => simp only [Scheduler.cancel, hr]
  | some r =>
    cases hc : r.cancelled with
    | true => simp only [Scheduler.cancel, hr, hc, if_true]
    | false =>
      unfold Keyed
      rw [find?_cancel hr hc]
      cases s.find? j with
      | none => simp
      | some x =>
        simp only [Option.map_some, Option.some.injEq, forall_eq']
        split <;> rfl

/-- What a tidy scheduler does when it cancels something active. -/
theorem Tidy.cancel (h : s.Tidy) {owner : String} {id : Nat} (hid : id ∈ s.ownedBy owner) :
    (s.Keyed id → (s.cancel id).1 = .ok ()) ∧ (¬s.Keyed id → (s.cancel id).1 = .error .type) ∧
      (∀ j, j ∈ (s.cancel id).2.ownedBy owner ↔ j ∈ s.ownedBy owner ∧ j ≠ id) ∧
      ∀ other, other ≠ owner → (s.cancel id).2.ownedBy other = s.ownedBy other := by
  obtain ⟨r, hr, rfl, hc⟩ := h.active owner id hid
  obtain ⟨hresult, -, hb, -⟩ := cancel_of_find? hr hc
  have hkeyed : s.Keyed id ↔ r.event.hashable = true := by simp [Keyed, hr]
  refine ⟨fun hk => ?_, fun hk => ?_, fun j => ?_, fun other hne => ?_⟩
  · rw [hresult, if_pos (hkeyed.mp hk)]
  · rw [hresult, if_neg fun hh => hk (hkeyed.mpr hh)]
  · rw [h.mem_ownedBy_unindexed hb]
    simp
  · rw [h.ownedBy_unindexed hb, if_neg hne]

theorem Tidy.cancelEach_ok (h : s.Tidy) {owner : String} {ids : List Nat} (hd : ids.Nodup)
    (hids : ∀ id ∈ ids, id ∈ s.ownedBy owner) (hk : ∀ id ∈ ids, s.Keyed id) :
    (s.cancelEach ids).1 = .ok () ∧
      (∀ j, j ∈ (s.cancelEach ids).2.ownedBy owner ↔ j ∈ s.ownedBy owner ∧ j ∉ ids) ∧
      ∀ other, other ≠ owner → (s.cancelEach ids).2.ownedBy other = s.ownedBy other := by
  induction ids generalizing s with
  | nil => exact ⟨rfl, by simp [Scheduler.cancelEach], fun _ _ => rfl⟩
  | cons id rest ih =>
    obtain ⟨hnew, hrest⟩ := List.nodup_cons.mp hd
    obtain ⟨hid, hids⟩ := List.forall_mem_cons.mp hids
    obtain ⟨hkid, hk⟩ := List.forall_mem_cons.mp hk
    obtain ⟨hok, -, hmine, hothers⟩ := h.cancel hid
    obtain ⟨hresult, hafter, hsame⟩ := ih (s := (s.cancel id).2)
      ((Evolves.cancel (P := fun _ => False) s id).tidy h) hrest
      (fun j hj => (hmine j).mpr ⟨hids j hj, fun heq => hnew (heq ▸ hj)⟩)
      (fun j hj => (keyed_cancel s id j).mpr (hk j hj))
    rw [cancelEach_cons, hok hkid]
    refine ⟨hresult, fun j => ?_, fun other hne => ?_⟩
    · dsimp only
      rw [hafter, hmine, List.mem_cons]
      tauto
    · exact (hsame other hne).trans (hothers other hne)

theorem Tidy.cancelEach_error (h : s.Tidy) {owner : String} {ids : List Nat} (hd : ids.Nodup)
    (hids : ∀ id ∈ ids, id ∈ s.ownedBy owner) (hk : ∃ id ∈ ids, ¬s.Keyed id) :
    (s.cancelEach ids).1 = .error .type := by
  induction ids generalizing s with
  | nil => simp at hk
  | cons id rest ih =>
    obtain ⟨hnew, hrest⟩ := List.nodup_cons.mp hd
    obtain ⟨hid, hids⟩ := List.forall_mem_cons.mp hids
    obtain ⟨hok, hfails, hmine, -⟩ := h.cancel hid
    rw [cancelEach_cons]
    by_cases hkid : s.Keyed id
    · rw [hok hkid]
      refine ih (s := (s.cancel id).2) ((Evolves.cancel (P := fun _ => False) s id).tidy h) hrest
        (fun j hj => (hmine j).mpr ⟨hids j hj, fun heq => hnew (heq ▸ hj)⟩) ?_
      obtain ⟨j, hj, hnot⟩ := hk
      rcases List.mem_cons.mp hj with rfl | hj
      · exact absurd hkid hnot
      · exact ⟨j, hj, fun hkeyed => hnot ((keyed_cancel s id j).mp hkeyed)⟩
    · rw [hfails hkid]

/-- An owner's registrations are cancelled when their events may be keys. -/
theorem Tidy.cancelOwner_ok (h : s.Tidy) {owner : String} (hk : ∀ id ∈ s.ownedBy owner, s.Keyed id) :
    (s.cancelOwner owner).1 = .ok (s.ownedBy owner).length ∧ (s.cancelOwner owner).2.ownedBy owner = [] ∧
      ∀ other, other ≠ owner → (s.cancelOwner owner).2.ownedBy other = s.ownedBy other := by
  obtain ⟨hresult, hmine, hothers⟩ := h.cancelEach_ok (h.owned owner) (fun _ hid => hid) hk
  rw [cancelOwner_eq, hresult]
  refine ⟨rfl, List.eq_nil_iff_forall_not_mem.mpr fun j hj => ?_, hothers⟩
  obtain ⟨hin, hout⟩ := (hmine j).mp hj
  exact hout hin

theorem Tidy.cancelOwner_error (h : s.Tidy) {owner : String} (hk : ∃ id ∈ s.ownedBy owner, ¬s.Keyed id) :
    (s.cancelOwner owner).1 = .error .type := by
  rw [cancelOwner_eq, h.cancelEach_error (h.owned owner) (fun _ hid => hid) hk]
  rfl

theorem keyed_cancelEach (ids : List Nat) (s : Scheduler κ α) (j : Nat) :
    (s.cancelEach ids).2.Keyed j ↔ s.Keyed j := by
  induction ids generalizing s with
  | nil => exact Iff.rfl
  | cons id rest ih =>
    rw [cancelEach_cons]
    split
    · exact (ih _).trans (keyed_cancel s id j)
    · exact keyed_cancel s id j

theorem keyed_cancelOwner (s : Scheduler κ α) (owner : String) (j : Nat) :
    (s.cancelOwner owner).2.Keyed j ↔ s.Keyed j := by
  rw [cancelOwner_eq]
  exact keyed_cancelEach _ s j

theorem Tidy.cancelOwners_ok (h : s.Tidy) {owners : List String} (hd : owners.Nodup)
    (hk : ∀ owner ∈ owners, ∀ id ∈ s.ownedBy owner, s.Keyed id) (count : Nat) :
    (s.cancelOwners count owners).1 = .ok (count + (owners.flatMap s.ownedBy).length) ∧
      (∀ owner ∈ owners, (s.cancelOwners count owners).2.ownedBy owner = []) ∧
      ∀ other, other ∉ owners → (s.cancelOwners count owners).2.ownedBy other = s.ownedBy other := by
  induction owners generalizing s count with
  | nil => exact ⟨rfl, by simp, fun _ _ => rfl⟩
  | cons owner rest ih =>
    obtain ⟨hnew, hrest⟩ := List.nodup_cons.mp hd
    obtain ⟨hkowner, hk⟩ := List.forall_mem_cons.mp hk
    obtain ⟨hresult, hmine, hothers⟩ := h.cancelOwner_ok hkowner
    have hsame : ∀ other ∈ rest, (s.cancelOwner owner).2.ownedBy other = s.ownedBy other := fun other hmem =>
      hothers other fun heq => hnew (heq ▸ hmem)
    obtain ⟨hok, hgone, hleft⟩ := ih (s := (s.cancelOwner owner).2)
      ((Evolves.cancelOwner (P := fun _ => False) s owner).tidy h) hrest
      (fun other hmem id hid => (keyed_cancelOwner s owner id).mpr (hk other hmem id (hsame other hmem ▸ hid)))
      (count + (s.ownedBy owner).length)
    rw [cancelOwners_cons, hresult]
    refine ⟨hok.trans ?_, fun other hmem => ?_, fun other hnot => ?_⟩
    · rw [List.flatMap_cons, List.length_append, ← Nat.add_assoc, List.length_flatMap, List.length_flatMap,
        List.map_congr_left fun other hmem => by rw [hsame other hmem]]
    · rcases List.mem_cons.mp hmem with rfl | hmem
      · exact (hleft other hnew).trans hmine
      · exact hgone other hmem
    · rw [List.mem_cons, not_or] at hnot
      exact (hleft other hnot.2).trans (hothers other hnot.1)

theorem Tidy.cancelOwners_error (h : s.Tidy) {owners : List String} (hd : owners.Nodup)
    (hk : ∃ owner ∈ owners, ∃ id ∈ s.ownedBy owner, ¬s.Keyed id) (count : Nat) :
    (s.cancelOwners count owners).1 = .error .type := by
  induction owners generalizing s count with
  | nil => simp at hk
  | cons owner rest ih =>
    obtain ⟨hnew, hrest⟩ := List.nodup_cons.mp hd
    rw [cancelOwners_cons]
    by_cases hkowner : ∀ id ∈ s.ownedBy owner, s.Keyed id
    · obtain ⟨hresult, -, hothers⟩ := h.cancelOwner_ok hkowner
      rw [hresult]
      refine ih (s := (s.cancelOwner owner).2)
        ((Evolves.cancelOwner (P := fun _ => False) s owner).tidy h) hrest ?_ _
      obtain ⟨other, hmem, id, hid, hnot⟩ := hk
      rcases List.mem_cons.mp hmem with rfl | hmem
      · exact absurd (hkowner id hid) hnot
      · refine ⟨other, hmem, id, ?_, fun hkeyed => hnot ((keyed_cancelOwner s owner id).mp hkeyed)⟩
        rwa [hothers other fun heq => hnew (heq ▸ hmem)]
    · rw [h.cancelOwner_error (by simpa using hkowner)]

theorem Tidy.mem_active (h : s.Tidy) {r : Registration κ} :
    r ∈ s.active none ↔ r.id ∈ s.ownedBy r.owner ∧ s.find? r.id = some r := by
  simp only [Scheduler.active, List.mem_filterMap, h.mem_activeIds]
  constructor
  · rintro ⟨id, ⟨owner, hid⟩, hr⟩
    obtain ⟨x, hx, howner, -⟩ := h.active owner id hid
    obtain rfl := Option.some.inj (hr.symm.trans hx)
    rw [id_of_find? hr, howner]
    exact ⟨hid, hr⟩
  · rintro ⟨hid, hr⟩
    exact ⟨r.id, ⟨r.owner, hid⟩, hr⟩

theorem Tidy.exists_active (h : s.Tidy) {owner : String} {id : Nat} (hid : id ∈ s.ownedBy owner) :
    ∃ r ∈ s.active none, r.id = id ∧ r.owner = owner := by
  obtain ⟨r, hr, howner, -⟩ := h.active owner id hid
  have hrid := id_of_find? hr
  refine ⟨r, h.mem_active.mpr ?_, hrid, howner⟩
  rw [hrid, howner]
  exact ⟨hid, hr⟩

/-- Whether the events of all active registrations may be keys. -/
theorem Tidy.keyed_iff (h : s.Tidy) :
    (∀ owner, ∀ id ∈ s.ownedBy owner, s.Keyed id) ↔
      ∀ r ∈ s.active none, r.event.hashable = true := by
  constructor
  · intro hk r hr
    obtain ⟨hid, hfind⟩ := h.mem_active.mp hr
    exact hk r.owner r.id hid r hfind
  · intro hk owner id hid r hr
    obtain ⟨x, hx, hxid, -⟩ := h.exists_active hid
    have hfind := (h.mem_active.mp hx).2
    rw [hxid, hr] at hfind
    obtain rfl := Option.some.inj hfind
    exact hk r hx

theorem Tidy.length_active (h : s.Tidy) : (s.active none).length = s.activeCount := by
  refine List.filterMap_length_eq_length.mpr fun id hid => ?_
  obtain ⟨owner, hid⟩ := h.mem_activeIds.mp hid
  obtain ⟨r, hr, -⟩ := h.active owner id hid
  rw [hr, Option.isSome_some]

theorem Tidy.active_eq_nil (h : s.Tidy) (hnone : ∀ owner, s.ownedBy owner = []) : s.active none = [] := by
  refine List.eq_nil_iff_forall_not_mem.mpr fun r hr => ?_
  have hid := (h.mem_active.mp hr).1
  rw [hnone r.owner] at hid
  cases hid

theorem Tidy.activeIds_eq (h : s.Tidy) : s.activeIds = (s.byOwner.map Prod.fst).flatMap s.ownedBy := by
  rw [activeIds, List.flatMap_map]
  refine List.flatMap_congr fun e he => ?_
  rw [ownedBy, (lookup_eq_some_iff h.owners).mpr he]
  rfl

/-- Everything can be cancelled exactly when the events of all active registrations may be keys. -/
theorem Tidy.cancelAll (h : s.Tidy) :
    ((∀ r ∈ s.active none, r.event.hashable = true) →
      s.cancelAll.1 = .ok (s.active none).length ∧ ∀ owner, s.cancelAll.2.ownedBy owner = []) ∧
    (¬(∀ r ∈ s.active none, r.event.hashable = true) → s.cancelAll.1 = .error .type) := by
  have hlisted : ∀ owner, owner ∉ s.byOwner.map Prod.fst → s.ownedBy owner = [] := fun owner hnot => by
    rw [ownedBy, lookup_eq_none_iff.mpr hnot]
    rfl
  rw [← h.keyed_iff]
  constructor
  · intro hk
    obtain ⟨hresult, hgone, hleft⟩ := h.cancelOwners_ok h.owners (fun owner _ => hk owner) 0
    refine ⟨?_, fun owner => ?_⟩
    · rw [h.length_active, activeCount, h.activeIds_eq]
      exact hresult.trans (by rw [Nat.zero_add])
    · by_cases hmem : owner ∈ s.byOwner.map Prod.fst
      · exact hgone owner hmem
      · exact (hleft owner hmem).trans (hlisted owner hmem)
  · intro hk
    push Not at hk
    obtain ⟨owner, id, hid, hnot⟩ := hk
    refine h.cancelOwners_error h.owners ⟨owner, ?_, id, hid, hnot⟩ 0
    by_contra hmem
    rw [hlisted owner hmem] at hid
    cases hid

/-- A sleep that is settled, or was before, is over. -/
theorem Tidy.settle (h : s.Tidy) (id : Nat) (outcome : Bool) :
    ∀ y ∈ (s.settle id outcome).sleepers, ∃ x ∈ s.sleepers, y.id = x.id ∧
      (x.outcome.isSome = true ∨ x.id = id → y.outcome.isSome = true) := by
  unfold Scheduler.settle
  split
  · next hnone =>
    intro y hy
    refine ⟨y, hy, rfl, fun hor => hor.resolve_right fun hid => ?_⟩
    have hne := List.find?_eq_none.mp hnone y hy
    simp [hid] at hne
  · next x hx =>
    have hxid : x.id = id := by simpa using List.find?_some hx
    split
    · next hover =>
      intro y hy
      refine ⟨y, hy, rfl, fun hor => hor.elim (fun hsome => hsome) fun hid => ?_⟩
      rwa [List.inj_on_of_nodup_map h.sleeping hy (List.mem_of_find?_eq_some hx) (hid.trans hxid.symm)]
    · intro y hy
      obtain ⟨z, hz, rfl⟩ := List.mem_map.mp hy
      refine ⟨z, hz, ?_, fun hor => ?_⟩
      · split <;> rfl
      · split
        · rfl
        · next hne => exact hor.resolve_right (by simpa using hne)

theorem Tidy.settleEach (h : s.Tidy) (xs : List (Sleeper α)) :
    ∀ y ∈ (xs.foldl (fun s x => s.settle x.id false) s).sleepers, ∃ x ∈ s.sleepers, y.id = x.id ∧
      (x.outcome.isSome = true ∨ x.id ∈ xs.map Sleeper.id → y.outcome.isSome = true) := by
  induction xs generalizing s with
  | nil => exact fun y hy => ⟨y, hy, rfl, fun hor => hor.elim id (by simp)⟩
  | cons x rest ih =>
    intro y hy
    obtain ⟨z, hz, hyz, hover⟩ := ih ((Evolves.settle (P := fun _ => False) s x.id false).tidy h) y hy
    obtain ⟨w, hw, hzw, hset⟩ := h.settle x.id false z hz
    refine ⟨w, hw, hyz.trans hzw, fun hor => hover ?_⟩
    rw [List.map_cons, List.mem_cons] at hor
    rcases hor with hor | hor | hor
    · exact .inl (hset (.inl hor))
    · exact .inl (hset (.inr hor))
    · exact .inr (hzw ▸ hor)

/-- No sleep is left in progress. -/
theorem Tidy.wakeAll (h : s.Tidy) : ∀ y ∈ s.wakeAll.2.sleepers, y.outcome.isSome = true := by
  intro y hy
  obtain ⟨x, hx, -, hover⟩ := h.settleEach _ y hy
  refine hover ?_
  cases hout : x.outcome with
  | some b => exact .inl rfl
  | none => exact .inr (List.mem_map_of_mem (List.mem_filter.mpr ⟨hx, by rw [hout]; rfl⟩))

end Everything

end Patchbay.Scheduler
