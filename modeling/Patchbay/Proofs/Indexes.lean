import Mathlib.Data.List.Nodup
import Patchbay.Scheduler

/-!
# Indexes

An index holds lists of ids under keys. One that is in order holds each list that is not empty under its key,
and under that key once; a list without ids is not kept. Keys are compared by a test that decides equality on
the keys in question.

Contents:
* `under`: the list under a key.
* `Indexes`: whether an index holds the lists that a function gives.

Results:
* `Indexes.indexed`, `Indexes.unindexed`, `Indexes.withdrawn`: an id is added, or removed.
* `Indexes.flatMap_snd`, `flatMap_withdrawn`: everything that an index holds.
-/

namespace Patchbay.Scheduler

variable {γ : Type} {same : γ → γ → Bool} {K : γ → Prop} {key k : γ} {id : Nat} {l : List (γ × List Nat)}
  {f g : γ → List Nat}

/-- The list that an index holds under a key. -/
def under (same : γ → γ → Bool) (key : γ) (l : List (γ × List Nat)) : List Nat :=
  ((l.find? fun e => same key e.1).map Prod.snd).getD []

theorem under_cons (same : γ → γ → Bool) (key : γ) (e : γ × List Nat) (l : List (γ × List Nat)) :
    under same key (e :: l) = if same key e.1 then e.2 else under same key l := by
  simp only [under, List.find?_cons]
  cases same key e.1 <;> rfl

/-- Whether an index holds the lists that a function gives, under keys of some sort. -/
structure Indexes (same : γ → γ → Bool) (K : γ → Prop) (l : List (γ × List Nat)) (f : γ → List Nat) : Prop where
  keys : (l.map Prod.fst).Nodup
  proper : ∀ e ∈ l, K e.1
  full : ∀ e ∈ l, e.2 ≠ []
  found : ∀ key, K key → under same key l = f key

/-- Whether a test decides equality of keys of some sort. -/
def Decides (same : γ → γ → Bool) (K : γ → Prop) : Prop := ∀ a b, K a → K b → (same a b = true ↔ a = b)

theorem under_eq_nil (hsame : Decides same K) (hproper : ∀ e ∈ l, K e.1) (hk : K key)
    (hnot : key ∉ l.map Prod.fst) : under same key l = [] := by
  have hnone : (l.find? fun e => same key e.1) = none := by
    refine List.find?_eq_none.mpr fun e he heq => hnot ?_
    rw [(hsame key e.1 hk (hproper e he)).mp heq]
    exact List.mem_map_of_mem he
  rw [under, hnone]
  rfl

theorem under_of_mem (hsame : Decides same K) (hproper : ∀ e ∈ l, K e.1) (hd : (l.map Prod.fst).Nodup)
    {e : γ × List Nat} (he : e ∈ l) : under same e.1 l = e.2 := by
  induction l with
  | nil => cases he
  | cons x rest ih =>
    obtain ⟨hnew, hrest⟩ := List.nodup_cons.mp hd
    obtain ⟨hx, hproper⟩ := List.forall_mem_cons.mp hproper
    rw [under_cons]
    rcases List.mem_cons.mp he with rfl | he
    · rw [if_pos ((hsame _ _ hx hx).mpr rfl)]
    · rw [if_neg, ih hproper hrest he]
      intro heq
      refine hnew ?_
      rw [← (hsame _ _ (hproper e he) hx).mp heq]
      exact List.mem_map_of_mem he

/-! ## Adding -/

theorem under_indexed (hsame : Decides same K) (hproper : ∀ e ∈ l, K e.1) (hkey : K key) (hk : K k) :
    under same k (indexed same key id l) =
      if same k key then under same key l ++ [id] else under same k l := by
  induction l with
  | nil =>
    rw [indexed, under_cons]
    split <;> rfl
  | cons e rest ih =>
    obtain ⟨he, hproper⟩ := List.forall_mem_cons.mp hproper
    unfold indexed
    by_cases hhere : same key e.1 = true
    · obtain rfl := (hsame _ _ hkey he).mp hhere
      rw [if_pos hhere, under_cons, under_cons, under_cons, if_pos hhere]
      split <;> rfl
    · rw [if_neg hhere, under_cons, under_cons, under_cons, if_neg hhere, ih hproper]
      by_cases hke : same k e.1 = true
      · obtain rfl := (hsame _ _ hk he).mp hke
        have hne : ¬same e.1 key = true := fun heq => hhere ((hsame _ _ hkey he).mpr ((hsame _ _ he hkey).mp heq).symm)
        rw [if_pos hke, if_pos hke, if_neg hne]
      · rw [if_neg hke, if_neg hke]

theorem mem_indexed {e : γ × List Nat} (h : e ∈ indexed same key id l) :
    e ∈ l ∨ e = (key, [id]) ∨ ∃ x ∈ l, x.1 = e.1 ∧ e.2 = x.2 ++ [id] ∧ same key e.1 = true := by
  induction l with
  | nil => exact .inr (.inl (List.mem_singleton.mp h))
  | cons x rest ih =>
    unfold indexed at h
    split at h
    · next hsame =>
      rcases List.mem_cons.mp h with rfl | h
      · exact .inr (.inr ⟨x, List.mem_cons_self, rfl, rfl, hsame⟩)
      · exact .inl (List.mem_cons_of_mem _ h)
    · rcases List.mem_cons.mp h with rfl | h
      · exact .inl List.mem_cons_self
      · exact (ih h).imp (List.mem_cons_of_mem _)
          (.imp_right fun ⟨y, hy, heq⟩ => ⟨y, List.mem_cons_of_mem _ hy, heq⟩)

theorem nodup_indexed (hsame : Decides same K) (hproper : ∀ e ∈ l, K e.1) (hkey : K key)
    (hd : (l.map Prod.fst).Nodup) : ((indexed same key id l).map Prod.fst).Nodup := by
  induction l with
  | nil => exact List.nodup_singleton key
  | cons e rest ih =>
    obtain ⟨hnew, hrest⟩ := List.nodup_cons.mp hd
    obtain ⟨he, hproper⟩ := List.forall_mem_cons.mp hproper
    unfold indexed
    split
    · exact hd
    · next hne =>
      refine List.nodup_cons.mpr ⟨fun hin => ?_, ih hproper hrest⟩
      obtain ⟨x, hx, hxe⟩ := List.mem_map.mp hin
      rcases mem_indexed hx with hx | rfl | ⟨y, hy, hyx, -⟩
      · exact hnew (hxe ▸ List.mem_map_of_mem hx)
      · exact hne ((hsame _ _ hkey he).mpr hxe)
      · exact hnew (hyx.trans hxe ▸ List.mem_map_of_mem hy)

/-- An id is added to the list under a key. -/
theorem Indexes.indexed (hsame : Decides same K) (h : Indexes same K l f) (hkey : K key)
    (hg : g key = f key ++ [id]) (hrest : ∀ k, K k → k ≠ key → g k = f k) :
    Indexes same K (Scheduler.indexed same key id l) g := by
  refine ⟨nodup_indexed hsame h.proper hkey h.keys, fun e he => ?_, fun e he => ?_, fun k hk => ?_⟩
  · rcases mem_indexed he with he | rfl | ⟨x, hx, hxe, -⟩
    · exact h.proper e he
    · exact hkey
    · exact hxe ▸ h.proper x hx
  · rcases mem_indexed he with he | rfl | ⟨x, -, -, heq, -⟩
    · exact h.full e he
    · exact List.cons_ne_nil _ _
    · rw [heq]
      exact List.append_ne_nil_of_right_ne_nil _ (List.cons_ne_nil _ _)
  · rw [under_indexed hsame h.proper hkey hk]
    split
    · next heq =>
      rw [(hsame _ _ hk hkey).mp heq, hg, h.found key hkey]
    · next hne =>
      rw [h.found k hk, hrest k hk fun heq => hne ((hsame _ _ hk hkey).mpr heq)]

/-! ## Removing -/

theorem mem_unindexed {e : γ × List Nat} (h : e ∈ unindexed same key id l) :
    e ∈ l ∨ ∃ x ∈ l, x.1 = e.1 ∧ e.2 ≠ [] := by
  induction l with
  | nil => cases h
  | cons x rest ih =>
    unfold unindexed at h
    split at h
    · dsimp only at h
      split at h
      · exact .inl (List.mem_cons_of_mem _ h)
      · next hne =>
        rcases List.mem_cons.mp h with rfl | h
        · exact .inr ⟨x, List.mem_cons_self, rfl, fun heq => hne (List.isEmpty_iff.mpr heq)⟩
        · exact .inl (List.mem_cons_of_mem _ h)
    · rcases List.mem_cons.mp h with rfl | h
      · exact .inl List.mem_cons_self
      · exact (ih h).imp (List.mem_cons_of_mem _) fun ⟨y, hy, hrest⟩ => ⟨y, List.mem_cons_of_mem _ hy, hrest⟩

theorem sublist_unindexed (same : γ → γ → Bool) (key : γ) (id : Nat) (l : List (γ × List Nat)) :
    ((unindexed same key id l).map Prod.fst).Sublist (l.map Prod.fst) := by
  induction l with
  | nil => exact List.Sublist.refl _
  | cons e rest ih =>
    unfold unindexed
    split
    · dsimp only
      split
      · exact List.sublist_cons_self _ _
      · exact List.Sublist.refl _
    · exact ih.cons_cons _

theorem under_unindexed (hsame : Decides same K) (hproper : ∀ e ∈ l, K e.1) (hd : (l.map Prod.fst).Nodup)
    (hkey : K key) (hk : K k) :
    under same k (unindexed same key id l) =
      if same k key then (under same key l).erase id else under same k l := by
  induction l with
  | nil =>
    rw [unindexed]
    split <;> rfl
  | cons e rest ih =>
    obtain ⟨hnew, hrest⟩ := List.nodup_cons.mp hd
    obtain ⟨he, hproper⟩ := List.forall_mem_cons.mp hproper
    unfold unindexed
    by_cases hhere : same key e.1 = true
    · obtain rfl := (hsame _ _ hkey he).mp hhere
      rw [if_pos hhere, under_cons, under_cons, if_pos hhere]
      dsimp only
      split
      · next hempty =>
        -- the list is dropped, and no other one is under the key
        split
        · next hke =>
          obtain rfl := (hsame _ _ hk he).mp hke
          rw [under_eq_nil hsame hproper he hnew, List.isEmpty_iff.mp hempty]
        · rfl
      · rw [under_cons]
        split <;> rfl
    · rw [if_neg hhere, under_cons, under_cons, under_cons, if_neg hhere, ih hproper hrest]
      by_cases hke : same k e.1 = true
      · obtain rfl := (hsame _ _ hk he).mp hke
        have hne : ¬same e.1 key = true := fun heq => hhere ((hsame _ _ hkey he).mpr ((hsame _ _ he hkey).mp heq).symm)
        rw [if_pos hke, if_pos hke, if_neg hne]
      · rw [if_neg hke, if_neg hke]

/-- An id is removed from the list under a key. -/
theorem Indexes.unindexed (hsame : Decides same K) (h : Indexes same K l f) (hkey : K key)
    (hg : g key = (f key).erase id) (hrest : ∀ k, K k → k ≠ key → g k = f k) :
    Indexes same K (Scheduler.unindexed same key id l) g := by
  refine ⟨h.keys.sublist (sublist_unindexed same key id l), fun e he => ?_, fun e he => ?_, fun k hk => ?_⟩
  · rcases mem_unindexed he with he | ⟨x, hx, hxe, -⟩
    · exact h.proper e he
    · exact hxe ▸ h.proper x hx
  · rcases mem_unindexed he with he | ⟨_, -, -, hne⟩
    · exact h.full e he
    · exact hne
  · rw [under_unindexed hsame h.proper h.keys hkey hk]
    split
    · next heq => rw [(hsame _ _ hk hkey).mp heq, hg, h.found key hkey]
    · next hne => rw [h.found k hk, hrest k hk fun heq => hne ((hsame _ _ hk hkey).mpr heq)]

theorem Indexes.congr (h : Indexes same K l f) (hg : ∀ k, K k → g k = f k) : Indexes same K l g :=
  ⟨h.keys, h.proper, h.full, fun k hk => (h.found k hk).trans (hg k hk).symm⟩

/-! An id may also be removed from the list that holds it, whatever key that is under. -/

theorem withdrawn_eq_unindexed (h : ∀ e ∈ l, id ∈ e.2 ↔ same key e.1 = true) :
    withdrawn id l = Scheduler.unindexed same key id l := by
  induction l with
  | nil => rfl
  | cons e rest ih =>
    obtain ⟨he, hrest⟩ := List.forall_mem_cons.mp h
    rw [withdrawn, Scheduler.unindexed, ih hrest]
    simp only [he]

/-- Nothing comes to an index that an id is removed from. -/
theorem subset_withdrawn {e : γ × List Nat} (h : e ∈ withdrawn id l) {i : Nat} (hi : i ∈ e.2) :
    ∃ x ∈ l, x.1 = e.1 ∧ i ∈ x.2 := by
  induction l with
  | nil => cases h
  | cons x rest ih =>
    unfold withdrawn at h
    split at h
    · dsimp only at h
      split at h
      · exact ⟨e, List.mem_cons_of_mem _ h, rfl, hi⟩
      · rcases List.mem_cons.mp h with rfl | h
        · exact ⟨x, List.mem_cons_self, rfl, List.mem_of_mem_erase hi⟩
        · exact ⟨e, List.mem_cons_of_mem _ h, rfl, hi⟩
    · rcases List.mem_cons.mp h with rfl | h
      · exact ⟨e, List.mem_cons_self, rfl, hi⟩
      · obtain ⟨y, hy, hyi⟩ := ih h
        exact ⟨y, List.mem_cons_of_mem _ hy, hyi⟩

theorem withdrawn_eq_self (h : ∀ e ∈ l, id ∉ e.2) : withdrawn id l = l := by
  induction l with
  | nil => rfl
  | cons e rest ih =>
    obtain ⟨he, hrest⟩ := List.forall_mem_cons.mp h
    rw [withdrawn, if_neg he, ih hrest]

/-- What an index holds after an id was removed from the list that held it. -/
theorem flatMap_withdrawn (id : Nat) (l : List (γ × List Nat)) :
    (withdrawn id l).flatMap Prod.snd = (l.flatMap Prod.snd).erase id := by
  induction l with
  | nil => rfl
  | cons e rest ih =>
    unfold withdrawn
    rw [List.flatMap_cons, List.erase_append]
    split
    · dsimp only
      split
      · next hempty => rw [List.isEmpty_iff.mp hempty, List.nil_append]
      · rw [List.flatMap_cons]
    · rw [List.flatMap_cons, ih]

/-- What an index holds after an id was added. -/
theorem perm_flatMap_indexed (same : γ → γ → Bool) (key : γ) (id : Nat) (l : List (γ × List Nat)) :
    ((indexed same key id l).flatMap Prod.snd).Perm (id :: l.flatMap Prod.snd) := by
  induction l with
  | nil => exact .refl _
  | cons e rest ih =>
    unfold indexed
    split
    · rw [List.flatMap_cons, List.flatMap_cons, List.append_assoc]
      exact List.perm_middle
    · rw [List.flatMap_cons, List.flatMap_cons]
      exact (ih.append_left e.2).trans List.perm_middle

/-- An id that is under no other key is removed from the list that holds it. -/
theorem Indexes.withdrawn (hsame : Decides same K) (h : Indexes same K l f) (hkey : K key)
    (honly : ∀ k, K k → id ∈ f k → k = key) (hg : g key = (f key).erase id)
    (hrest : ∀ k, K k → k ≠ key → g k = f k) : Indexes same K (Scheduler.withdrawn id l) g := by
  have hlist : ∀ e ∈ l, e.2 = f e.1 := fun e he => by
    rw [← h.found e.1 (h.proper e he), under_of_mem hsame h.proper h.keys he]
  by_cases hin : id ∈ f key
  · have hheld : ∀ e ∈ l, id ∈ e.2 ↔ same key e.1 = true := fun e he => by
      rw [hlist e he, hsame key e.1 hkey (h.proper e he)]
      exact ⟨fun hid => (honly e.1 (h.proper e he) hid).symm, fun heq => heq ▸ hin⟩
    rw [withdrawn_eq_unindexed hheld]
    exact h.unindexed hsame hkey hg hrest
  · rw [withdrawn_eq_self fun e he hid => ?_]
    · refine h.congr fun k hk => ?_
      by_cases heq : k = key
      · rw [heq, hg, List.erase_of_not_mem hin]
      · exact hrest k hk heq
    · rw [hlist e he] at hid
      exact hin (honly e.1 (h.proper e he) hid ▸ hid)

/-! ## Everything that an index holds -/

/-- What an index holds are the lists under its keys. -/
theorem Indexes.flatMap_snd (hsame : Decides same K) (h : Indexes same K l f) :
    l.flatMap Prod.snd = (l.map Prod.fst).flatMap f := by
  rw [List.flatMap_map]
  refine List.flatMap_congr fun e he => ?_
  rw [← h.found e.1 (h.proper e he), under_of_mem hsame h.proper h.keys he]

end Patchbay.Scheduler
