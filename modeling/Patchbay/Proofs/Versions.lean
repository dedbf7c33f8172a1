import Mathlib.Logic.Relation
import Mathlib.Order.Lattice
import Patchbay.Variables

/-!
# Versions of variables

A store stamps every change with a version that it has not used before. A reader who remembers the
version of a name can therefore tell later whether the name has been written since.

Results:
* `Write.moved`: after a write, a name has the value and the version it had, or a version beyond all
  earlier ones.
* `Wrote.versionOf_le`: along any sequence of writes versions only grow.
* `Wrote.eq_of_version_eq`: a store whose version is the same was not written.
* `versions_tell_changes`: two moments with the same version of a name agree on the name, and two
  moments with the same version agree on everything.
-/

namespace Patchbay

/-! ## Association lists -/

theorem lookup_filter_of_ne {α : Type} {l : List (String × α)} {k k' : String} (h : k' ≠ k) :
    (l.filter fun e => e.1 != k).lookup k' = l.lookup k' := by
  induction l with
  | nil => rfl
  | cons e rest ih =>
    obtain ⟨a, v⟩ := e
    by_cases ha : a = k
    · simp [ha, beq_false_of_ne h, ih, List.lookup_cons]
    · simp [ha, ih, List.lookup_cons]

theorem Named.get?_set_of_ne {d : Named} {k k' : String} {v : Value} (h : k' ≠ k) :
    (d.set k v).get? k' = d.get? k' := by
  induction d with
  | nil => simp [set, get?, List.lookup_cons, beq_false_of_ne h]
  | cons e rest ih =>
    obtain ⟨a, w⟩ := e
    simp only [get?] at ih ⊢
    by_cases ha : a = k
    · simp [set, ha, List.lookup_cons, beq_false_of_ne h]
    · simp [set, ha, List.lookup_cons, ih]

theorem Named.get?_set_self (d : Named) (k : String) (v : Value) : (d.set k v).get? k = some v := by
  induction d with
  | nil => simp [set, get?]
  | cons e rest ih =>
    obtain ⟨a, w⟩ := e
    simp only [get?] at ih ⊢
    by_cases ha : a = k
    · simp [set, ha]
    · simp [set, ha, List.lookup_cons, beq_false_of_ne (Ne.symm ha), ih]

theorem Named.isSome_get? (d : Named) (k : String) : (d.get? k).isSome = d.has k := by
  induction d with
  | nil => rfl
  | cons e rest ih =>
    obtain ⟨a, w⟩ := e
    simp only [get?, has, List.any_cons, List.lookup_cons] at ih ⊢
    by_cases ha : k = a
    · simp [ha]
    · rw [beq_false_of_ne ha, beq_false_of_ne (Ne.symm ha), Bool.false_or]
      exact ih

theorem Named.get?_erase_of_ne {d : Named} {k k' : String} (h : k' ≠ k) :
    (d.erase k).get? k' = d.get? k' :=
  lookup_filter_of_ne h

namespace Variables

/-! ## Writes -/

/-- One change of a store: a name is set or removed, or all names are replaced. -/
inductive Write : Variables → Variables → Prop
  | set (s : Variables) (name : String) (v : Value) : Write s (s.set name v)
  | delete (s : Variables) (name : String) : Write s (s.delete name)
  | load (s : Variables) (values : Named) : Write s (s.load values)

theorem Write.clear (s : Variables) : Write s s.clear := .load s []

/-- Any number of changes of a store. -/
abbrev Wrote : Variables → Variables → Prop := Relation.ReflTransGen Write

/-- No name was changed at a version that the store has not reached. -/
structure Counted (s : Variables) : Prop where
  changed : ∀ x ∈ s.changed, x.2 ≤ s.version
  reset : s.reset ≤ s.version

/-- A store that was never written is counted. -/
theorem Counted.initial (values : Named) : Counted { values := values } :=
  ⟨by simp, le_rfl⟩

theorem lookup_le {l : List (String × Nat)} {b : Nat} (h : ∀ x ∈ l, x.2 ≤ b) (name : String) :
    (l.lookup name).getD 0 ≤ b := by
  induction l with
  | nil => simp
  | cons e rest ih =>
    obtain ⟨a, n⟩ := e
    rw [List.lookup_cons]
    split
    · exact h (a, n) List.mem_cons_self
    · exact ih fun x hx => h x (List.mem_cons_of_mem _ hx)

theorem Counted.versionOf_le {s : Variables} (h : s.Counted) (name : String) :
    s.versionOf name ≤ s.version :=
  max_le (lookup_le h.changed name) h.reset

theorem Counted.touch {s : Variables} (h : s.Counted) (name : String) : (s.touch name).Counted := by
  refine ⟨fun x hx => ?_, Nat.le_succ_of_le h.reset⟩
  rcases List.mem_cons.mp hx with rfl | hx
  · exact le_rfl
  · exact Nat.le_succ_of_le (h.changed x ((List.mem_filter.mp hx).1))

theorem Write.counted {s s' : Variables} (w : Write s s') (h : s.Counted) : s'.Counted := by
  cases w with
  | set name v => exact Counted.touch (s := { s with values := s.values.set name v }) ⟨h.1, h.2⟩ name
  | delete name =>
    unfold Variables.delete
    split
    · exact Counted.touch (s := { s with values := s.values.erase name }) ⟨h.1, h.2⟩ name
    · exact h
  | load values => exact ⟨fun x hx => Nat.le_succ_of_le (h.changed x hx), le_rfl⟩

/-! ## What a write moves -/

theorem versionOf_touch_of_ne (s : Variables) {name other : String} (h : other ≠ name) :
    (s.touch name).versionOf other = s.versionOf other := by
  simp [touch, versionOf, List.lookup_cons, beq_false_of_ne h, lookup_filter_of_ne h]

theorem lt_versionOf_touch (s : Variables) (name : String) :
    s.version < (s.touch name).versionOf name := by
  simp only [touch, versionOf, List.lookup_cons_self, Option.getD_some]
  omega

/-- After a write a name is as it was, or has a version that the store had not reached before. -/
theorem Write.moved {s s' : Variables} (w : Write s s') (name : String) :
    (s'.get? name = s.get? name ∧ s'.versionOf name = s.versionOf name) ∨
      s.version < s'.versionOf name := by
  cases w with
  | set changed v =>
    by_cases h : name = changed
    · subst h
      exact .inr (lt_versionOf_touch { s with values := s.values.set name v } name)
    · exact .inl ⟨Named.get?_set_of_ne h, versionOf_touch_of_ne _ h⟩
  | delete changed =>
    unfold Variables.delete
    split
    · by_cases h : name = changed
      · subst h
        exact .inr (lt_versionOf_touch { s with values := s.values.erase name } name)
      · exact .inl ⟨Named.get?_erase_of_ne h, versionOf_touch_of_ne _ h⟩
    · exact .inl ⟨rfl, rfl⟩
  | load values => exact .inr (lt_of_lt_of_le (Nat.lt_succ_self _) (le_max_right _ _))

/-- After a write the store is the same, or its version is beyond the earlier one. -/
theorem Write.version_lt {s s' : Variables} (w : Write s s') : s' = s ∨ s.version < s'.version := by
  cases w with
  | set name v => exact .inr (Nat.lt_succ_self _)
  | delete name =>
    unfold Variables.delete
    split
    · exact .inr (Nat.lt_succ_self _)
    · exact .inl rfl
  | load values => exact .inr (Nat.lt_succ_self _)

theorem Write.versionOf_le {s s' : Variables} (w : Write s s') (h : s.Counted) (name : String) :
    s.versionOf name ≤ s'.versionOf name := by
  rcases w.moved name with ⟨-, h'⟩ | h'
  · exact h'.ge
  · exact (h.versionOf_le name).trans h'.le

/-! ## Sequences of writes -/

theorem Wrote.counted {s s' : Variables} (w : Wrote s s') (h : s.Counted) : s'.Counted := by
  induction w with
  | refl => exact h
  | tail _ last ih => exact last.counted ih

/-- The version of a name only grows. -/
theorem Wrote.versionOf_le {s s' : Variables} (w : Wrote s s') (h : s.Counted) (name : String) :
    s.versionOf name ≤ s'.versionOf name := by
  induction w with
  | refl => exact le_rfl
  | tail first last ih => exact ih.trans (last.versionOf_le (Wrote.counted first h) name)

/-- The version of a store only grows. -/
theorem Wrote.version_le {s s' : Variables} (w : Wrote s s') : s.version ≤ s'.version := by
  induction w with
  | refl => exact le_rfl
  | tail _ last ih =>
    rcases last.version_lt with rfl | h
    · exact ih
    · exact ih.trans h.le

/-- A store whose version is what it was has not been written. -/
theorem Wrote.eq_of_version_eq {s s' : Variables} (w : Wrote s s') (h : s'.version = s.version) :
    s' = s := by
  induction w with
  | refl => rfl
  | @tail mid last first write ih =>
    have hle := Wrote.version_le first
    rcases write.version_lt with rfl | hlt
    · exact ih h
    · omega

/-- Along any sequence of writes a name stays as it was, or gets a version that the store had not
reached before. -/
theorem Wrote.moved {s s' : Variables} (w : Wrote s s') (name : String) :
    (s'.get? name = s.get? name ∧ s'.versionOf name = s.versionOf name) ∨
      s.version < s'.versionOf name := by
  induction w with
  | refl => exact .inl ⟨rfl, rfl⟩
  | tail first last ih =>
    rcases last.moved name with ⟨hvalue, hversion⟩ | hbeyond
    · rw [hvalue, hversion]
      exact ih
    · exact .inr ((Wrote.version_le first).trans_lt hbeyond)

/-- A name whose version is what it was has the value it had. -/
theorem Wrote.get?_eq_of_versionOf_eq {s s' : Variables} (w : Wrote s s') (h : s.Counted)
    {name : String} (heq : s'.versionOf name = s.versionOf name) : s'.get? name = s.get? name := by
  rcases w.moved name with ⟨hvalue, -⟩ | hbeyond
  · exact hvalue
  · have := h.versionOf_le name
    omega

theorem contains_eq_isSome_get? (s : Variables) (name : String) :
    s.contains name = (s.get? name).isSome :=
  (Named.isSome_get? s.values name).symm

theorem versionOf_delete_of_ne (s : Variables) {name other : String} (h : other ≠ name) :
    (s.delete name).versionOf other = s.versionOf other := by
  unfold Variables.delete
  split
  · exact versionOf_touch_of_ne _ h
  · rfl

/-- Versions tell every change and nothing else. Of two moments of a store with any first content,
the later one has no smaller version, and no smaller version of any name. Where a name has the same
version at both, it was set to the same value or was absent at both and at every moment in between;
where the store has the same version, so was every name. Setting or removing a name moves the
version of no other. -/
theorem versions_tell_changes {initial : Named} {s s' : Variables}
    (h : Wrote { values := initial } s) (h' : Wrote s s') :
    s.version ≤ s'.version ∧ (∀ name, s.versionOf name ≤ s'.versionOf name) ∧
      (∀ name, s'.versionOf name = s.versionOf name → ∀ between, Wrote s between →
        Wrote between s' →
        between.contains name = s.contains name ∧ between.get? name = s.get? name ∧
          s'.contains name = s.contains name ∧ s'.get? name = s.get? name) ∧
      (s'.version = s.version → s'.values = s.values) ∧
      ∀ name other, other ≠ name →
        (∀ v, (s'.set name v).versionOf other = s'.versionOf other) ∧
          (s'.delete name).versionOf other = s'.versionOf other := by
  have hcounted : s.Counted := Wrote.counted h (Counted.initial initial)
  refine ⟨Wrote.version_le h', Wrote.versionOf_le h' hcounted, ?_, ?_, ?_⟩
  · intro name heq between hto hfrom
    -- the version between lies between two equal ones
    have hbetween : between.versionOf name = s.versionOf name :=
      le_antisymm ((Wrote.versionOf_le hfrom (Wrote.counted hto hcounted) name).trans heq.le)
        (Wrote.versionOf_le hto hcounted name)
    have hvalue := Wrote.get?_eq_of_versionOf_eq hto hcounted hbetween
    have hvalue' := Wrote.get?_eq_of_versionOf_eq h' hcounted heq
    simp only [contains_eq_isSome_get?, hvalue, hvalue', and_self]
  · intro heq
    rw [Wrote.eq_of_version_eq h' heq]
  · intro name other hne
    exact ⟨fun v => versionOf_touch_of_ne _ hne, versionOf_delete_of_ne s' hne⟩

/-- A name set, removed, set again to its first value and swept away with all others, and read
before and after a write of another name. -/
theorem versions_tell_changes_of_rewrites :
    let first : Variables := { values := [("x", .int 1)] }
    let s := (((first.set "x" (.int 2)).delete "x").set "x" (.int 1)).clear.set "x" (.int 1)
    let s' := s.set "y" (.int 3)
    (s'.versionOf "x" = s.versionOf "x" ∧ s.versionOf "x" ≠ first.versionOf "x") ∧
      s'.contains "x" = s.contains "x" ∧ s'.get? "x" = s.get? "x" := by
  intro first s s'
  have hs : Wrote first s :=
    .head (.set _ _ _) (.head (.delete _ _) (.head (.set _ _ _) (.head (.clear _) (.single (.set _ _ _)))))
  have hs' : Wrote s s' := .single (.set _ _ _)
  have hversion : s'.versionOf "x" = s.versionOf "x" := by decide +kernel
  have hsame := (versions_tell_changes hs hs').2.2.1 "x" hversion s' hs' .refl
  exact ⟨⟨hversion, by decide +kernel⟩, hsame.1, hsame.2.1⟩

end Variables

end Patchbay
