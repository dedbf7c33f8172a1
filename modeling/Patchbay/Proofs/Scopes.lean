import Patchbay.Proofs.Versions
import Patchbay.Scope

/-!
# Scopes and what computations read

How publishing, resetting and caching change what a scope remembers, and how the notes of a computation
on what it has read are merged. Ports of outputs are values, and only texts among them can be wired, so
most statements are about dependencies that are named by texts.

Results:
* `Scope.epoch_publish_self`, `Scope.epoch_publish_of_ne`: publishing moves the epoch of the published
  output and of no other.
* `Scope.get?_outputsOf_publish_of_ne`: it changes the value of no other output.
* `Dependencies.mem_note`, `Dependencies.mem_merge`: every note is an old one or a new one, and no
  dependency is dropped.
* `Scope.Marked.enter`, `Scope.Marked.leave`: the nodes that are marked as being resolved stay those on the path.
-/

namespace Patchbay

/-! ## Equality with texts -/

namespace Value

theorem str_same_iff {s : String} {v : Value} : same (.str s) v = true ↔ v = .str s := by
  cases v with
  | str t => simp only [same, beq_iff_eq, str.injEq]; exact eq_comm
  | _ => simp [same]

theorem same_str_iff {s : String} {v : Value} : same v (.str s) = true ↔ v = .str s := by
  cases v <;> simp [same, sameNumber, sameComplex, asInt?]

end Value

/-- Whether a dependency is named by texts, as all those are that a computation can read. -/
def Dependency.Textual : Dependency → Prop
  | .output _ port => ∃ s, port = .str s
  | .oneVariable _ => True
  | .allVariables => True

theorem Dependency.same_iff {d d' : Dependency} (h : d.Textual) : d.same d' = true ↔ d' = d := by
  cases d with
  | output node port =>
    obtain ⟨s, rfl⟩ := h
    cases d' with
    | output node' port' =>
      simp only [same, Bool.and_eq_true, beq_iff_eq, Value.str_same_iff, output.injEq]
      exact ⟨fun h => ⟨h.1.symm, h.2⟩, fun h => ⟨h.1.symm, h.2⟩⟩
    | oneVariable _ => simp [same]
    | allVariables => simp [same]
  | oneVariable name =>
    cases d' with
    | oneVariable name' => simp only [same, beq_iff_eq, oneVariable.injEq]; exact eq_comm
    | _ => simp [same]
  | allVariables => cases d' <;> simp [same]

/-! ## Dictionaries -/

theorem Dict.get?_set_of_ne (d : Dict) {k : Value} {s : String} (v : Value) (hk : k ≠ .str s) :
    (d.set k v).get? (.str s) = d.get? (.str s) := by
  have hk' : Value.same (.str s) k = false := by
    rw [← Bool.not_eq_true, Value.str_same_iff]; exact hk
  induction d with
  | nil => simp [set, get?, hk']
  | cons e rest ih =>
    simp only [get?] at ih ⊢
    rw [set]
    split
    · next h =>
      -- a key that another value matches is no text
      have he : Value.same (.str s) e.1 = false := by
        rw [← Bool.not_eq_true, Value.str_same_iff]
        intro he
        rw [he, Value.same_str_iff] at h
        exact hk h
      simp [he]
    · simp only [List.find?_cons]
      split
      · rfl
      · exact ih

/-! ## Notes on reads -/

namespace Dependencies

theorem mem_note {ds : Dependencies} {d : Dependency} {v : Nat} {x : Dependency × Nat} (hd : d.Textual)
    (h : x ∈ ds.note d v) : x = (d, v) ∨ x ∈ ds := by
  induction ds with
  | nil => exact .inl (by simpa [note] using h)
  | cons e rest ih =>
    rw [note] at h
    split at h
    · next hs =>
      rw [Dependency.same_iff hd] at hs
      rcases List.mem_cons.mp h with rfl | h
      · exact .inl (by rw [hs])
      · exact .inr (List.mem_cons_of_mem e h)
    · rcases List.mem_cons.mp h with rfl | h
      · exact .inr List.mem_cons_self
      · exact (ih h).imp id (List.mem_cons_of_mem e)

theorem self_mem_note {ds : Dependencies} {d : Dependency} (v : Nat) (hd : d.Textual) :
    (d, v) ∈ ds.note d v := by
  induction ds with
  | nil => simp [note]
  | cons e rest ih =>
    rw [note]
    split
    · next hs =>
      rw [Dependency.same_iff hd] at hs
      rw [hs]
      exact List.mem_cons_self
    · exact List.mem_cons_of_mem e ih

/-- A dependency that was noted stays noted, perhaps with another version. -/
theorem key_mem_note {ds : Dependencies} {x : Dependency × Nat} (d : Dependency) (v : Nat) (h : x ∈ ds) :
    ∃ u, (x.1, u) ∈ ds.note d v := by
  induction ds with
  | nil => simp at h
  | cons e rest ih =>
    rw [note]
    rcases List.mem_cons.mp h with rfl | h
    · split
      · exact ⟨v, List.mem_cons_self⟩
      · exact ⟨x.2, List.mem_cons_self⟩
    · split
      · exact ⟨x.2, List.mem_cons_of_mem _ h⟩
      · obtain ⟨u, hu⟩ := ih h
        exact ⟨u, List.mem_cons_of_mem e hu⟩

theorem mem_merge {ds es : Dependencies} {x : Dependency × Nat} (hes : ∀ y ∈ es, y.1.Textual)
    (h : x ∈ ds.merge es) : x ∈ ds ∨ x ∈ es := by
  induction es generalizing ds with
  | nil => exact .inl h
  | cons e rest ih =>
    rcases ih (fun y hy => hes y (List.mem_cons_of_mem e hy)) h with h | h
    · rcases mem_note (hes e List.mem_cons_self) h with rfl | h
      · exact .inr List.mem_cons_self
      · exact .inl h
    · exact .inr (List.mem_cons_of_mem e h)

theorem key_mem_merge_left {ds : Dependencies} {x : Dependency × Nat} (es : Dependencies) (h : x ∈ ds) :
    ∃ u, (x.1, u) ∈ ds.merge es := by
  induction es generalizing ds x with
  | nil => exact ⟨x.2, h⟩
  | cons e rest ih =>
    obtain ⟨u, hu⟩ := key_mem_note e.1 e.2 h
    exact ih (x := (x.1, u)) hu

theorem key_mem_merge_right {es : Dependencies} {x : Dependency × Nat} (ds : Dependencies)
    (hx : x.1.Textual) (h : x ∈ es) : ∃ u, (x.1, u) ∈ ds.merge es := by
  induction es generalizing ds with
  | nil => simp at h
  | cons e rest ih =>
    rcases List.mem_cons.mp h with rfl | h
    · exact key_mem_merge_left rest (self_mem_note x.2 hx)
    · exact ih _ h

end Dependencies

/-! ## Scopes -/

namespace Scope

theorem lookup_putOutputs (node other : String) (d : Dict) (l : List (String × Dict)) :
    (putOutputs node d l).lookup other = if other = node then some d else l.lookup other := by
  induction l with
  | nil =>
    by_cases h : other = node
    · simp [putOutputs, h]
    · simp [putOutputs, h, List.lookup_cons, beq_false_of_ne h]
  | cons e rest ih =>
    obtain ⟨a, v⟩ := e
    by_cases ha : a = node
    · by_cases h : other = node
      · simp [putOutputs, ha, h]
      · simp [putOutputs, ha, h, List.lookup_cons, beq_false_of_ne h]
    · by_cases h : other = a
      · have : ¬a = node := ha
        simp [putOutputs, h, this]
      · simp [putOutputs, ha, List.lookup_cons, beq_false_of_ne h, ih]

theorem outputsOf_withOutputs (sc : Scope) (node other : String) (d : Dict) :
    (sc.withOutputs node d).outputsOf other = if other = node then d else sc.outputsOf other := by
  simp only [outputsOf, withOutputs, lookup_putOutputs]
  split <;> rfl

theorem outputsOf_resetNode (sc : Scope) (node other : String) :
    (sc.resetNode node).outputsOf other = if other = node then [] else sc.outputsOf other := by
  simp only [outputsOf, resetNode, lookup_putOutputs]
  split <;> rfl

theorem outputsOf_publish (sc : Scope) (node other : String) (port v : Value) :
    (sc.publish node port v).outputsOf other =
      if other = node then (sc.outputsOf node).set port v else sc.outputsOf other := by
  simp only [outputsOf, publish, lookup_putOutputs]
  split <;> rfl

/-- Publishing changes the value of the published output only. -/
theorem get?_outputsOf_publish_of_ne (sc : Scope) {node other : String} {port : Value} {s : String}
    (v : Value) (h : ¬(other = node ∧ port = .str s)) :
    ((sc.publish node port v).outputsOf other).get? (.str s) = (sc.outputsOf other).get? (.str s) := by
  rw [outputsOf_publish]
  split
  · next ho => rw [Dict.get?_set_of_ne _ v fun hp => h ⟨ho, hp⟩, ho]
  · rfl

theorem find?_bump_self (node s : String) (l : List ((String × Value) × Nat)) :
    ((bump node (.str s) l).find? fun e => e.1.1 == node && Value.same (.str s) e.1.2).map Prod.snd =
      some (((l.find? fun e => e.1.1 == node && Value.same (.str s) e.1.2).map Prod.snd).getD 0 + 1) := by
  induction l with
  | nil => simp [bump, Value.same]
  | cons e rest ih =>
    rw [bump]
    split
    · next h => simp [h]
    · next h => simp only [List.find?_cons, h]; exact ih

theorem find?_bump_of_ne {node other s : String} {port : Value} (h : ¬(other = node ∧ port = .str s))
    (l : List ((String × Value) × Nat)) :
    ((bump node port l).find? fun e => e.1.1 == other && Value.same (.str s) e.1.2) =
      l.find? fun e => e.1.1 == other && Value.same (.str s) e.1.2 := by
  induction l with
  | nil =>
    have : (node == other && Value.same (.str s) port) = false := by
      rw [← Bool.not_eq_true, Bool.and_eq_true, beq_iff_eq, Value.str_same_iff]
      exact fun h' => h ⟨h'.1.symm, h'.2⟩
    simp [bump, this]
  | cons e rest ih =>
    rw [bump]
    split
    · next hm =>
      have he : (e.1.1 == other && Value.same (.str s) e.1.2) = false := by
        rw [← Bool.not_eq_true, Bool.and_eq_true, beq_iff_eq, Value.str_same_iff]
        rintro ⟨h1, h2⟩
        rw [h1, h2, Bool.and_eq_true, beq_iff_eq, Value.same_str_iff] at hm
        exact h hm
      simp only [List.find?_cons, he]
    · simp only [List.find?_cons, ih]

theorem epoch_eq (sc : Scope) (node : String) (port : Value) :
    sc.epoch node port =
      ((sc.epochs.find? fun e => e.1.1 == node && port.same e.1.2).map Prod.snd).getD 0 := by
  rw [epoch]
  split
  · next h => rw [h]; rfl
  · next h => rw [h]; rfl

theorem epoch_publish_self (sc : Scope) (node port : String) (v : Value) :
    (sc.publish node (.str port) v).epoch node (.str port) = sc.epoch node (.str port) + 1 := by
  rw [epoch_eq, epoch_eq]
  simp only [publish, find?_bump_self, Option.getD_some]

/-- Publishing moves the epoch of the published output only. -/
theorem epoch_publish_of_ne (sc : Scope) {node other : String} {port : Value} {s : String} (v : Value)
    (h : ¬(other = node ∧ port = .str s)) :
    (sc.publish node port v).epoch other (.str s) = sc.epoch other (.str s) := by
  rw [epoch_eq, epoch_eq]
  simp only [publish, find?_bump_of_ne h]

/-- Epochs only grow. -/
theorem epoch_le_publish (sc : Scope) (node other : String) (port v : Value) (s : String) :
    sc.epoch other (.str s) ≤ (sc.publish node port v).epoch other (.str s) := by
  by_cases h : other = node ∧ port = .str s
  · obtain ⟨rfl, rfl⟩ := h
    rw [epoch_publish_self]
    exact Nat.le_succ _
  · rw [epoch_publish_of_ne sc v h]

theorem cached?_resetNode (sc : Scope) {node other : String} (h : other ≠ node) :
    (sc.resetNode node).cached? other = sc.cached? other :=
  lookup_filter_of_ne h

theorem cached?_resetNode_self (sc : Scope) (node : String) :
    (sc.resetNode node).cached? node = none := by
  rw [cached?, resetNode, List.lookup_eq_none_iff]
  intro x hx
  have := (List.mem_filter.mp hx).2
  simp only [bne_iff_ne, ne_eq] at this
  simpa using Ne.symm this

theorem cached?_cache (sc : Scope) (node other : String) (ds : Dependencies) :
    (sc.cache node ds).cached? other = if other = node then some ds else sc.cached? other := by
  simp only [cached?, cache, List.lookup_cons]
  by_cases h : other = node
  · simp [h]
  · simp [h, beq_false_of_ne h, lookup_filter_of_ne h]

/-! ## Outputs being resolved -/

theorem isResolving_enter (sc : Scope) (node port other : String) :
    (sc.enter node port).isResolving other = true ↔ other = node ∨ sc.isResolving other = true := by
  simp [isResolving, enter, List.mem_insert_iff]

theorem isResolving_leave (sc : Scope) (node other : String) :
    (sc.leave node).isResolving other = true ↔ sc.isResolving other = true ∧ other ≠ node := by
  simp [isResolving, leave]

/-- A resolution that has begun and ended leaves the marks as they were. -/
theorem resolving_leave_enter {l : List String} {node : String} (h : node ∉ l) :
    ((l.insert node).filter fun m => m != node) = l := by
  rw [List.insert_of_not_mem h, List.filter_cons_of_neg (by simp), List.filter_eq_self]
  rintro m hm
  rw [bne_iff_ne]
  rintro rfl
  exact h hm

/-- Whether the nodes that are marked as being resolved are those on the path. -/
def Marked (sc : Scope) : Prop := ∀ node, sc.isResolving node = true ↔ node ∈ sc.path.map Prod.fst

namespace Marked

variable {sc sc' : Scope}

theorem isResolving_eq_false (h : sc.Marked) {node : String} :
    sc.isResolving node = false ↔ node ∉ sc.path.map Prod.fst := by
  rw [← h node, Bool.not_eq_true]

theorem isResolving_eq_any (h : sc.Marked) (node : String) :
    sc.isResolving node = sc.path.any fun x => x.1 == node := by
  rw [Bool.eq_iff_iff, h node]
  simp

theorem nil (hpath : sc.path = []) (hresolving : sc.resolving = []) : sc.Marked := by
  intro node
  simp [isResolving, hpath, hresolving]

theorem of_eq (h : sc.Marked) (hpath : sc'.path = sc.path) (hresolving : sc'.resolving = sc.resolving) :
    sc'.Marked := by
  intro node
  rw [hpath, ← h node, isResolving, isResolving, hresolving]

theorem enter (h : sc.Marked) (node port : String) : (sc.enter node port).Marked := by
  intro other
  rw [isResolving_enter, h other]
  simp [Scope.enter, or_comm]

/-- The resolution begun last ends. -/
theorem leave (h : sc.Marked) {node : String} {nodes : List String}
    (hpath : sc.path.map Prod.fst = nodes ++ [node]) (hnew : node ∉ nodes) : (sc.leave node).Marked := by
  have hleft : (sc.leave node).path.map Prod.fst = nodes := by
    rw [Scope.leave, List.map_dropLast, hpath, List.dropLast_concat]
  intro other
  rw [isResolving_leave, h other, hleft, hpath, List.mem_append, List.mem_singleton]
  refine ⟨fun ⟨hor, hne⟩ => hor.resolve_right hne, fun hmem => ⟨.inl hmem, ?_⟩⟩
  rintro rfl
  exact hnew hmem

end Marked

end Scope

end Patchbay
