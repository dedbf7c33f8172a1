import Patchbay.Proofs.Settling

/-!
# What a scope remembers

A data-only node that has run is remembered with everything it read, through other nodes too. While
nothing of that has moved, its run would yield the outputs that are remembered, and it would yield them
in every world that agrees with the present one on what was read.

Results:
* `Recalls.later`: publications and writes leave what is remembered as a run would yield it, or put it
  out of date.
* `Later.publish`, `Later.write`: versions do not fall, and what has kept its version has kept its value.
-/

namespace Patchbay

/-! ## Worlds that agree on what was read -/

/-- Whether two worlds agree on something that can be read. -/
def World.AgreeAt (w w' : World) : Dependency → Prop
  | .output node port => ∀ s, port = .str s → w.published node s = w'.published node s
  | .oneVariable name => w.values.get? name = w'.values.get? name
  | .allVariables => w.values = w'.values

/-- Whether two worlds agree on everything that was noted. -/
def World.Agree (ds : Dependencies) (w w' : World) : Prop := ∀ x ∈ ds, w.AgreeAt w' x.1

theorem World.Agree.refl (ds : Dependencies) (w : World) : w.Agree ds w := by
  intro x _
  cases x.1 with
  | output node port => exact fun _ _ => rfl
  | oneVariable name => rfl
  | allVariables => rfl

theorem World.AgreeAt.trans {w w' w'' : World} {d : Dependency} (h : w.AgreeAt w' d)
    (h' : w'.AgreeAt w'' d) : w.AgreeAt w'' d := by
  cases d with
  | output node port => exact fun s hs => (h s hs).trans (h' s hs)
  | oneVariable name => exact Eq.trans h h'
  | allVariables => exact Eq.trans h h'

theorem World.Agree.of_keys {ds es : Dependencies} {w w' : World}
    (hk : ∀ x ∈ ds, ∃ u, (x.1, u) ∈ es) (h : w.Agree es w') : w.Agree ds w' := by
  intro x hx
  obtain ⟨u, hu⟩ := hk x hx
  exact h (x.1, u) hu

/-! ## Notes that are current -/

/-- Whether notes say of everything they name what is current. -/
def Engine.Stamped (e : Engine) (sc : Scope) (ds : Dependencies) : Prop :=
  ∀ x ∈ ds, x.1.Textual ∧ x.2 = e.currentVersion sc x.1

theorem Engine.currentVersion_congr {e e' : Engine} {sc sc' : Scope} (hs : e'.store = e.store)
    (hsc : sc'.epochs = sc.epochs) (d : Dependency) : e'.currentVersion sc' d = e.currentVersion sc d := by
  cases d with
  | output node port => simp only [Engine.currentVersion, Scope.epoch, hsc]
  | oneVariable name => simp only [Engine.currentVersion, hs]
  | allVariables => simp only [Engine.currentVersion, hs]

theorem Engine.Stamped.congr {e e' : Engine} {sc sc' : Scope} {ds : Dependencies} (h : e.Stamped sc ds)
    (hs : e'.store = e.store) (hsc : sc'.epochs = sc.epochs) : e'.Stamped sc' ds := by
  intro x hx
  rw [Engine.currentVersion_congr hs hsc]
  exact h x hx

theorem Engine.Stamped.note {e : Engine} {sc : Scope} {ds : Dependencies} (h : e.Stamped sc ds)
    {d : Dependency} (hd : d.Textual) : e.Stamped sc (ds.note d (e.currentVersion sc d)) := by
  intro x hx
  rcases Dependencies.mem_note hd hx with rfl | hx
  · exact ⟨hd, rfl⟩
  · exact h x hx

theorem Engine.Stamped.merge {e : Engine} {sc : Scope} {ds es : Dependencies} (h : e.Stamped sc ds)
    (h' : e.Stamped sc es) : e.Stamped sc (ds.merge es) := by
  intro x hx
  rcases Dependencies.mem_merge (fun y hy => (h' y hy).1) hx with hx | hx
  · exact h x hx
  · exact h' x hx

/-! ## What a scope remembers -/

/-- What a scope remembers of a node that ran: it noted what it read, none of it later than now, and while
all of it is current the outputs are those of a run in any world that agrees on it. -/
structure Recalls (p : Program) (e : Engine) (sc : Scope) (node : String) (ds : Dependencies) : Prop where
  dataOnly : p.dataOnly node = true
  seen : ∀ x ∈ ds, x.1.Textual ∧ x.2 ≤ e.currentVersion sc x.1
  current : e.stillCurrent sc ds = true → ∀ w', (p.world e.store sc).Agree ds w' →
    ∃ n m k, p.nodeWithKind node = .ok (m, k) ∧ p.free w' n node k = some (.ok (sc.outputsOf node))

/-- Whether everything that a scope remembers is as a run would yield it. -/
def Sound (p : Program) (e : Engine) (sc : Scope) : Prop :=
  ∀ node ds, sc.cached? node = some ds → Recalls p e sc node ds

theorem stillCurrent_iff {e : Engine} {sc : Scope} {ds : Dependencies} :
    e.stillCurrent sc ds = true ↔ ∀ x ∈ ds, e.currentVersion sc x.1 = x.2 := by
  simp [Engine.stillCurrent]

/-- A later state of a trigger: versions have not fallen, and what has kept its version has kept its
value. -/
structure Later (p : Program) (e : Engine) (sc : Scope) (e' : Engine) (sc' : Scope) : Prop where
  le : ∀ d : Dependency, d.Textual → e.currentVersion sc d ≤ e'.currentVersion sc' d
  agree : ∀ d : Dependency, d.Textual → e'.currentVersion sc' d = e.currentVersion sc d →
    (p.world e.store sc).AgreeAt (p.world e'.store sc') d

/-- What is remembered is out of date later, or still as a run would yield it. -/
theorem Recalls.later {p : Program} {e e' : Engine} {sc sc' : Scope} {node : String} {ds : Dependencies}
    (h : Recalls p e sc node ds) (hl : Later p e sc e' sc')
    (ho : sc'.outputsOf node = sc.outputsOf node) : Recalls p e' sc' node ds := by
  refine ⟨h.dataOnly, fun x hx => ?_, fun hcur w' hw => ?_⟩
  · obtain ⟨ht, hle⟩ := h.seen x hx
    exact ⟨ht, hle.trans (hl.le x.1 ht)⟩
  · -- a version that is what was seen has not moved in between
    rw [stillCurrent_iff] at hcur
    have hsame : ∀ x ∈ ds, e.currentVersion sc x.1 = x.2 := by
      intro x hx
      obtain ⟨ht, hle⟩ := h.seen x hx
      exact le_antisymm ((hl.le x.1 ht).trans (hcur x hx).le) hle
    have hagree : (p.world e.store sc).Agree ds w' := by
      intro x hx
      have heq : e'.currentVersion sc' x.1 = e.currentVersion sc x.1 :=
        (hcur x hx).trans (hsame x hx).symm
      exact (hl.agree x.1 (h.seen x hx).1 heq).trans (hw x hx)
    rw [ho]
    exact h.current (stillCurrent_iff.mpr hsame) w' hagree

theorem Sound.later {p : Program} {e e' : Engine} {sc sc' : Scope} (h : Sound p e sc)
    (hl : Later p e sc e' sc') (hc : sc'.cached = sc.cached)
    (ho : ∀ node, p.dataOnly node = true → sc'.outputsOf node = sc.outputsOf node) : Sound p e' sc' := by
  intro node ds hcached
  rw [Scope.cached?, hc] at hcached
  have hn := h node ds hcached
  exact hn.later hl (ho node hn.dataOnly)

/-- Publishing an output. -/
theorem Later.publish (p : Program) (e : Engine) (sc : Scope) (node : String) (port v : Value) :
    Later p e sc e (sc.publish node port v) := by
  refine ⟨fun d hd => ?_, fun d hd heq => ?_⟩
  · cases d with
    | output other s =>
      obtain ⟨s, rfl⟩ := hd
      exact Scope.epoch_le_publish sc node other port v s
    | oneVariable name => exact le_rfl
    | allVariables => exact le_rfl
  · cases d with
    | output other s =>
      intro s hs
      subst hs
      by_cases h : other = node ∧ port = .str s
      · obtain ⟨rfl, rfl⟩ := h
        simp only [Engine.currentVersion, Scope.epoch_publish_self] at heq
        omega
      · simp only [Program.world, Scope.get?_outputsOf_publish_of_ne sc v h]
    | oneVariable name => rfl
    | allVariables => rfl

/-- Writing a variable. -/
theorem Later.write {p : Program} {e e' : Engine} (hc : e.store.Counted) (sc : Scope)
    (hw : Variables.Write e.store e'.store) : Later p e sc e' sc := by
  refine ⟨fun d hd => ?_, fun d hd heq => ?_⟩
  · cases d with
    | output node port => exact le_rfl
    | oneVariable name => exact hw.versionOf_le hc name
    | allVariables => exact Variables.Wrote.version_le (.single hw)
  · cases d with
    | output node port => exact fun _ _ => rfl
    | oneVariable name =>
      rcases hw.moved name with h | h
      · exact h.1.symm
      · have := hc.versionOf_le name
        simp only [Engine.currentVersion] at heq
        omega
    | allVariables =>
      exact congrArg Variables.values
        (Variables.Wrote.eq_of_version_eq (.single hw) heq).symm

/-- Nothing that can be read has changed. -/
theorem Later.of_eq {p : Program} {e e' : Engine} {sc sc' : Scope} (hs : e'.store = e.store)
    (he : sc'.epochs = sc.epochs) (hw : p.world e'.store sc' = p.world e.store sc) :
    Later p e sc e' sc' := by
  refine ⟨fun d _ => ?_, fun d _ _ => ?_⟩
  · rw [Engine.currentVersion_congr hs he]
  · rw [hw]
    exact World.Agree.refl [(d, 0)] _ (d, 0) List.mem_cons_self

/-! ## What a resolution leaves alone -/

/-- Whether a scope has kept what was published, and the nodes being resolved. -/
structure Keeps (p : Program) (sc sc' : Scope) : Prop where
  epochs : sc'.epochs = sc.epochs
  path : sc'.path = sc.path
  resolving : sc'.resolving = sc.resolving
  outputs : ∀ node, p.dataOnly node = false ∨ node ∈ sc.path.map Prod.fst →
    sc'.outputsOf node = sc.outputsOf node

theorem Keeps.refl (p : Program) (sc : Scope) : Keeps p sc sc := ⟨rfl, rfl, rfl, fun _ _ => rfl⟩

theorem Keeps.trans {p : Program} {sc sc' sc'' : Scope} (h : Keeps p sc sc') (h' : Keeps p sc' sc'') :
    Keeps p sc sc'' := by
  refine ⟨h'.epochs.trans h.epochs, h'.path.trans h.path, h'.resolving.trans h.resolving,
    fun node hn => ?_⟩
  exact (h'.outputs node (by rwa [h.path])).trans (h.outputs node hn)

theorem Keeps.world_eq {p : Program} {sc sc' : Scope} (h : Keeps p sc sc') (st : Variables) :
    p.world st sc' = p.world st sc := by
  simp only [Program.world, World.mk.injEq, true_and]
  funext node port
  split
  · rfl
  · next hd => rw [h.outputs node (.inl (Bool.eq_false_iff.mpr hd))]

/-- A state that a resolution may end in. -/
structure Quiet (p : Program) (st : Variables) (sc : Scope) (e' : Engine) (sc' : Scope) : Prop where
  holds : e'.Holds p st
  keeps : Keeps p sc sc'
  sound : Sound p e' sc'

/-- A change that is none of the program, the variables or what the scope remembers. -/
theorem Quiet.of_eq {p : Program} {st : Variables} {sc sc₁ sc₂ : Scope} {e₁ e₂ : Engine}
    (h : Quiet p st sc e₁ sc₁) (h₂ : e₂.Holds p st) (he : sc₂.epochs = sc₁.epochs)
    (hp : sc₂.path = sc₁.path) (hm : sc₂.resolving = sc₁.resolving) (ho : sc₂.outputs = sc₁.outputs)
    (hc : sc₂.cached = sc₁.cached) : Quiet p st sc e₂ sc₂ := by
  have hout : ∀ node, sc₂.outputsOf node = sc₁.outputsOf node := by
    intro node
    simp only [Scope.outputsOf, ho]
  have hk : Keeps p sc₁ sc₂ := ⟨he, hp, hm, fun node _ => hout node⟩
  have hs : e₂.store = e₁.store := h₂.store.trans h.holds.store.symm
  have hl : Later p e₁ sc₁ e₂ sc₂ := .of_eq hs he (by rw [hs, hk.world_eq])
  exact ⟨h₂, h.keeps.trans hk, h.sound.later hl hc fun node _ => hout node⟩

end Patchbay
