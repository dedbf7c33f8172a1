import Patchbay.Proofs.Interleaving

/-!
# Freshness of what is served

An output of a data-only node is served from what is cached as long as every note of the cached
invocation is current. Notes keep one version for each thing that was read. When an invocation reads a
thing twice and it moves in between, the later version alone is noted; and what a nested pull has read
before it failed is not noted at all. What is served is then not always fresh. It is fresh exactly when
neither has left a trace: all reads of one thing saw one version, and nothing has moved that a failed
pull had read.

Contents:
* `Engine.Turn.served?`: what a turn is about to serve.
* `Account.Steady`: no two reads of one thing saw different versions.

Results:
* `served_fresh_iff`: when what is served is fresh.
* `served_stale_drift`: a node that writes a variable between two reads of it is served out of date.
-/

namespace Patchbay

/-- The strand, node, output and notes of a turn that serves an output from what is cached. -/
def Engine.Turn.served? (t : Engine.Turn) : Option (Strand × String × String × Dependencies) :=
  match t.next with
  | some (s, .call (.output node port)) => match t.engine.nodeWithKind node with
    | .ok (_, k) =>
      if (k.outputPort port).isSome && k.dataOnly then
        ((s.scope.cached? node).filter (t.engine.stillCurrent s.scope)).map fun ds => (s, node, port, ds)
      else none
    | .error _ => none
  | _ => none

/-- All reads of an invocation. -/
def Account.reads (a : Account) : Dependencies := a.kept ++ a.lost

/-- Whether all noted reads of one thing saw one version. -/
def Account.Steady (a : Account) : Prop := ∀ x ∈ a.kept, ∀ y ∈ a.kept, x.1 = y.1 → x.2 = y.2

/-- Whether reads saw the versions of now. -/
def Engine.Fresh (e : Engine) (sc : Scope) (ds : Dependencies) : Prop :=
  ∀ x ∈ ds, e.currentVersion sc x.1 = x.2

instance (e : Engine) (sc : Scope) (ds : Dependencies) : Decidable (e.Fresh sc ds) :=
  inferInstanceAs (Decidable (∀ x ∈ ds, _))

section Served

variable {t : Engine.Turn} {s : Strand} {node port : String} {ds : Dependencies}

theorem served?_eq_some (h : t.served? = some (s, node, port, ds)) :
    t.next = some (s, .call (.output node port)) ∧ s.scope.cached? node = some ds ∧
      t.engine.stillCurrent s.scope ds = true ∧
      ∃ n k, t.engine.nodeWithKind node = .ok (n, k) ∧ (k.outputPort port).isSome = true ∧
        k.dataOnly = true := by
  unfold Engine.Turn.served? at h
  split at h
  · next s' node' port' hn =>
    split at h
    · next n k hk =>
      split at h
      · next hc =>
        simp only [Option.map_eq_some_iff, Prod.mk.injEq] at h
        obtain ⟨ds', hds, rfl, rfl, rfl, rfl⟩ := h
        obtain ⟨hcached, hcur⟩ := Option.filter_eq_some_iff.mp hds
        rw [Bool.and_eq_true] at hc
        exact ⟨hn, hcached, hcur, n, k, hk, hc.1, hc.2⟩
      · simp at h
    · simp at h
  · simp at h

/-- What is served is the stored output of the node, and nothing runs. -/
theorem turn_of_served (h : t.served? = some (s, node, port, ds)) :
    t.engine.turn s (.call (.output node port)) =
      t.engine.go s (Engine.outputResult s.scope node port ds) := by
  obtain ⟨-, hcached, hcur, n, k, hk, hport, hdata⟩ := served?_eq_some h
  have hfilter : (s.scope.cached? node).filter (t.engine.stillCurrent s.scope) = some ds :=
    Option.filter_eq_some_iff.mpr ⟨hcached, hcur⟩
  have hnone : (k.outputPort port).isNone = false := by
    rw [← Option.not_isSome, hport]
    rfl
  show t.engine.pullOutput s node port = _
  simp only [Engine.pullOutput, hk, hnone, hdata, hfilter, Bool.false_eq_true, Bool.not_true, if_false]

/-- In every state that can be reached, what is handed on from the cache is fresh, at every read of the
invocation that it is from, exactly when all its noted reads of one thing saw one version and nothing has
moved that its failed pulls had read. -/
theorem served_fresh_iff {L : Ledger} (hr : Recorded t L) (h : t.served? = some (s, node, port, ds)) :
    t.engine.turn s (.call (.output node port)) =
        t.engine.go s (Engine.outputResult s.scope node port ds) ∧
      (t.engine.Fresh s.scope ((L s.scope.trigger).cached node).reads ↔
        ((L s.scope.trigger).cached node).Steady ∧
          t.engine.Fresh s.scope ((L s.scope.trigger).cached node).lost) := by
  refine ⟨turn_of_served h, ?_⟩
  obtain ⟨hn, hcached, hcur, -⟩ := served?_eq_some h
  have hmem : (s, Parked.turn (.call (.output node port))) ∈ t.population := by
    simp [Engine.Turn.population, hn]
  have hcov : ((L s.scope.trigger).cached node).Covered ds :=
    (hr.orderly.placed _ hmem).sits.booked.cached node ds hcached
  have hnotes : t.engine.Fresh s.scope ds := by
    intro x hx
    have := List.all_eq_true.mp hcur x hx
    simpa using this
  constructor
  · intro hfresh
    refine ⟨fun x hx y hy hxy => ?_, fun x hx => hfresh x (List.mem_append_right _ hx)⟩
    rw [← hfresh x (List.mem_append_left _ hx), ← hfresh y (List.mem_append_left _ hy), hxy]
  · rintro ⟨hsteady, hlost⟩ x hx
    rcases List.mem_append.mp hx with hx | hx
    · -- the engine has checked the version that it noted, and that is a read of the same thing
      obtain ⟨u, hu⟩ := hcov.keys x hx
      rw [hsteady x hx (x.1, u) (hcov.kept _ hu) rfl]
      exact hnotes (x.1, u) hu
    · exact hlost x hx

end Served

/-! ## A node that drifts -/

/-- Reads a variable, and if it is one writes another value and reads it again. -/
def drifting : Behavior := fun _ =>
  .ask (.readVariable "x") fun
    | .ok (some (.int 1)) =>
      .ask (.setVariable "x" (.int 2)) fun _ =>
      .ask (.readVariable "x") fun _ => .finish (.dict [(.str "value", .int 3)])
    | _ => .finish (.dict [(.str "value", .int 4)])

/-- Pulls its input twice. -/
def pullingTwice : Behavior := fun _ =>
  .wait (.pull "in") fun _ => .wait (.pull "in") fun
    | .ok v => .finish (.dict [(.str "value", v)])
    | .error err => .fail err

/-- Pulls the input of a display that is fed, through a node that pulls twice, by one that drifts. -/
def driftSession (x : Int) : Engine.Turn :=
  opening (.initial {}
    { kinds := [.sketch "drift" .expression [] [Library.yields "value" .any] (some drifting),
        .sketch "twice" .expression [{ id := "in" }] [Library.yields "value" .any] (some pullingTwice),
        .sketch "display" .statement [{ id := "in" }] [] none] }
    { nodes := [{ serial := 0, id := "d", kind := "drift" }, { serial := 1, id := "t", kind := "twice" },
        { serial := 2, id := "p", kind := "display" }]
      edges := [⟨"d", "value", "t", "in"⟩, ⟨"t", "value", "p", "in"⟩] } 0.01)
    [.command (.setVariable "x" (.int x)), .pull "p" "in"]

/-- The state after a number of steps of that session, with its ledger. -/
def drifted (x : Int) (n : Nat) : Engine.Turn × Ledger := follow n (driftSession x, fun _ => {})

theorem recorded_drifted (x : Int) (n : Nat) : Recorded (drifted x n).1 (drifted x n).2 :=
  (Recorded.start _ _ _ _ _).follow n

/-- A variable that does not drift was read once, and the node that read it is served fresh. -/
theorem served_fresh_steady : ∃ (s : Strand) (ds : Dependencies),
    (drifted 5 16).1.served? = some (s, "d", "value", ds) ∧
      (drifted 5 16).1.engine.Fresh s.scope (((drifted 5 16).2 s.scope.trigger).cached "d").reads := by
  have hserved : (drifted 5 16).1.served?.any (fun x => x.2.1 == "d" && x.2.2.1 == "value" &&
      (((drifted 5 16).2 x.1.scope.trigger).cached "d").kept.length == 1 &&
      (((drifted 5 16).2 x.1.scope.trigger).cached "d").lost.length == 0) = true := by decide +kernel
  obtain ⟨⟨s, node, port, ds⟩, hs, hx⟩ := (Option.any_eq_true _ _).mp hserved
  simp only [Bool.and_eq_true, beq_iff_eq] at hx
  obtain ⟨⟨⟨rfl, rfl⟩, hkept⟩, hlost⟩ := hx
  refine ⟨s, ds, hs, (served_fresh_iff (recorded_drifted 5 16) hs).2.mpr ⟨?_, ?_⟩⟩
  · obtain ⟨r, hr⟩ := List.length_eq_one_iff.mp hkept
    simp [Account.Steady, hr]
  · rw [List.eq_nil_of_length_eq_zero hlost]
    simp [Engine.Fresh]

/-- The node is served again although the variable has moved since its first read. -/
theorem served_stale_drift : ∃ (t : Engine.Turn) (L : Ledger) (s : Strand) (node port : String)
    (ds : Dependencies), Recorded t L ∧ t.served? = some (s, node, port, ds) ∧
      ¬t.engine.Fresh s.scope ((L s.scope.trigger).cached node).reads := by
  have hstale : (drifted 1 18).1.served?.any (fun x => !decide ((drifted 1 18).1.engine.Fresh x.1.scope
      (((drifted 1 18).2 x.1.scope.trigger).cached x.2.1).reads)) = true := by decide +kernel
  obtain ⟨⟨s, node, port, ds⟩, hs, hx⟩ := (Option.any_eq_true _ _).mp hstale
  exact ⟨_, _, s, node, port, ds, recorded_drifted 1 18, hs, by simpa using hx⟩

end Patchbay
